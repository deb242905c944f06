import LiquidStaking.Access
import LiquidStaking.Address
import LiquidStaking.AddressMap
import LiquidStaking.Arithmetic
import LiquidStaking.Bounded
import LiquidStaking.Constants
import LiquidStaking.Deposit.Allocation
import LiquidStaking.Deposit.Levelling
import LiquidStaking.Escrow
import LiquidStaking.Fault
import LiquidStaking.Fee.Mint
import LiquidStaking.Fee.Split
import LiquidStaking.Json.Basic
import LiquidStaking.Json.Reader
import LiquidStaking.Json.Writer
import LiquidStaking.Keeper.Fault
import LiquidStaking.Keeper.Event
import LiquidStaking.Keeper.Journal
import LiquidStaking.Keeper.Options
import LiquidStaking.Keeper.Replay
import LiquidStaking.Keeper.Settings
import LiquidStaking.Main
import LiquidStaking.Pool.Basic
import LiquidStaking.Pool.Books
import LiquidStaking.Pool.Policy
import LiquidStaking.Pool.Report
import LiquidStaking.Pool.Shared
import LiquidStaking.Pool.Snapshot
import LiquidStaking.Proofs.AddressMap
import LiquidStaking.Proofs.Arithmetic
import LiquidStaking.Proofs.Fee.Mint
import LiquidStaking.Proofs.Outcome
import LiquidStaking.Proofs.Pool.EtherConservation
import LiquidStaking.Proofs.Pool.Operations
import LiquidStaking.Proofs.Pool.Planning
import LiquidStaking.Proofs.Pool.RateCap
import LiquidStaking.Proofs.Pool.Runs
import LiquidStaking.Proofs.Pool.ShareLedger
import LiquidStaking.Proofs.Rebase.Budget
import LiquidStaking.Proofs.Withdrawal.Ledger
import LiquidStaking.Proofs.Withdrawal.Obligations
import LiquidStaking.Proofs.Withdrawal.Prices
import LiquidStaking.Proofs.Withdrawal.Solvency
import LiquidStaking.Proofs.Withdrawal.SolventRuns
import LiquidStaking.Proofs.Withdrawal.Validity
import LiquidStaking.Rate
import LiquidStaking.Rebase.Budget
import LiquidStaking.Registry
import LiquidStaking.StakingModule
import LiquidStaking.Text.Blank
import LiquidStaking.Text.Digits
import LiquidStaking.Text.Slice
import LiquidStaking.Toml.Basic
import LiquidStaking.Toml.Quoted
import LiquidStaking.Toml.Reader
import LiquidStaking.Toml.Scalar
import LiquidStaking.Toml.Tree
import LiquidStaking.Toml.Writer
import LiquidStaking.Wire.Basic
import LiquidStaking.Wire.Fault
import LiquidStaking.Wire.Pool
import LiquidStaking.Wire.Source
import LiquidStaking.Withdrawal.Prices
import LiquidStaking.Withdrawal.Queue
import LiquidStaking.Withdrawal.Request
import LiquidStaking.Proofs.Withdrawal.Desk
import LiquidStaking.Proofs.Withdrawal.Representation
import LiquidStaking.Proofs.Pool.Refusals
import LiquidStaking.Proofs.Withdrawal.Claims
import LiquidStaking.Proofs.Pool.Atomicity
import LiquidStaking.Proofs.Pool.Dilution
import LiquidStaking.Proofs.Deposit.OneByOne
import LiquidStaking.Proofs.Deposit.Levelling
import LiquidStaking.Proofs.Registry
import LiquidStaking.Proofs.Pool.Restoration
import LiquidStaking.Proofs.Pool.EscrowBacking
import LiquidStaking.Proofs.Pool.Shared
import LiquidStaking.Proofs.Keeper.Events
import LiquidStaking.Proofs.Keeper.Start
import LiquidStaking.Proofs.Keeper.Backing
import LiquidStaking.Proofs.Text.Digits
import LiquidStaking.Proofs.Address
import LiquidStaking.Proofs.Json.RoundTrip
import LiquidStaking.Proofs.Wire.Basic
import LiquidStaking.Proofs.Wire.Pool
import LiquidStaking.Proofs.Keeper.Journal
import LiquidStaking.Proofs.Keeper.Settings
import LiquidStaking.Proofs.Wire.Refusals
import LiquidStaking.Proofs.Keeper.Resume
import LiquidStaking.Proofs.Keeper.Split
import LiquidStaking.Proofs.Withdrawal.Payments
import LiquidStaking.Proofs.Withdrawal.Residue
import LiquidStaking.Proofs.Pool.Ownership
import LiquidStaking.Proofs.Pool.SharedRuns
import LiquidStaking.Proofs.Withdrawal.Widths
import LiquidStaking.Proofs.Deposit.Widths
import LiquidStaking.Proofs.Pool.Widths
import LiquidStaking.Proofs.Rebase.Cycle
import LiquidStaking.Proofs.Access
import LiquidStaking.Proofs.Pool.Authorization
import LiquidStaking.Proofs.Json.OneLine
import LiquidStaking.Proofs.Wire.Event
import LiquidStaking.Proofs.Text.Lines
import LiquidStaking.Proofs.Keeper.WrittenJournal
import LiquidStaking.Proofs.Rebase.Calls
import LiquidStaking.Proofs.Withdrawal.Drift
import LiquidStaking.Proofs.Withdrawal.SplitBatches
import LiquidStaking.Proofs.Fee.Distribution
import LiquidStaking.Proofs.Pool.Submissions
import LiquidStaking.Proofs.Pool.NeutralBurn
import LiquidStaking.Proofs.Fee.Worth
import LiquidStaking.Proofs.Pool.FeeRefusals
import LiquidStaking.Proofs.Deposit.Spreading
import LiquidStaking.Proofs.Pool.Deposits
import LiquidStaking.Proofs.Pool.WithdrawalReserve
import LiquidStaking.Proofs.Withdrawal.Lookups
import LiquidStaking.Proofs.Escrow
import LiquidStaking.Proofs.Withdrawal.DryCheck
import LiquidStaking.Proofs.Withdrawal.ClaimOrder
import LiquidStaking.Proofs.Pool.AccountEffects
import LiquidStaking.Proofs.Pool.ExactValue
import LiquidStaking.Proofs.Traversal
import LiquidStaking.Proofs.Text.Slice
import LiquidStaking.Proofs.Registry.Changes
import LiquidStaking.Proofs.Rebase.SingleStep
import LiquidStaking.Proofs.Keeper.Validation
import LiquidStaking.Proofs.Address.Texts
import LiquidStaking.Proofs.Rate.Order

/-
The staking pool.

Pooled ether is partly buffered and partly staked.  Shares belong to accounts, to withdrawal
requests that wait in the queue, or, once a batch is finalized and not all of its shares could be
burned at once, to the pending burn.

Every operation answers the new pool, or refuses and leaves none.
-/
import LiquidStaking.Deposit.Allocation
import LiquidStaking.Pool.Policy
import LiquidStaking.Registry
import LiquidStaking.Withdrawal.Queue

namespace LiquidStaking

structure PoolTotals where
  bufferedEther : Amount
  stakedEther : Amount
  totalShares : Amount
  /-- The shares of withdrawal requests that are not finalized. -/
  queuedShares : Amount
  /-- The shares of finalized requests that are not burned yet. -/
  pendingBurn : Amount
deriving DecidableEq

namespace PoolTotals

def zero : PoolTotals :=
  ⟨Bounded.zero, Bounded.zero, Bounded.zero, Bounded.zero, Bounded.zero⟩

/-- All pooled ether; it stays at the greatest amount when the exact sum is above it. -/
def poolValue (t : PoolTotals) : Amount :=
  Bounded.clamp (t.bufferedEther.val + t.stakedEther.val)

def rate (t : PoolTotals) : Except Fault Rate := Rate.ofAmounts t.poolValue t.totalShares

end PoolTotals

structure Pool where
  policy : PoolPolicy
  totals : PoolTotals
  balances : AddressMap Amount
  queue : WithdrawalQueue
  registry : Registry
  lastReport : Option Count
deriving DecidableEq

namespace Pool

def create (policy : PoolPolicy) : Except Fault Pool := do
  policy.validate
  return {
    policy
    totals := .zero
    balances := .empty
    queue := .create policy.withdrawalLimits
    registry := ← Registry.create policy.maxModules
    lastReport := none }

def poolValue (p : Pool) : Amount := p.totals.poolValue

def rate (p : Pool) : Except Fault Rate := p.totals.rate

def sharesOf (p : Pool) (account : Address) : Amount :=
  (p.balances.get? account).getD Bounded.zero

def valueOf (p : Pool) (account : Address) : Except Fault Amount :=
  let shares := p.sharesOf account
  if shares.val = 0 then
    .ok Bounded.zero
  else do
    Bounded.narrow (← (← p.rate).valueForShares shares.val)

/-- The shares that `amount` ether buys; the first deposit buys one share per wei. -/
def sharesForDeposit (p : Pool) (amount : Amount) : Except Fault Amount :=
  if p.totals.totalShares.val = 0 then
    .ok amount
  else do
    Bounded.narrow (← (← p.rate).sharesForValue amount.val)

def submit (p : Pool) (sender : Address) (amount : Amount) : Except Fault (Amount × Pool) := do
  let shares ← p.sharesForDeposit amount
  if shares.val = 0 then
    throw (.belowMinimum amount.val 0)
  else
    let bufferedEther ← p.totals.bufferedEther.add amount
    let totalShares ← p.totals.totalShares.add shares
    let balance ← (p.sharesOf sender).add shares
    return (shares, { p with
      totals := { p.totals with bufferedEther, totalShares }
      balances := p.balances.insert sender balance })

/-- The balances with an account set to `shares`; an account without shares has no entry. -/
def setBalance (p : Pool) (account : Address) (shares : Amount) : AddressMap Amount :=
  if shares.val = 0 then p.balances.erase account else p.balances.insert account shares

/-- Queue shares of an account for withdrawal at the rate of the moment.  Answers the number of the
request. -/
def requestWithdrawal (p : Pool) (owner : Address) (shares : Amount) (block : Count) :
    Except Fault (Count × Pool) := do
  match (p.sharesOf owner).sub shares with
  | .error _ => throw (.insufficientShares shares.val (p.sharesOf owner).val)
  | .ok remaining =>
    let ether ← Bounded.narrow (← (← p.rate).valueForShares shares.val)
    let queuedShares ← p.totals.queuedShares.add shares
    let (id, queue) ← p.queue.enqueue owner ether shares block
    return (id, { p with
      totals := { p.totals with queuedShares }
      balances := p.setBalance owner remaining
      queue })

def claim (p : Pool) (id : Count) (hint : Option Nat) (escrow : Escrow) :
    Except Fault (ClaimReceipt × Pool × Escrow) := do
  let (receipt, queue, escrow) ← p.queue.claim id hint escrow
  return (receipt, { p with queue }, escrow)

/-- The number of deposits the buffer can pay for, at most `limit`, when `reserved` ether stays for
withdrawals. -/
def affordableDeposits (p : Pool) (reserved : Amount) (limit : Count) : Except Fault Count := do
  let depositable : Amount :=
    ⟨p.totals.bufferedEther.val - reserved.val,
      Nat.lt_of_le_of_lt (Nat.sub_le ..) p.totals.bufferedEther.isLt⟩
  let affordable ← depositable.div p.policy.depositSize
  return ⟨min affordable.val limit.val, Nat.lt_of_le_of_lt (Nat.min_le_right ..) limit.isLt⟩

def recordAllocation (r : Registry) (allocation : DepositAllocation) (block : Count) :
    Except Fault Registry :=
  (allocation.moduleIds.zip allocation.deposits).foldlM
    (fun r e => if e.2 = 0 then .ok r else r.recordDeposits e.1 e.2 block) r

/-- Move up to `limit` validator deposits out of the buffer, keeping what unfinalized withdrawals
ask for. -/
def deposit (p : Pool) (limit block : Count) : Except Failure (DepositAllocation × Pool) := do
  let reserved ← p.queue.unfinalizedEther
  let count ← p.affordableDeposits reserved limit
  let allocation ← allocateDeposits p.registry.modules count
  let moved ← (Bounded.fit .overflow (allocation.allocated * p.policy.depositSize.val) :
    Except Fault Amount)
  let registry ← recordAllocation p.registry allocation block
  let bufferedEther ← p.totals.bufferedEther.sub moved
  let stakedEther ← p.totals.stakedEther.add moved
  return (allocation, { p with
    totals := { p.totals with bufferedEther, stakedEther }
    registry })

def manage (p : Pool) (change : Registry.Change) : Except Fault Pool := do
  return { p with registry := ← p.registry.apply change }

end Pool

end LiquidStaking

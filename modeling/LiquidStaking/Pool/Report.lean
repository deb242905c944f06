/-
Reports.

A report says how the balance of the validators changed, which rewards wait outside the pool, and
up to which request withdrawals are to be finalized.  It is planned in full on a copy of the totals
and settled afterwards: planning makes every check, and settling moves the ether.

The plan takes these steps, each of which consumes the same rebase budget or adjusts the same
totals.

1. New key counts go into the registry.
2. The balance change is applied in full, since it is a fact; a loss widens the budget.
3. Rewards enter the buffer as far as the budget reaches.
4. The batch leaves the buffer at the rate of the moment.  The shares worth exactly that ether are
   burned at once; the others join the pending burn.
5. Pending shares are burned as far as the budget reaches.
6. Fees on the net gain are minted as new shares.
-/
import LiquidStaking.Fee.Mint
import LiquidStaking.Pool.Basic
import LiquidStaking.Rebase.Budget

namespace LiquidStaking

structure KeyUpdate where
  moduleId : ModuleId
  activeKeys : Count
deriving DecidableEq

structure OracleReport where
  block : Count
  /-- The change of the validators' balance since the report before. -/
  delta : Delta
  /-- The rewards that wait to be pulled into the pool. -/
  rewards : Amount
  finalizeUpTo : Option Count
  moduleKeys : List KeyUpdate
deriving DecidableEq

structure ReportOutcome where
  block : Count
  delta : Delta
  rewardsApplied : Amount
  /-- The rewards that the rebase budget left outside the pool. -/
  rewardsDeferred : Amount
  finalization : Option Settlement
  sharesBurned : Amount
  pendingBurn : Amount
  feeMint : FeeMint
  budgetUsed : Count
  budgetLimit : Count
  poolValue : Amount
  totalShares : Amount
deriving DecidableEq

/-- A batch that may be finalized, and the totals it settles at. -/
structure Batch where
  last : Count
  settlement : Settlement
  poolValue : Amount
  shares : Amount
deriving DecidableEq

structure ReportPlan where
  registry : Registry
  totals : PoolTotals
  batch : Option Batch
  credits : AddressMap Amount
  outcome : ReportOutcome

namespace Pool

def applyKeyUpdate (r : Registry) (u : KeyUpdate) : Except Fault Registry := do
  r.setKeys u.moduleId u.activeKeys (← r.get u.moduleId).availableKeys

def applyDelta (budget : RebaseBudget) (d : Delta) : Except Fault RebaseBudget :=
  if d.val = 0 then .ok budget else do return (← budget.applyDelta d).2

def applyRewards (budget : RebaseBudget) (rewards : Amount) :
    Except Fault (Amount × RebaseBudget) :=
  if rewards.val = 0 then
    .ok (Bounded.zero, budget)
  else do
    let (allowed, budget) ← budget.appendEther rewards.val
    return (← Bounded.narrow allowed, budget)

/-- The shares worth exactly the ether that is locked for a batch, at most all of its shares. -/
def neutralBurn (poolValue shares : Amount) (s : Settlement) : Except Fault Amount := do
  let rate ← Rate.ofAmounts poolValue shares
  let worth : Amount ← Bounded.narrow (← rate.sharesForValue s.etherToLock.val)
  return if worth.val ≤ s.sharesToBurn.val then worth else s.sharesToBurn

/-- Take a batch out of the totals.  The shares that are not burned at once join the pending
burn. -/
def takeBatch (t : PoolTotals) (s : Settlement) (burn discount : Amount) :
    Except Fault PoolTotals := do
  return { t with
    bufferedEther := ← t.bufferedEther.sub s.etherToLock
    queuedShares := ← t.queuedShares.sub s.sharesToBurn
    totalShares := ← t.totalShares.sub burn
    pendingBurn := ← t.pendingBurn.add discount }

def planBatch (p : Pool) (t : PoolTotals) (last : Count) (balance : Amount) :
    Except Fault (Batch × PoolTotals) := do
  let settlement ← p.queue.settlement last t.poolValue t.totalShares
  if t.bufferedEther.val < settlement.etherToLock.val then
    throw (.insufficientBuffer settlement.etherToLock.val t.bufferedEther.val)
  else
    let burn ← neutralBurn t.poolValue t.totalShares settlement
    let discount ← settlement.sharesToBurn.sub burn
    let funded ← balance.add settlement.etherToLock
    let _ ← p.queue.checkFinalize last settlement.etherToLock t.poolValue t.totalShares funded
    return (⟨last, settlement, t.poolValue, t.totalShares⟩, ← takeBatch t settlement burn discount)

def planBatch? (p : Pool) (t : PoolTotals) (last : Option Count) (balance : Amount) :
    Except Fault (Option Batch × PoolTotals) :=
  match last with
  | none => .ok (none, t)
  | some last => do
    let (batch, t) ← p.planBatch t last balance
    return (some batch, t)

def burnPending (t : PoolTotals) (budget : RebaseBudget) :
    Except Fault (Amount × PoolTotals × RebaseBudget) :=
  if t.pendingBurn.val = 0 then
    .ok (Bounded.zero, t, budget)
  else do
    let (allowed, budget) ← budget.deductShares t.pendingBurn.val
    let burned ← Bounded.narrow allowed
    let pendingBurn ← t.pendingBurn.sub burned
    let totalShares ← t.totalShares.sub burned
    return (burned, { t with pendingBurn, totalShares }, budget)

/-- The net gain of a report, zero if it is a loss.  Both the rewards and the sum have to stay in
the range of a balance change. -/
def netGain (d : Delta) (applied : Amount) : Except Fault Amount := do
  let gain ← Delta.fit .conversion applied.val
  let net ← Delta.fit .overflow (d.val + gain.val)
  return Bounded.clamp net.val.toNat

def planFees (ms : List StakingModule) (t : PoolTotals) (d : Delta) (applied : Amount) :
    Except Fault FeeMint := do
  let gain ← netGain d applied
  if gain.val = 0 then
    return .zero
  else
    FeeMint.compute gain (← FeeSplit.ofModules ms) t.poolValue t.totalShares

/-- Everyone who is paid by a mint, and how much; an account may stand there more than once. -/
def feePayments (p : Pool) (mint : FeeMint) : List (Address × Amount) :=
  mint.moduleShares.map (fun m => (m.recipient, m.shares)) ++
    [(p.policy.treasury, mint.treasuryShares)]

def addCredit (p : Pool) (credits : AddressMap Amount) (payment : Address × Amount) :
    Except Fault (AddressMap Amount) :=
  if payment.2.val = 0 then
    .ok credits
  else do
    let before := (credits.get? payment.1).getD (p.sharesOf payment.1)
    return credits.insert payment.1 (← before.add payment.2)

def feeCredits (p : Pool) (mint : FeeMint) : Except Fault (AddressMap Amount) :=
  (p.feePayments mint).foldlM p.addCredit .empty

def plan (p : Pool) (r : OracleReport) (balance : Amount) : Except Fault ReportPlan := do
  let registry ← r.moduleKeys.foldlM applyKeyUpdate p.registry
  let budget ← RebaseBudget.start p.policy.maxRebase p.poolValue.val p.totals.totalShares.val
  let budget ← applyDelta budget r.delta
  let stakedEther ← p.totals.stakedEther.applyDelta r.delta
  let (applied, budget) ← applyRewards budget r.rewards
  let bufferedEther ← p.totals.bufferedEther.add applied
  let totals := { p.totals with stakedEther, bufferedEther }
  let (batch, totals) ← p.planBatch? totals r.finalizeUpTo balance
  let (burned, totals, budget) ← burnPending totals budget
  let feeMint ← planFees registry.modules totals r.delta applied
  let credits ← p.feeCredits feeMint
  let totalShares ← totals.totalShares.add feeMint.totalShares
  let totals := { totals with totalShares }
  return {
    registry
    totals
    batch
    credits
    outcome := {
      block := r.block
      delta := r.delta
      rewardsApplied := applied
      rewardsDeferred := ⟨r.rewards.val - applied.val,
        Nat.lt_of_le_of_lt (Nat.sub_le ..) r.rewards.isLt⟩
      finalization := batch.map (·.settlement)
      sharesBurned := burned
      pendingBurn := totals.pendingBurn
      feeMint
      budgetUsed := budget.used
      budgetLimit := budget.limit
      poolValue := totals.poolValue
      totalShares := totals.totalShares } }

def checkNewer (p : Pool) (r : OracleReport) : Except Fault Unit :=
  match p.lastReport with
  | some last =>
    if r.block.val ≤ last.val then .error (.staleReport r.block.val last.val) else .ok ()
  | none => .ok ()

def commit (p : Pool) (plan : ReportPlan) (queue : WithdrawalQueue) : Pool where
  policy := p.policy
  totals := plan.totals
  balances := p.balances.insertAll plan.credits.entries
  queue := queue
  registry := plan.registry
  lastReport := some plan.outcome.block

end Pool

end LiquidStaking

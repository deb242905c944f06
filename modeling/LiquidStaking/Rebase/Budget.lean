/-
The rebase budget of one report.

A budget is a fraction of the rate before the report, in billionths.  Ether that enters the
pool and shares that leave the supply both raise the rate and both consume the budget; each
is allowed only as far as the budget reaches.  A reported loss lowers the rate, and the budget
is widened by the fraction lost.

Every operation answers what it allowed together with the budget it leaves.
-/
import LiquidStaking.Rate

namespace LiquidStaking

structure RebaseBudget where
  poolBefore : Nat
  sharesBefore : Nat
  /-- The fraction of the rate before the report that may be consumed. -/
  limit : Count
  used : Count
  /-- Whether the balance change of the report has been taken into account. -/
  deltaApplied : Bool
deriving DecidableEq

namespace RebaseBudget

def start (fraction : Count) (poolBefore sharesBefore : Nat) : Except Fault RebaseBudget :=
  if fraction.val = 0 ∨ rebaseBase < fraction.val then
    .error (.invalidSetting "max_limit_fraction" (toString fraction.val) "within (0, 1e9]")
  else
    .ok ⟨poolBefore, sharesBefore, fraction, Bounded.zero, false⟩

def isExhausted (b : RebaseBudget) : Bool := b.used == b.limit

def remaining (b : RebaseBudget) : Nat := b.limit.val - b.used.val

def remainingEther (b : RebaseBudget) : Except Fault Nat :=
  mulDiv b.remaining b.poolBefore rebaseBase .down

/-- The shares that may still leave the supply.  Without `d` of `s` shares each of the others is
worth `d / (s - d)` more, so the bound solves `d / (s - d) = remaining`. -/
def remainingShares (b : RebaseBudget) : Except Fault Nat :=
  mulDiv b.sharesBefore b.remaining (rebaseBase + b.remaining) .down

def exhaust (b : RebaseBudget) : RebaseBudget := { b with used := b.limit }

def consume (b : RebaseBudget) (fraction : Nat) : RebaseBudget :=
  { b with used := ⟨min (b.used.val + fraction) b.limit.val,
      Nat.lt_of_le_of_lt (Nat.min_le_right ..) b.limit.isLt⟩ }

def appendEther (b : RebaseBudget) (amount : Nat) : Except Fault (Nat × RebaseBudget) :=
  if b.isExhausted then
    .ok (0, b)
  else if b.poolBefore = 0 then
    .error .divisionByZero
  else do
    let room ← b.remainingEther
    if room ≤ amount then
      return (room, b.exhaust)
    else
      return (amount, b.consume (← mulDiv amount rebaseBase b.poolBefore .down))

def deductShares (b : RebaseBudget) (amount : Nat) : Except Fault (Nat × RebaseBudget) :=
  if b.isExhausted then
    .ok (0, b)
  else if b.sharesBefore = 0 then
    .error .divisionByZero
  else do
    let room ← b.remainingShares
    if room ≤ amount then
      return (room, b.exhaust)
    else
      return (amount, b.consume (← mulDiv amount rebaseBase (b.sharesBefore - amount) .down))

/-- The budget widened by a fraction, at most to the whole. -/
def widen (b : RebaseBudget) (fraction : Nat) : RebaseBudget :=
  { b with limit := ⟨min (b.limit.val + fraction) rebaseBase,
      Nat.lt_of_le_of_lt (Nat.min_le_right ..) (by decide)⟩ }

/-- Take the balance change of the report into account, once and before anything else.  A gain is
ether that enters the pool; a loss widens the budget and lets nothing in. -/
def applyDelta (b : RebaseBudget) (d : Delta) : Except Fault (Nat × RebaseBudget) :=
  if b.used.val ≠ 0 ∨ b.deltaApplied then
    .error (.budgetConsumed b.used.val b.limit.val)
  else if 0 ≤ d.val then do
    let (allowed, b) ← b.appendEther d.val.natAbs
    return (allowed, { b with deltaApplied := true })
  else do
    let fraction ← mulDiv d.val.natAbs rebaseBase b.poolBefore .down
    return (0, { b.widen fraction with deltaApplied := true })

end RebaseBudget

end LiquidStaking

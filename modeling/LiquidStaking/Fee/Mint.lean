/-
The shares minted as fees.

Fees are paid in new shares.  Their number is chosen so that, at the rate after the mint, they are
worth the fee part of the rewards: with `P` pooled ether and `S` shares after the report and before
the mint, `rewards * fee * S / (P * precision - rewards * fee)`.
-/
import LiquidStaking.Fee.Split

namespace LiquidStaking

structure ModuleMint where
  moduleId : ModuleId
  recipient : Address
  shares : Amount
deriving DecidableEq

structure FeeMint where
  totalShares : Amount
  moduleShares : List ModuleMint
  treasuryShares : Amount
deriving DecidableEq

namespace FeeMint

def zero : FeeMint := ⟨Bounded.zero, [], Bounded.zero⟩

instance : Inhabited FeeMint := ⟨zero⟩

/-- The number of new shares that are worth the fee part of `rewards`. -/
def shareCount (rewards totalFee precision poolValue shares : Nat) : Except Fault Amount :=
  let fee := rewards * totalFee
  let scaled := poolValue * precision
  if productLimit ≤ fee then
    .error .overflow
  else if productLimit ≤ scaled then
    .error .overflow
  else if scaled < fee then
    .error .underflow
  else
    mulDivAmount fee shares (scaled - fee) .down

def share (total totalFee : Amount) (id : ModuleId) (recipient : Address) (fee : Amount) :
    Except Fault ModuleMint := do
  return ⟨id, recipient, ← mulDivAmount total.val fee.val totalFee.val .down⟩

def addShare (total totalFee : Amount) (acc : Amount × List ModuleMint)
    (entry : (ModuleId × Address) × Amount) : Except Fault (Amount × List ModuleMint) := do
  let part ← share total totalFee entry.1.1 entry.1.2 entry.2
  return (← acc.1.add part.shares, acc.2 ++ [part])

/-- The mint for `rewards` that came in under a split. -/
def compute (rewards : Amount) (split : FeeSplit) (poolValue shares : Amount) :
    Except Fault FeeMint :=
  if rewards.val = 0 ∨ split.totalFee.val = 0 then
    .ok zero
  else do
    let total ←
      shareCount rewards.val split.totalFee.val split.precision.val poolValue.val shares.val
    let entries := (split.moduleIds.zip split.recipients).zip split.moduleFees
    let (paid, moduleShares) ← entries.foldlM (addShare total split.totalFee) (Bounded.zero, [])
    return ⟨total, moduleShares, ← total.sub paid⟩

end FeeMint

end LiquidStaking

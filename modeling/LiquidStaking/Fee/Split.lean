/-
How rewards are split into fees.

Every module with active keys has a weight, its part of all active keys.  Its operator fee and its
treasury fee are parts of that weight, both in units of `feeBase`.  A stopped module keeps its weight
and its fees still count, but its operator is not paid; what it loses stays with the treasury.
-/
import LiquidStaking.Arithmetic
import LiquidStaking.StakingModule

namespace LiquidStaking

structure FeeSplit where
  moduleIds : List ModuleId
  recipients : List Address
  moduleFees : List Amount
  /-- All operator and treasury fees together. -/
  totalFee : Amount
  precision : Amount
deriving DecidableEq

namespace FeeSplit

def empty : FeeSplit := ⟨[], [], [], Bounded.zero, ⟨feeBase, by decide⟩⟩

def isEmpty (s : FeeSplit) : Bool := s.recipients.isEmpty

def treasuryFee (s : FeeSplit) : Except Fault Amount := do
  s.totalFee.sub (← Bounded.sum s.moduleFees)

def addModule (keys : Nat) (s : FeeSplit) (m : StakingModule) : Except Fault FeeSplit := do
  let weight ← mulDivAmount m.activeKeys.val feeBase keys .down
  let fee ← mulDivAmount weight.val m.fee.val basisPointsBase .down
  let treasuryFee ← mulDivAmount weight.val m.treasuryFee.val basisPointsBase .down
  let totalFee ← s.totalFee.add (← fee.add treasuryFee)
  return { s with
    moduleIds := s.moduleIds ++ [m.id]
    recipients := s.recipients ++ [m.address]
    moduleFees := s.moduleFees ++ [if m.status = .stopped then Bounded.zero else fee]
    totalFee }

/-- The split of rewards over modules.  Fees that reach the whole are refused. -/
def ofModules (ms : List StakingModule) : Except Fault FeeSplit := do
  let working := ms.filter (fun m => m.activeKeys.val ≠ 0)
  let keys := Bounded.total (working.map (·.activeKeys))
  let split ← working.foldlM (addModule keys) empty
  if split.precision.val ≤ split.totalFee.val then
    throw (.feeExceedsTotal split.totalFee.val split.precision.val)
  else
    return split

end FeeSplit

end LiquidStaking

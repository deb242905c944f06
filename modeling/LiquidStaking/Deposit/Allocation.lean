/-
Spreading new validator deposits over modules.

The level of a module is the number of its active keys.  Its capacity is its target share of
all keys after the deposits, and never more than the keys it has; a module that takes no deposits
stays where it is.
-/
import LiquidStaking.Arithmetic
import LiquidStaking.Deposit.Levelling
import LiquidStaking.StakingModule

namespace LiquidStaking

structure DepositAllocation where
  allocated : Nat
  moduleIds : List ModuleId
  /-- The active keys of each module after the deposits. -/
  counts : List Nat
  deposits : List Nat
deriving DecidableEq

namespace DepositAllocation

def depositsFor (a : DepositAllocation) (id : ModuleId) : Except Fault Nat :=
  match (a.moduleIds.zip a.deposits).lookup id with
  | some n => .ok n
  | none => .error (.unknownModule id.val)

end DepositAllocation

namespace StakingModule

def capacity (m : StakingModule) (projected : Count) : Except Fault Count :=
  if m.acceptsDeposits then do
    let share ← mulDivAmount m.target.val projected.val basisPointsBase .down
    Bounded.narrow (min share.val (m.activeKeys.val + m.availableKeys.val))
  else
    .ok m.activeKeys

end StakingModule

def allocateDeposits (ms : List StakingModule) (deposits : Count) :
    Except Fault DepositAllocation := do
  let counts := ms.map (·.activeKeys)
  let projected ← (← Bounded.sum counts).add deposits
  let capacities ← ms.mapM (·.capacity projected)
  let (allocated, levels) ←
    Levelling.allocate (counts.map (·.val)) (capacities.map (·.val)) deposits.val
  return {
    allocated
    moduleIds := ms.map (·.id)
    counts := levels
    deposits := List.zipWith (fun after (before : Count) => after - before.val) levels counts }

/-- The deposits one module may take when `value` ether is spread over all of them. -/
def maxDepositsFor (ms : List StakingModule) (id : ModuleId) (value depositSize : Amount) :
    Except Fault Nat :=
  if ms.any (fun m => m.id == id) then do
    let deposits ← value.div depositSize
    (← allocateDeposits ms (Bounded.clamp deposits.val)).depositsFor id
  else
    .error (.unknownModule id.val)

end LiquidStaking

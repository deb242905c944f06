/-
What modules are charged of their rewards.

A module's charge is three floors deep: its part of the keys, then its operator's and the treasury's
parts of that.  Each floor gives up less than one unit, so a charge is never above the exact fee and
less than three units below it.  The charges together reach the whole only when no module gives up
anything at all, and every module charges everything.
-/
import LiquidStaking.Fee.Split
import LiquidStaking.Proofs.Arithmetic
import Mathlib.Algebra.BigOperators.Ring.List
import Mathlib.Algebra.Group.Action.Defs
import Mathlib.Algebra.Order.BigOperators.Group.List
import Mathlib.Algebra.Order.Ring.Nat

namespace LiquidStaking

theorem Bounded.total_eq_sum {bits : Nat} (xs : List (Bounded bits)) :
    total xs = (xs.map (·.val)).sum := by
  induction xs with
  | nil => rfl
  | cons a xs ih => rw [total_cons, ih, List.map_cons, List.sum_cons]

namespace FeeSplit

/-- The active keys of modules together. -/
def keysOf (ms : List StakingModule) : Nat := Bounded.total (ms.map (·.activeKeys))

/-- A module's part of all active keys. -/
def weight (keys : Nat) (m : StakingModule) : Nat := m.activeKeys.val * feeBase / keys

/-- What a fee of `points` comes to for a module. -/
def part (keys : Nat) (m : StakingModule) (points : BasisPoints) : Nat :=
  weight keys m * points.val / basisPointsBase

/-- What a module is charged for its operator and for the treasury. -/
def charge (keys : Nat) (m : StakingModule) : Nat := part keys m m.fee + part keys m m.treasuryFee

/-- What of its charge a module's operator is paid. -/
def paid (keys : Nat) (m : StakingModule) : Nat :=
  if m.status = .stopped then 0 else part keys m m.fee

/-- The fee of a module without rounding, in units of one in `keys * basisPointsBase`. -/
def exactFee (m : StakingModule) : Nat :=
  m.activeKeys.val * feeBase * (m.fee.val + m.treasuryFee.val)

variable {keys : Nat} {m : StakingModule}

theorem paid_le_charge (keys : Nat) (m : StakingModule) : paid keys m ≤ charge keys m := by
  unfold paid charge
  split
  · exact Nat.zero_le _
  · exact Nat.le_add_right _ _

theorem part_mul_le (keys : Nat) (m : StakingModule) (points : BasisPoints) :
    part keys m points * basisPointsBase ≤ weight keys m * points.val := Nat.div_mul_le_self _ _

theorem lt_part_mul (keys : Nat) (m : StakingModule) (points : BasisPoints) :
    weight keys m * points.val < (part keys m points + 1) * basisPointsBase :=
  Nat.lt_mul_of_div_lt (Nat.lt_succ_self _) (by decide)

theorem charge_mul_le (keys : Nat) (m : StakingModule) :
    charge keys m * basisPointsBase ≤ weight keys m * (m.fee.val + m.treasuryFee.val) := by
  rw [charge, Nat.add_mul, Nat.mul_add]
  exact Nat.add_le_add (part_mul_le keys m m.fee) (part_mul_le keys m m.treasuryFee)

theorem lt_charge_mul (keys : Nat) (m : StakingModule) :
    weight keys m * (m.fee.val + m.treasuryFee.val) < (charge keys m + 2) * basisPointsBase := by
  have hsplit : charge keys m + 2 = part keys m m.fee + 1 + (part keys m m.treasuryFee + 1) := by
    unfold charge
    omega
  rw [hsplit, Nat.add_mul, Nat.mul_add]
  exact Nat.add_lt_add (lt_part_mul keys m m.fee) (lt_part_mul keys m m.treasuryFee)

theorem charge_le_exactFee (keys : Nat) (m : StakingModule) :
    charge keys m * (keys * basisPointsBase) ≤ exactFee m := by
  have hweight : weight keys m * keys ≤ m.activeKeys.val * feeBase := Nat.div_mul_le_self _ _
  calc charge keys m * (keys * basisPointsBase)
    _ = charge keys m * basisPointsBase * keys := by rw [Nat.mul_comm keys, Nat.mul_assoc]
    _ ≤ weight keys m * (m.fee.val + m.treasuryFee.val) * keys :=
      Nat.mul_le_mul_right _ (charge_mul_le keys m)
    _ = weight keys m * keys * (m.fee.val + m.treasuryFee.val) := Nat.mul_right_comm _ _ _
    _ ≤ exactFee m := Nat.mul_le_mul_right _ hweight

theorem exactFee_lt (hkeys : keys ≠ 0) (hm : m.fee.val + m.treasuryFee.val ≤ basisPointsBase) :
    exactFee m < (charge keys m + 3) * (keys * basisPointsBase) := by
  have hpos : 0 < keys := Nat.pos_of_ne_zero hkeys
  have hweight : m.activeKeys.val * feeBase ≤ (weight keys m + 1) * keys :=
    Nat.le_of_lt (Nat.lt_mul_of_div_lt (Nat.lt_succ_self _) hpos)
  have hrounded : (weight keys m + 1) * (m.fee.val + m.treasuryFee.val) <
      (charge keys m + 3) * basisPointsBase := by
    have hcharge := lt_charge_mul keys m
    rw [Nat.succ_mul, Nat.succ_mul (charge keys m + 2)]
    omega
  calc exactFee m
    _ ≤ (weight keys m + 1) * keys * (m.fee.val + m.treasuryFee.val) :=
      Nat.mul_le_mul_right _ hweight
    _ = (weight keys m + 1) * (m.fee.val + m.treasuryFee.val) * keys := Nat.mul_right_comm _ _ _
    _ < (charge keys m + 3) * basisPointsBase * keys := Nat.mul_lt_mul_of_pos_right hrounded hpos
    _ = (charge keys m + 3) * (keys * basisPointsBase) := by
      rw [Nat.mul_comm keys, Nat.mul_assoc]

/- The charges of a list of modules together. -/

variable {ms : List StakingModule}

theorem sum_paid_le (keys : Nat) (ms : List StakingModule) :
    (ms.map (paid keys)).sum ≤ (ms.map (charge keys)).sum :=
  List.sum_le_sum (fun m _ => paid_le_charge keys m)

theorem sum_charge_le_exactFee (keys : Nat) (ms : List StakingModule) :
    (ms.map (charge keys)).sum * (keys * basisPointsBase) ≤ (ms.map exactFee).sum := by
  rw [← List.sum_map_mul_right]
  exact List.sum_le_sum (fun m _ => charge_le_exactFee keys m)

theorem sum_exactFee_lt (hkeys : keys ≠ 0) (hne : ms ≠ [])
    (hms : ∀ m ∈ ms, m.fee.val + m.treasuryFee.val ≤ basisPointsBase) :
    (ms.map exactFee).sum <
      ((ms.map (charge keys)).sum + 3 * ms.length) * (keys * basisPointsBase) := by
  have hdust : (ms.map (fun m => charge keys m + 3)).sum =
      (ms.map (charge keys)).sum + 3 * ms.length := by
    rw [List.sum_map_add, List.map_const', List.sum_replicate, smul_eq_mul, Nat.mul_comm]
  rw [← hdust, ← List.sum_map_mul_right]
  exact List.sum_lt_sum_of_ne_nil hne _ _ (fun m hm => exactFee_lt hkeys (hms m hm))

/-- The fee of a module that charges everything. -/
def fullFee (m : StakingModule) : Nat := m.activeKeys.val * feeBase * basisPointsBase

theorem exactFee_le (hm : m.fee.val + m.treasuryFee.val ≤ basisPointsBase) :
    exactFee m ≤ fullFee m := Nat.mul_le_mul_left _ hm

theorem sum_fullFee (ms : List StakingModule) :
    (ms.map fullFee).sum = keysOf ms * (feeBase * basisPointsBase) := by
  have hkeys : keysOf ms = (ms.map (fun m => m.activeKeys.val)).sum := by
    rw [keysOf, Bounded.total_eq_sum, List.map_map]
    rfl
  have hfull : fullFee = fun m => m.activeKeys.val * (feeBase * basisPointsBase) := by
    funext m
    exact Nat.mul_assoc _ _ _
  rw [hkeys, hfull, List.sum_map_mul_right]

theorem sum_exactFee_le (hms : ∀ m ∈ ms, m.fee.val + m.treasuryFee.val ≤ basisPointsBase) :
    (ms.map exactFee).sum ≤ feeBase * (keysOf ms * basisPointsBase) :=
  calc (ms.map exactFee).sum
    _ ≤ (ms.map fullFee).sum := List.sum_le_sum (fun m hm => exactFee_le (hms m hm))
    _ = keysOf ms * (feeBase * basisPointsBase) := sum_fullFee ms
    _ = feeBase * (keysOf ms * basisPointsBase) := Nat.mul_left_comm _ _ _

/-- Exact fees that reach the whole leave no module with a fee below it. -/
theorem fees_eq_of_le_sum (hms : ∀ m ∈ ms, m.fee.val + m.treasuryFee.val ≤ basisPointsBase)
    (hwhole : feeBase * (keysOf ms * basisPointsBase) ≤ (ms.map exactFee).sum) :
    ∀ m ∈ ms, m.activeKeys.val ≠ 0 → m.fee.val + m.treasuryFee.val = basisPointsBase := by
  intro m hm hkeys
  by_contra hne
  have hlt : m.fee.val + m.treasuryFee.val < basisPointsBase := Nat.lt_of_le_of_ne (hms m hm) hne
  have hpos : 0 < m.activeKeys.val * feeBase :=
    Nat.mul_pos (Nat.pos_of_ne_zero hkeys) (by decide)
  have hless : exactFee m < fullFee m := Nat.mul_lt_mul_of_pos_left hlt hpos
  have hsum : (ms.map exactFee).sum < (ms.map fullFee).sum :=
    List.sum_lt_sum _ _ (fun x hx => exactFee_le (hms x hx)) ⟨m, hm, hless⟩
  rw [sum_fullFee, Nat.mul_left_comm] at hsum
  exact Nat.not_le.2 hsum hwhole

theorem sum_charge_le (hkeys : keysOf ms ≠ 0)
    (hms : ∀ m ∈ ms, m.fee.val + m.treasuryFee.val ≤ basisPointsBase) :
    (ms.map (charge (keysOf ms))).sum ≤ feeBase := by
  have hpos : 0 < keysOf ms * basisPointsBase :=
    Nat.mul_pos (Nat.pos_of_ne_zero hkeys) (by decide)
  exact Nat.le_of_mul_le_mul_right
    (Nat.le_trans (sum_charge_le_exactFee _ _) (sum_exactFee_le hms)) hpos

/-- Charges that reach the whole leave no module with a fee below it. -/
theorem fees_eq_of_le_sum_charge
    (hms : ∀ m ∈ ms, m.fee.val + m.treasuryFee.val ≤ basisPointsBase)
    (hwhole : feeBase ≤ (ms.map (charge (keysOf ms))).sum) :
    ∀ m ∈ ms, m.activeKeys.val ≠ 0 → m.fee.val + m.treasuryFee.val = basisPointsBase :=
  fees_eq_of_le_sum hms
    (Nat.le_trans (Nat.mul_le_mul_right _ hwhole) (sum_charge_le_exactFee _ _))

end FeeSplit
end LiquidStaking

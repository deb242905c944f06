/-
Grants as the changes that were made of them.

For an account and a role the last change decides, and a permit is good for a role while its holder
has it.
-/
import LiquidStaking.Access
import LiquidStaking.Proofs.Outcome

namespace LiquidStaking

/-- A change of the grants: a role that an account is granted, or that it loses. -/
structure Regrant where
  account : Address
  role : Role
  granted : Bool
deriving DecidableEq

namespace Regrant

def concerns (account : Address) (role : Role) (g : Regrant) : Bool :=
  (g.account, g.role) == (account, role)

/-- The last of some changes that is about an account and a role. -/
def last? (account : Address) (role : Role) (gs : List Regrant) : Option Regrant :=
  (gs.filter (concerns account role)).getLast?

theorem concerns_iff {account : Address} {role : Role} {g : Regrant} :
    g.concerns account role = true ↔ g.account = account ∧ g.role = role := by
  rw [concerns, beq_iff_eq, Prod.mk.injEq]

end Regrant

namespace Access

variable {a : Access}

/-- Whether a permit is for a role, and its holder has that role. -/
def Honours (a : Access) (permit : Permit) (role : Role) : Prop :=
  permit.role = role ∧ a.hasRole permit.holder role = true

instance (a : Access) (permit : Permit) (role : Role) : Decidable (a.Honours permit role) :=
  inferInstanceAs (Decidable (_ ∧ _))

theorem verify_of_honours {permit : Permit} {role : Role} (h : a.Honours permit role) :
    a.verify permit role = .ok () := by
  unfold verify require
  rw [if_pos h.1, if_pos h.2]
  rfl

theorem verify_of_not_honours {permit : Permit} {role : Role} (h : ¬ a.Honours permit role) :
    a.verify permit role = .error (lacks permit.holder role) := by
  unfold verify require
  by_cases hrole : permit.role = role
  · rw [if_pos hrole, if_neg (fun hheld => h ⟨hrole, hheld⟩)]
    rfl
  · rw [if_neg hrole]
    rfl

def regrant (a : Access) (g : Regrant) : Access :=
  if g.granted then a.add g.account g.role else a.remove g.account g.role

theorem hasRole_add_eq (a : Access) (account account' : Address) (role role' : Role) :
    (a.add account' role').hasRole account role =
      ((account', role') == (account, role) || a.hasRole account role) := by
  unfold add
  split
  · next h =>
    by_cases heq : (account', role') = (account, role)
    · obtain ⟨rfl, rfl⟩ := Prod.mk.inj heq
      rw [h, Bool.or_true]
    · rw [beq_eq_false_iff_ne.2 heq, Bool.false_or]
  · show ((account', role') :: a.grants).contains (account, role) = _
    rw [List.contains_cons, BEq.comm]
    rfl

theorem hasRole_remove (a : Access) (account account' : Address) (role role' : Role) :
    (a.remove account' role').hasRole account role =
      (!((account', role') == (account, role)) && a.hasRole account role) := by
  rw [Bool.eq_iff_iff]
  simp only [remove, hasRole, List.contains_iff_mem, List.mem_filter, Bool.and_eq_true,
    Bool.not_eq_true', bne_iff_ne, beq_eq_false_iff_ne]
  exact ⟨fun h => ⟨fun heq => h.2 heq.symm, h.1⟩, fun h => ⟨h.2, fun heq => h.1 heq.symm⟩⟩

/-- A change decides about what it concerns, and leaves the rest. -/
theorem hasRole_regrant (a : Access) (g : Regrant) (account : Address) (role : Role) :
    (a.regrant g).hasRole account role =
      if g.concerns account role then g.granted else a.hasRole account role := by
  unfold regrant Regrant.concerns
  cases g.granted with
  | true =>
    rw [if_pos rfl, hasRole_add_eq]
    cases (g.account, g.role) == (account, role) <;> rfl
  | false =>
    rw [if_neg (by decide), hasRole_remove]
    cases (g.account, g.role) == (account, role) <;> rfl

/-- After some changes the last one decides. -/
theorem hasRole_foldl_regrant (gs : List Regrant) (a : Access) (account : Address) (role : Role) :
    (gs.foldl regrant a).hasRole account role =
      ((Regrant.last? account role gs).map (·.granted)).getD (a.hasRole account role) := by
  induction gs generalizing a with
  | nil => rfl
  | cons g gs ih =>
    rw [List.foldl_cons, ih, hasRole_regrant]
    unfold Regrant.last?
    by_cases h : g.concerns account role = true
    · rw [if_pos h, List.filter_cons_of_pos h, List.getLast?_cons]
      cases (gs.filter (Regrant.concerns account role)).getLast? <;> rfl
    · rw [if_neg h, List.filter_cons_of_neg h]

end Access

end LiquidStaking

/-
Checked arithmetic.

Sums, differences and products of stored values are refused when the exact
result does not fit.  `mulDiv` multiplies first and divides afterwards; its
intermediate product may use 256 bits and no more.
-/
import LiquidStaking.Bounded
import LiquidStaking.Fault

namespace LiquidStaking

namespace Bounded

variable {bits : Nat}

def fit (fault : Fault) (n : Nat) : Except Fault (Bounded bits) :=
  match ofNat? n with
  | some a => .ok a
  | none => .error fault

def narrow (n : Nat) : Except Fault (Bounded bits) := fit .conversion n

def add (a b : Bounded bits) : Except Fault (Bounded bits) := fit .overflow (a.val + b.val)

def sub (a b : Bounded bits) : Except Fault (Bounded bits) :=
  if b.val ≤ a.val then
    .ok ⟨a.val - b.val, Nat.lt_of_le_of_lt (Nat.sub_le ..) a.isLt⟩
  else
    .error .underflow

def mul (a b : Bounded bits) : Except Fault (Bounded bits) := fit .overflow (a.val * b.val)

def div (a b : Bounded bits) : Except Fault (Bounded bits) :=
  if b.val = 0 then
    .error .divisionByZero
  else
    .ok ⟨a.val / b.val, Nat.lt_of_le_of_lt (Nat.div_le_self ..) a.isLt⟩

/-- The numbers of a list together, whatever their sum. -/
def total : List (Bounded bits) → Nat
  | [] => 0
  | a :: r => a.val + total r

def sum (xs : List (Bounded bits)) : Except Fault (Bounded bits) :=
  xs.foldlM add zero

theorem fit_eq_ok_iff {fault : Fault} {n : Nat} {a : Bounded bits} :
    fit fault n = .ok a ↔ n = a.val := by
  unfold fit
  cases h : (ofNat? n : Option (Bounded bits)) with
  | some b =>
    have hb := ofNat?_eq_some_iff.1 h
    constructor
    · intro e
      cases e
      exact hb
    · intro e
      exact congrArg _ (ext (hb.symm.trans e))
  | none =>
    constructor
    · intro e
      cases e
    · intro e
      rw [ofNat?_eq_some_iff.2 e] at h
      cases h

theorem add_eq_ok_iff {a b c : Bounded bits} : add a b = .ok c ↔ a.val + b.val = c.val :=
  fit_eq_ok_iff

theorem mul_eq_ok_iff {a b c : Bounded bits} : mul a b = .ok c ↔ a.val * b.val = c.val :=
  fit_eq_ok_iff

theorem sub_eq_ok_iff {a b c : Bounded bits} : sub a b = .ok c ↔ a.val = c.val + b.val := by
  unfold sub
  split
  · next h =>
    constructor
    · intro e
      cases e
      exact (Nat.sub_add_cancel h).symm
    · intro e
      refine congrArg _ (ext ?_)
      show a.val - b.val = c.val
      omega
  · next h =>
    constructor
    · intro e
      cases e
    · intro e
      omega

end Bounded

/-- The number after `n`; counting halts at the end of the width. -/
def Bounded.next {bits : Nat} (n : Bounded bits) : Except Failure (Bounded bits) :=
  match Bounded.ofNat? (n.val + 1) with
  | some m => .ok m
  | none => .error .halted

namespace Delta

def fit (fault : Fault) (i : Int) : Except Fault Delta :=
  match ofInt? i with
  | some d => .ok d
  | none => .error fault

theorem fit_eq_ok_iff {fault : Fault} {i : Int} {d : Delta} : fit fault i = .ok d ↔ i = d.val := by
  unfold fit
  cases h : ofInt? i with
  | some b =>
    have hb := ofInt?_eq_some_iff.1 h
    constructor
    · intro e
      cases e
      exact hb
    · intro e
      exact congrArg _ (ext (hb.symm.trans e))
  | none =>
    constructor
    · intro e
      cases e
    · intro e
      rw [ofInt?_eq_some_iff.2 e] at h
      cases h

end Delta

def Amount.applyDelta (a : Amount) (d : Delta) : Except Fault Amount :=
  if 0 ≤ d.val then
    Bounded.fit .overflow (a.val + d.val.natAbs)
  else if d.val.natAbs ≤ a.val then
    .ok ⟨a.val - d.val.natAbs, Nat.lt_of_le_of_lt (Nat.sub_le ..) a.isLt⟩
  else
    .error .underflow

inductive Rounding
  | down
  | up
deriving DecidableEq

/-- The least intermediate product that is too wide. -/
def productLimit : Nat := Bounded.bound 256

/-- The product `a * b` divided by `d`.  A divisor of zero is refused before a product that is
too wide.  Rounding up cannot leave the width, since a quotient with a remainder has a divisor of
at least two. -/
def mulDiv (a b d : Nat) (rounding : Rounding) : Except Fault Nat :=
  if d = 0 then
    .error .divisionByZero
  else if productLimit ≤ a * b then
    .error .productOverflow
  else if rounding = .up ∧ a * b % d ≠ 0 then
    .ok (a * b / d + 1)
  else
    .ok (a * b / d)

def mulDivAmount (a b d : Nat) (rounding : Rounding) : Except Fault Amount := do
  Bounded.narrow (← mulDiv a b d rounding)

theorem mulDiv_down_eq_ok_iff {a b d q : Nat} :
    mulDiv a b d .down = .ok q ↔ d ≠ 0 ∧ a * b < productLimit ∧ q = a * b / d := by
  unfold mulDiv
  by_cases hd : d = 0
  · simp [hd]
  · by_cases hp : productLimit ≤ a * b
    · have : ¬ a * b < productLimit := Nat.not_lt.2 hp
      simp [hd, hp, this]
    · have : a * b < productLimit := Nat.not_le.1 hp
      simp [hd, hp, this, eq_comm]

end LiquidStaking

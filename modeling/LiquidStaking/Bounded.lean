/-
Natural numbers of a fixed width.

Every quantity the pool stores has a width: ether and shares have 128 bits,
counts of keys, blocks and requests 64, module identifiers 32, basis points 16.
A `Bounded bits` carries the proof that it fits, so a stored value never has to
be checked again.  Nothing here wraps: `ofNat?` refuses what does not fit.
-/

namespace LiquidStaking

/-- The least number that needs more than `bits` binary digits. -/
def Bounded.bound (bits : Nat) : Nat := Nat.pow 2 bits

/-- A natural number of at most `bits` binary digits. -/
structure Bounded (bits : Nat) where
  val : Nat
  isLt : val < Bounded.bound bits
deriving DecidableEq

/-- An amount of ether in wei, or of shares. -/
abbrev Amount := Bounded 128

/-- A count of keys, a block number or the number of a request. -/
abbrev Count := Bounded 64

abbrev ModuleId := Bounded 32

/-- A share of a whole in units of one ten-thousandth. -/
abbrev BasisPoints := Bounded 16

namespace Bounded

variable {bits : Nat}

instance : CoeOut (Bounded bits) Nat := ⟨Bounded.val⟩

@[ext] theorem ext {a b : Bounded bits} (h : a.val = b.val) : a = b := by
  cases a
  cases b
  cases h
  rfl

theorem val_inj {a b : Bounded bits} : a.val = b.val ↔ a = b :=
  ⟨ext, fun h => h ▸ rfl⟩

theorem bound_pos (bits : Nat) : 0 < bound bits := Nat.pow_pos (by decide)

def zero : Bounded bits := ⟨0, bound_pos bits⟩

instance : Inhabited (Bounded bits) := ⟨zero⟩

@[simp] theorem val_zero : (zero : Bounded bits).val = 0 := rfl

def ofNat? (n : Nat) : Option (Bounded bits) :=
  if h : n < bound bits then some ⟨n, h⟩ else none

theorem ofNat?_eq_some_iff {n : Nat} {a : Bounded bits} :
    ofNat? n = some a ↔ n = a.val := by
  unfold ofNat?
  split
  · next h =>
    constructor
    · intro e
      cases e
      rfl
    · intro e
      cases e
      rfl
  · next h =>
    constructor
    · intro e
      cases e
    · intro e
      exact absurd (e ▸ a.isLt) h

theorem ofNat?_eq_none_iff {n : Nat} :
    (ofNat? n : Option (Bounded bits)) = none ↔ bound bits ≤ n := by
  unfold ofNat?
  split
  · next h =>
    constructor
    · intro e
      cases e
    · intro e
      exact absurd h (Nat.not_lt.2 e)
  · next h => exact ⟨fun _ => Nat.not_lt.1 h, fun _ => rfl⟩

@[simp] theorem ofNat?_val (a : Bounded bits) : ofNat? a.val = some a :=
  ofNat?_eq_some_iff.2 rfl

/-- The number `n`, or the greatest number of the width if `n` is above it. -/
def clamp (n : Nat) : Bounded bits :=
  ⟨min n (bound bits - 1), by
    have := bound_pos bits
    omega⟩

@[simp] theorem val_clamp (n : Nat) : (clamp n : Bounded bits).val = min n (bound bits - 1) := rfl

end Bounded

/-- A signed change of a balance: an integer of 128 bits, one of which is the sign. -/
structure Delta where
  val : Int
  lower : -(Bounded.bound 127 : Int) ≤ val
  upper : val < (Bounded.bound 127 : Int)
deriving DecidableEq

namespace Delta

@[ext] theorem ext {a b : Delta} (h : a.val = b.val) : a = b := by
  cases a
  cases b
  cases h
  rfl

def zero : Delta := ⟨0, by decide, by decide⟩

instance : Inhabited Delta := ⟨zero⟩

def ofInt? (i : Int) : Option Delta :=
  if h : -(Bounded.bound 127 : Int) ≤ i ∧ i < (Bounded.bound 127 : Int) then
    some ⟨i, h.1, h.2⟩
  else
    none

@[simp] theorem ofInt?_val (d : Delta) : ofInt? d.val = some d :=
  dif_pos ⟨d.lower, d.upper⟩

theorem ofInt?_eq_some_iff {i : Int} {d : Delta} : ofInt? i = some d ↔ i = d.val := by
  unfold ofInt?
  split
  · next h =>
    constructor
    · intro e
      cases e
      rfl
    · intro e
      cases e
      rfl
  · next h =>
    constructor
    · intro e
      cases e
    · intro e
      exact absurd (e ▸ ⟨d.lower, d.upper⟩) h

end Delta

end LiquidStaking

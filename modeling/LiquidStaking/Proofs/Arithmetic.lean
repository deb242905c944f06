/-
When checked arithmetic answers, and what.

Each lemma reads a checked operation back as an equation between natural numbers or integers.
-/
import LiquidStaking.Arithmetic
import LiquidStaking.Proofs.Outcome

namespace LiquidStaking

namespace Bounded

variable {bits : Nat}

@[simp] theorem total_nil : total ([] : List (Bounded bits)) = 0 := rfl

@[simp] theorem total_cons (a : Bounded bits) (xs : List (Bounded bits)) :
    total (a :: xs) = a.val + total xs := rfl

@[simp] theorem total_append (xs ys : List (Bounded bits)) :
    total (xs ++ ys) = total xs + total ys := by
  induction xs with
  | nil => simp
  | cons a xs ih => simp only [List.cons_append, total_cons, ih, Nat.add_assoc]

theorem total_le (xs : List (Bounded bits)) : total xs ≤ xs.length * bound bits := by
  induction xs with
  | nil => simp
  | cons a xs ih =>
    have ha := a.isLt
    rw [total_cons, List.length_cons, Nat.succ_mul]
    omega

theorem total_set {xs : List (Bounded bits)} {i : Nat} {a : Bounded bits} (h : xs[i]? = some a)
    (b : Bounded bits) : total (xs.set i b) + a.val = total xs + b.val := by
  induction xs generalizing i with
  | nil => simp at h
  | cons x xs ih =>
    cases i with
    | zero =>
      obtain rfl : x = a := by simpa using h
      simp only [List.set_cons_zero, total_cons]
      omega
    | succ i =>
      have ih := ih (i := i) (by simpa using h)
      simp only [List.set_cons_succ, total_cons]
      omega

theorem sum_eq_ok {xs : List (Bounded bits)} {a : Bounded bits} (h : total xs = a.val) :
    sum xs = .ok a := by
  have hfold : ∀ (xs : List (Bounded bits)) (acc : Bounded bits), acc.val + total xs = a.val →
      xs.foldlM Bounded.add acc = .ok a := by
    intro xs
    induction xs with
    | nil =>
      intro acc h
      rw [List.foldlM_nil, pure_eq_ok]
      exact Bounded.ext h
    | cons x xs ih =>
      intro acc h
      rw [total_cons] at h
      have hlt : acc.val + x.val < bound bits := Nat.lt_of_le_of_lt (by omega) a.isLt
      have hadd : acc.add x = .ok ⟨acc.val + x.val, hlt⟩ := add_eq_ok_iff.2 rfl
      rw [List.foldlM_cons, hadd]
      refine ih _ ?_
      show acc.val + x.val + total xs = a.val
      omega
  exact hfold xs zero (h ▸ Nat.zero_add _)

theorem fit_eq_error {n : Nat} (fault : Fault) (h : bound bits ≤ n) :
    (fit fault n : Except Fault (Bounded bits)) = .error fault := by
  rw [fit, ofNat?_eq_none_iff.2 h]

theorem add_eq_error {a b : Bounded bits} (h : bound bits ≤ a.val + b.val) :
    a.add b = .error .overflow := fit_eq_error .overflow h

/-- A sum that does not fit is refused as an overflow, wherever it leaves the width. -/
theorem sum_eq_error {xs : List (Bounded bits)} (h : bound bits ≤ total xs) :
    sum xs = .error .overflow := by
  -- The sum so far still fits: what leaves the width is it together with the rest.
  have hfold : ∀ (xs : List (Bounded bits)) (acc : Bounded bits), bound bits ≤ acc.val + total xs →
      xs.foldlM Bounded.add acc = .error .overflow := by
    intro xs
    induction xs with
    | nil =>
      intro acc h
      have hlt := acc.isLt
      rw [total_nil] at h
      omega
    | cons x xs ih =>
      intro acc h
      rw [total_cons] at h
      rw [List.foldlM_cons]
      by_cases hfit : acc.val + x.val < bound bits
      · have hadd : acc.add x = .ok ⟨acc.val + x.val, hfit⟩ := add_eq_ok_iff.2 rfl
        rw [hadd]
        refine ih _ ?_
        show bound bits ≤ acc.val + x.val + total xs
        omega
      · rw [add_eq_error (Nat.le_of_not_lt hfit)]
        rfl
  exact hfold xs zero (Nat.le_trans h (Nat.le_add_left _ _))

/-- A numeral that does not fit stands for the greatest number of the width. -/
instance (n : Nat) : OfNat (Bounded bits) n := ⟨clamp n⟩

theorem exists_val {n : Nat} (h : n < bound bits) : ∃ a : Bounded bits, a.val = n := ⟨⟨n, h⟩, rfl⟩

theorem narrow_eq_ok_iff {n : Nat} {a : Bounded bits} : narrow n = .ok a ↔ n = a.val :=
  fit_eq_ok_iff

theorem next_eq_ok {n : Bounded bits} (h : n.val + 1 < bound bits) :
    n.next = .ok ⟨n.val + 1, h⟩ := by
  have e : (ofNat? (n.val + 1) : Option (Bounded bits)) = some ⟨n.val + 1, h⟩ :=
    ofNat?_eq_some_iff.2 rfl
  rw [next, e]

theorem next_eq_ok_iff {n m : Bounded bits} : n.next = .ok m ↔ n.val + 1 = m.val := by
  constructor
  · intro h
    unfold next at h
    split at h
    · next e =>
      cases h
      exact ofNat?_eq_some_iff.1 e
    · cases h
  · intro h
    rw [next_eq_ok (h ▸ m.isLt)]
    exact congrArg _ (ext h)

end Bounded

/-- What is computed without a check, and from what.  It halts where there is no outcome. -/
inductive Unchecked
  /-- A number that has to fit a width. -/
  | sum (bits n : Nat)
  | difference (a b : Nat)
  | quotient (divisor : Nat)
  | entry (index length : Nat)

def Unchecked.Fits : Unchecked → Prop
  | sum bits n => n < Bounded.bound bits
  | difference a b => b ≤ a
  | quotient divisor => divisor ≠ 0
  | entry index length => index < length

/-- The change by `i`, none if `i` does not fit. -/
def Delta.ofInt (i : Int) : Delta := (Delta.ofInt? i).getD Delta.zero

theorem Amount.applyDelta_eq_ok {a b : Amount} {d : Delta} (h : a.applyDelta d = .ok b) :
    (a.val : Int) + d.val = b.val := by
  unfold Amount.applyDelta at h
  split at h
  · next hd =>
    have := Bounded.fit_eq_ok_iff.1 h
    omega
  · next hd =>
    split at h
    · next hle =>
      cases h
      show (a.val : Int) + d.val = ((a.val - d.val.natAbs : Nat) : Int)
      omega
    · cases h

theorem mulDivAmount_down_eq_ok_iff {a b d : Nat} {q : Amount} :
    mulDivAmount a b d .down = .ok q ↔ d ≠ 0 ∧ a * b < productLimit ∧ q.val = a * b / d := by
  simp only [mulDivAmount, bind_eq_ok, mulDiv_down_eq_ok_iff, Bounded.narrow_eq_ok_iff]
  constructor
  · rintro ⟨n, ⟨hd, hp, hn⟩, hq⟩
    exact ⟨hd, hp, hq.symm.trans hn⟩
  · rintro ⟨hd, hp, hq⟩
    exact ⟨q.val, ⟨hd, hp, hq⟩, rfl⟩

theorem Amount.mul_lt_productLimit (a b : Amount) : a.val * b.val < productLimit :=
  calc a.val * b.val
    _ < Bounded.bound 128 * Bounded.bound 128 := Nat.mul_lt_mul'' a.isLt b.isLt
    _ = productLimit := by decide

/- What checked arithmetic fails with, and when. -/

section

variable {bits : Nat} {P : Fault → Prop}

theorem Bounded.fit_fails {fault : Fault} (h : P fault) (n : Nat) :
    FailsOnly P (fit fault n : Except Fault (Bounded bits)) := by
  unfold fit
  cases (ofNat? n : Option (Bounded bits)) with
  | some a => exact .ok a
  | none => exact .error h

theorem Bounded.sub_fails {a b : Bounded bits} (h : a.val < b.val → P .underflow) :
    FailsOnly P (a.sub b) := by
  unfold sub
  split
  · exact .ok _
  · next hlt => exact .error (h (Nat.not_le.1 hlt))

theorem mulDiv_fails {a b d : Nat} {rounding : Rounding} (hzero : d = 0 → P .divisionByZero)
    (hwide : P .productOverflow) : FailsOnly P (mulDiv a b d rounding) := by
  unfold mulDiv
  split
  · next hd => exact .error (hzero hd)
  · split
    · exact .error hwide
    · split
      · exact .ok _
      · exact .ok _

theorem mulDivAmount_fails {a b d : Nat} {rounding : Rounding} (hzero : d = 0 → P .divisionByZero)
    (hwide : P .productOverflow) (hnarrow : P .conversion) :
    FailsOnly P (mulDivAmount a b d rounding) :=
  (mulDiv_fails hzero hwide).bind (fun n _ => Bounded.fit_fails hnarrow n)

end

end LiquidStaking

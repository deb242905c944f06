/-
Digits there and back.

What is written in base ten reads as the same number, has no leading zero, and holds nothing but
digits.  In base sixteen each digit is read by its place.
-/
import LiquidStaking.Text.Digits

namespace LiquidStaking
namespace Text

theorem hexValue?_hexDigit {n : Nat} (h : n < 16) : hexValue? (hexDigit n) = some n := by
  have hall : ∀ n, n < 16 → hexValue? (hexDigit n) = some n := by decide
  exact hall n h

/-- A digit is an ASCII character, and its value is below the base. -/
theorem bounds_of_hexValue? {c : Char} {n : Nat} (h : hexValue? c = some n) :
    c.toNat < 128 ∧ n < 16 := by
  simp only [hexValue?] at h
  split at h
  · cases h
    omega
  · split at h
    · cases h
      omega
    · split at h
      · cases h
        omega
      · cases h

theorem digitValue?_sixteen (c : Char) : digitValue? 16 c = hexValue? c := by
  unfold digitValue?
  cases h : hexValue? c with
  | none => rfl
  | some n => exact if_pos (bounds_of_hexValue? h).2

/-- The digits of a number stand by their places, the last one being that of the ones. -/
theorem getElem?_hexDigits {width i : Nat} (n : Nat) (hi : i < width) :
    (hexDigits width n)[i]? = some (hexDigit (n >>> (4 * (width - 1 - i)) % 16)) := by
  induction width generalizing n with
  | zero => exact absurd hi (Nat.not_lt_zero i)
  | succ width ih =>
    have hlength : (hexDigits width (n / 16)).length = width := length_hexDigits width _
    have hdigit : n >>> 4 = n / 16 := Nat.shiftRight_eq_div_pow n 4
    rw [hexDigits]
    by_cases hlast : i < width
    · have hplace : 4 * (width + 1 - 1 - i) = 4 + 4 * (width - 1 - i) := by omega
      rw [List.getElem?_append_left (Nat.lt_of_lt_of_eq hlast hlength.symm), ih _ hlast, hplace,
        Nat.shiftRight_add, hdigit]
    · obtain rfl : i = width := by omega
      rw [List.getElem?_append_right (Nat.le_of_eq hlength), hlength, Nat.sub_self,
        Nat.add_sub_cancel, Nat.sub_self]
      rfl

theorem digitValue?_hexDigit {base n : Nat} (hbase : base ≤ 16) (h : n < base) :
    digitValue? base (hexDigit n) = some n := by
  rw [digitValue?, hexValue?_hexDigit (Nat.lt_of_lt_of_le h hbase)]
  exact if_pos h

theorem isDigit_hexDigit {n : Nat} (h : n < 10) : isDigit (hexDigit n) = true := by
  rw [isDigit, digitValue?_hexDigit (by decide) h]
  rfl

theorem ne_of_isDigit {c d : Char} (hc : isDigit c = true) (hd : isDigit d = false) : c ≠ d := by
  rintro rfl
  rw [hc] at hd
  cases hd

theorem foldDigits?_append (base : Nat) (cs' : List Char) : ∀ (cs : List Char) (acc : Nat),
    foldDigits? base acc (cs ++ cs') =
      (foldDigits? base acc cs).bind (fun n => foldDigits? base n cs')
  | [], _ => rfl
  | c :: cs, acc => by
    simp only [List.cons_append, foldDigits?]
    split
    · exact foldDigits?_append base cs' cs _
    · rfl

theorem foldDigits?_decimal (n : Nat) : foldDigits? 10 0 (decimal n) = some n := by
  induction n using decimal.induct with
  | case1 n h =>
    rw [decimal, if_pos h]
    simp only [foldDigits?, digitValue?_hexDigit (by decide) h, Nat.zero_mul, Nat.zero_add]
  | case2 n h ih =>
    rw [decimal, if_neg h, foldDigits?_append, ih]
    simp only [Option.bind_some, foldDigits?,
      digitValue?_hexDigit (by decide : 10 ≤ 16) (Nat.mod_lt n (by decide))]
    congr 1
    omega

theorem isDigit_of_mem_decimal (n : Nat) : ∀ c ∈ decimal n, isDigit c = true := by
  induction n using decimal.induct with
  | case1 n h =>
    rw [decimal, if_pos h]
    intro c hc
    rw [List.mem_singleton.1 hc]
    exact isDigit_hexDigit h
  | case2 n h ih =>
    rw [decimal, if_neg h]
    intro c hc
    rcases List.mem_append.1 hc with hc | hc
    · exact ih c hc
    · rw [List.mem_singleton.1 hc]
      exact isDigit_hexDigit (Nat.mod_lt n (by decide))

/-- A number starts with a digit, and with a zero only if it is zero. -/
theorem decimal_eq_cons (n : Nat) :
    ∃ c r, decimal n = c :: r ∧ isDigit c = true ∧ (c = '0' → r = []) := by
  induction n using decimal.induct with
  | case1 n h =>
    exact ⟨hexDigit n, [], by rw [decimal, if_pos h], isDigit_hexDigit h, fun _ => rfl⟩
  | case2 n h ih =>
    obtain ⟨c, r, hdigits, hdigit, hzero⟩ := ih
    refine ⟨c, r ++ [hexDigit (n % 10)], by rw [decimal, if_neg h, hdigits, List.cons_append],
      hdigit, fun hc => ?_⟩
    have hvalue := foldDigits?_decimal (n / 10)
    rw [hdigits, hzero hc, hc] at hvalue
    have hnone : 0 = n / 10 := Option.some.inj hvalue
    omega

theorem ofDigits?_decimal (n : Nat) : ofDigits? 10 (decimal n) = some n := by
  have hvalue := foldDigits?_decimal n
  obtain ⟨c, r, hdigits, -⟩ := decimal_eq_cons n
  rw [hdigits] at hvalue ⊢
  exact hvalue

end Text
end LiquidStaking

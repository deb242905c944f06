/-
Numbers written in digits.

`decimal` writes in base ten, `hexDigits` in base sixteen with a given number
of digits.  `ofDigits?` reads a run of digits and refuses the empty run.
-/

namespace LiquidStaking
namespace Text

/-- The digit for `n` in lower case; `n` is below 16. -/
def hexDigit (n : Nat) : Char :=
  if n < 10 then Char.ofNat (48 + n) else Char.ofNat (87 + n)

def hexValue? (c : Char) : Option Nat :=
  let n := c.toNat
  if 48 ≤ n ∧ n ≤ 57 then some (n - 48)
  else if 97 ≤ n ∧ n ≤ 102 then some (n - 87)
  else if 65 ≤ n ∧ n ≤ 70 then some (n - 55)
  else none

/-- The last `width` digits of `n` in base sixteen. -/
def hexDigits : Nat → Nat → List Char
  | 0, _ => []
  | width + 1, n => hexDigits width (n / 16) ++ [hexDigit (n % 16)]

theorem length_hexDigits (width n : Nat) : (hexDigits width n).length = width := by
  induction width generalizing n with
  | zero => rfl
  | succ width ih => simp [hexDigits, ih]

def decimal (n : Nat) : List Char :=
  if n < 10 then [hexDigit n] else decimal (n / 10) ++ [hexDigit (n % 10)]
termination_by n

def digitValue? (base : Nat) (c : Char) : Option Nat :=
  match hexValue? c with
  | some d => if d < base then some d else none
  | none => none

def isDigit (c : Char) : Bool := (digitValue? 10 c).isSome

def foldDigits? (base : Nat) : Nat → List Char → Option Nat
  | acc, [] => some acc
  | acc, c :: r =>
    match digitValue? base c with
    | some d => foldDigits? base (acc * base + d) r
    | none => none

/-- The number a run of digits denotes; there has to be at least one digit. -/
def ofDigits? (base : Nat) : List Char → Option Nat
  | [] => none
  | c :: r => foldDigits? base 0 (c :: r)

def ofNat (n : Nat) : String := String.ofList (decimal n)

end Text
end LiquidStaking

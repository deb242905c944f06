/-
Account addresses.

An address has twenty bytes.  It is kept as the number that those bytes form with the most
significant one first, so that the order of addresses is the order of their bytes.
-/
import LiquidStaking.Bounded
import LiquidStaking.Fault
import LiquidStaking.Text.Digits
import LiquidStaking.Text.Slice

namespace LiquidStaking

structure Address where
  number : Bounded 160
deriving DecidableEq

namespace Address

instance : LT Address := ⟨fun a b => a.number.val < b.number.val⟩

instance (a b : Address) : Decidable (a < b) :=
  inferInstanceAs (Decidable (a.number.val < b.number.val))

theorem lt_irrefl (a : Address) : ¬ a < a := Nat.lt_irrefl a.number.val

theorem lt_trans {a b c : Address} (h : a < b) (h' : b < c) : a < c := Nat.lt_trans h h'

theorem lt_of_not_lt_of_ne {a b : Address} (h : ¬ a < b) (hne : a ≠ b) : b < a := by
  rcases Nat.lt_trichotomy a.number.val b.number.val with hlt | heq | hgt
  · exact absurd hlt h
  · exact absurd (by cases a; cases b; exact congrArg Address.mk (Bounded.ext heq)) hne
  · exact hgt

def zero : Address := ⟨Bounded.zero⟩

instance : Inhabited Address := ⟨zero⟩

def isZero (a : Address) : Bool := a == zero

/-- The address whose last eight bytes hold `n`. -/
def ofCount (n : Count) : Address :=
  ⟨⟨n.val, Nat.lt_of_lt_of_le n.isLt (by decide)⟩⟩

def repeatByte (b : Bounded 8) : Address :=
  ⟨⟨b.val * ((Bounded.bound 160 - 1) / 255), by
    have : b.val ≤ 255 := Nat.le_of_lt_succ b.isLt
    calc b.val * ((Bounded.bound 160 - 1) / 255)
      _ ≤ 255 * ((Bounded.bound 160 - 1) / 255) := Nat.mul_le_mul_right _ this
      _ < Bounded.bound 160 := by decide⟩⟩

/-- The byte at position `i`, counted from the most significant one. -/
def byte (a : Address) (i : Nat) : Nat := a.number.val >>> (8 * (19 - i)) % 256

def digits (a : Address) : List Char := Text.hexDigits 40 a.number.val

/-- The canonical text: `0x` and forty digits in lower case. -/
def text (a : Address) : String := String.ofList ('0' :: 'x' :: a.digits)

/-- The number that bytes form with the most significant one first. -/
def joined (bs : List (Bounded 8)) : Nat := bs.foldl (fun acc b => acc * 256 + b.val) 0

def ofBytes (bs : List (Bounded 8)) : Address := ⟨.clamp (joined bs)⟩

def dropMark : List Char → List Char
  | '0' :: 'x' :: r => r
  | cs => cs

def dropPlus : List Char → List Char
  | '+' :: r => r
  | cs => cs

def byte? (cs : List Char) : Option (Bounded 8) :=
  (Text.ofDigits? 16 (dropPlus cs)).bind Bounded.ofNat?

def malformed (cs : List Char) : Fault :=
  .invalidSetting "address" (String.ofList cs) "40 hex digits"

def byteAt (cs hex : List Char) (i : Nat) : Except Failure (Bounded 8) := do
  match byte? (← Text.slice (2 * i) (2 * i + 2) hex) with
  | some b => return b
  | none => throw (.refused (malformed cs))

/-- Read an address from forty characters of one byte after an optional `0x`. -/
def parse (cs : List Char) : Except Failure Address :=
  let hex := dropMark cs
  if Text.byteLength hex = 40 ∧ hex.all Text.isAscii then do
    return ofBytes (← (List.range 20).mapM (byteAt cs hex))
  else
    .error (.refused (malformed cs))

def ofText (s : String) : Except Failure Address := parse s.toList

end Address

end LiquidStaking

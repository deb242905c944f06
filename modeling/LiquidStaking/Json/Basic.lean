/-
JSON values.

Only what this library stores is told apart.  There are no fractions among them: a number with a
fraction or an exponent, and a text whose escapes denote no text, are `other`, a value that may
be passed over and never read.
-/

namespace LiquidStaking

inductive Json
  | null
  | bool (b : Bool)
  /-- An integer; minus zero is told apart from zero. -/
  | int (negative : Bool) (magnitude : Nat)
  | text (s : String)
  | list (items : List Json)
  | record (fields : List (String × Json))
  /-- A value that no field holds. -/
  | other

namespace Json

instance : Inhabited Json := ⟨null⟩

def ofNat (n : Nat) : Json := int false n

def ofInt (i : Int) : Json := int (decide (i < 0)) i.natAbs

end Json

end LiquidStaking

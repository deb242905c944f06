/-
TOML values.

Floating-point numbers and dates are well formed and hold nothing this library reads, so their
contents are not kept.
-/
import LiquidStaking.Wire.Source

namespace LiquidStaking

inductive Toml
  | text (s : String)
  | int (i : Int)
  | bool (b : Bool)
  | float
  | dateTime
  | list (items : List Toml)
  | table (entries : List (String × Toml))

namespace Toml

/-- Whether a value is a list or a table that holds nothing. -/
def isVoid : Toml → Bool
  | list [] | table [] => true
  | _ => false

/-- The name of an alternative without content: a text, or a table whose only entry is void. -/
def name? : Toml → Option String
  | text s => some s
  | table [(s, v)] => if v.isVoid then some s else none
  | _ => none

/-- The entries of a table or the items of a list.  A date is a record without known fields. -/
def parts? : Toml → Option (Parts Toml)
  | table entries => some (.named entries)
  | list items => some (.positional items)
  | dateTime => some (.named [])
  | _ => none

instance : Source Toml where
  text?
    | text s => some s
    | _ => none
  bool?
    | bool b => some b
    | _ => none
  natural?
    | int i => if 0 ≤ i then some i.toNat else none
    | _ => none
  integer?
    | int i => some i
    | _ => none
  isNull _ := false
  list?
    | list items => some items
    | _ => none
  map?
    | table entries => some entries
    | _ => none
  parts? := parts?
  ignoresSurplus := true
  name? := name?
  choice?
    | table [e] => some e
    | _ => none

end Toml

end LiquidStaking

/-
What stored values are read from.

A source is a value of some notation for data.  The readers of this library ask it whether it is a
text, a number, a list and so on, and never which notation it is written in.

A record is read by name, from fields in any order among which unknown ones are ignored, or by
position, from a list.  Whether the list may be longer than the record depends on the notation.

A reader refuses a value of another form, and one that halts in the middle of its work says so.
-/
import LiquidStaking.Json.Basic

namespace LiquidStaking

inductive Misread
  | malformed
  | halted
deriving DecidableEq

/-- What a source shows a value to be, where it has to be something. -/
def Misread.expect {α : Type} : Option α → Except Misread α
  | some a => .ok a
  | none => .error .malformed

inductive Parts (σ : Type)
  | named (fields : List (String × σ))
  | positional (items : List σ)

/-- A notation that values are read from. -/
class Source (σ : Type) where
  text? : σ → Option String
  bool? : σ → Option Bool
  natural? : σ → Option Nat
  integer? : σ → Option Int
  /-- Whether a value stands for the absence of one. -/
  isNull : σ → Bool
  list? : σ → Option (List σ)
  /-- The entries of a map, in the order they are written. -/
  map? : σ → Option (List (String × σ))
  parts? : σ → Option (Parts σ)
  /-- Whether a list that is read as a record may go on after the last field.  What follows is
  ignored like an unknown field. -/
  ignoresSurplus : Bool
  name? : σ → Option String
  choice? : σ → Option (String × σ)

namespace Json

/-- The name of an alternative without content: a text, or a record whose only field is null. -/
def name? : Json → Option String
  | text s => some s
  | record [(s, null)] => some s
  | _ => none

def choice? : Json → Option (String × Json)
  | record [f] => some f
  | _ => none

def parts? : Json → Option (Parts Json)
  | record fields => some (.named fields)
  | list items => some (.positional items)
  | _ => none

instance : Source Json where
  text?
    | text s => some s
    | _ => none
  bool?
    | bool b => some b
    | _ => none
  natural?
    | int false n => some n
    | _ => none
  integer?
    | int true n => some (-n)
    | int false n => some n
    | _ => none
  isNull
    | null => true
    | _ => false
  list?
    | list items => some items
    | _ => none
  map?
    | record fields => some fields
    | _ => none
  parts? := parts?
  ignoresSurplus := false
  name? := name?
  choice? := choice?

end Json

structure Row (σ : Type) where
  names : List String
  parts : Parts σ

namespace Row

variable {σ α : Type}

/-- Whether parts fit the names: by name, no known field stands there twice; by position, there
are not too many, unless the notation ignores those. -/
def fits [Source σ] (names : List String) : Parts σ → Bool
  | .named fields => names.all (fun name => (fields.filter (fun f => f.1 == name)).length ≤ 1)
  | .positional items => Source.ignoresSurplus σ || items.length ≤ names.length

def read [Source σ] (names : List String) (v : σ) : Except Misread (Row σ) := do
  let parts ← Misread.expect (Source.parts? v)
  if fits names parts then return ⟨names, parts⟩ else throw .malformed

def cell? (row : Row σ) (name : String) : Option σ :=
  match row.parts with
  | .named fields => fields.lookup name
  | .positional items => items[row.names.idxOf name]?

def required (row : Row σ) (name : String) (read : σ → Except Misread α) : Except Misread α :=
  match row.cell? name with
  | some v => read v
  | none => .error .malformed

def defaulted (row : Row σ) (name : String) (read : σ → Except Misread α) (d : α) :
    Except Misread α :=
  match row.cell? name with
  | some v => read v
  | none => .ok d

/-- A field that may be absent by name, though not by position. -/
def optional (row : Row σ) (name : String) (read : σ → Except Misread (Option α)) :
    Except Misread (Option α) :=
  match row.cell? name with
  | some v => read v
  | none =>
    match row.parts with
    | .named _ => .ok none
    | .positional _ => .error .malformed

end Row

end LiquidStaking

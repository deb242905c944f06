/-
Writing TOML.

A record is written as a document: its plain values first, and then a section for every field that
is a record or a list of records.  What TOML has no form for is refused: the absent value, and
integers of more than 64 bits.
-/
import LiquidStaking.Bounded
import LiquidStaking.Json.Basic
import LiquidStaking.Text.Digits

namespace LiquidStaking
namespace Toml

def escape (c : Char) : List Char :=
  if c = '"' then ['\\', '"']
  else if c = '\\' then ['\\', '\\']
  else if c = '\n' then ['\\', 'n']
  else if c = '\r' then ['\\', 'r']
  else if c = '\t' then ['\\', 't']
  else if c.toNat < 32 ∨ c.toNat = 127 then '\\' :: 'u' :: Text.hexDigits 4 c.toNat
  else [c]

def quote (s : String) : List Char := '"' :: s.toList.flatMap escape ++ ['"']

def renderPlain : Json → Option (List Char)
  | .text s => some (quote s)
  | .bool true => some ['t', 'r', 'u', 'e']
  | .bool false => some ['f', 'a', 'l', 's', 'e']
  | .int false n => if n < Bounded.bound 63 then some (Text.decimal n) else none
  | .int true n => if n ≤ Bounded.bound 63 then some ('-' :: Text.decimal n) else none
  | .list [] => some ['[', ']']
  | _ => none

/-- Whether a field is written as one or more sections. -/
def isSection : Json → Bool
  | .record _ => true
  | .list (.record _ :: _) => true
  | _ => false

def renderLine (f : String × Json) : Option (List Char) := do
  return f.1.toList ++ [' ', '=', ' '] ++ (← renderPlain f.2) ++ ['\n']

def renderLines (fields : List (String × Json)) : Option (List Char) := do
  return (← fields.mapM renderLine).flatten

/-- A header and the fields below it, after an empty line. -/
def renderSection (opening closing : List Char) (name : String) (v : Json) :
    Option (List Char) :=
  match v with
  | .record fields => do
    return '\n' :: opening ++ name.toList ++ closing ++ ['\n'] ++ (← renderLines fields)
  | _ => none

def renderSections (f : String × Json) : Option (List Char) :=
  match f.2 with
  | .list items => do
    return (← items.mapM (renderSection ['[', '['] [']', ']'] f.1)).flatten
  | v => renderSection ['['] [']'] f.1 v

/-- The document of a record whose sections hold plain fields only. -/
def render (v : Json) : Option String :=
  match v with
  | .record fields => do
    let (sections, plain) := fields.partition (fun f => isSection f.2)
    return String.ofList ((← renderLines plain) ++ (← sections.mapM renderSections).flatten)
  | _ => none

end Toml
end LiquidStaking

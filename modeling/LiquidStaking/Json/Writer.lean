/-
Writing JSON.

A layout says what stands between the parts of a list or a record: nothing at all, or a line break
and two spaces for every level.  An empty list or record is written without a break in either.
-/
import LiquidStaking.Json.Basic
import LiquidStaking.Text.Digits

namespace LiquidStaking
namespace Json

/-- What stands between the parts of a value. -/
structure Layout where
  /-- Before every part, and before the closing bracket, at a depth. -/
  breakAt : Nat → List Char
  colon : List Char

namespace Layout

def compact : Layout := ⟨fun _ => [], [':']⟩

def pretty : Layout := ⟨fun depth => '\n' :: List.replicate (2 * depth) ' ', [':', ' ']⟩

end Layout

/-- A character of a text: quotes, backslashes and control characters are escaped. -/
def escape (c : Char) : List Char :=
  if c = '"' then ['\\', '"']
  else if c = '\\' then ['\\', '\\']
  else if c = '\n' then ['\\', 'n']
  else if c = '\r' then ['\\', 'r']
  else if c = '\t' then ['\\', 't']
  else if c.toNat = 8 then ['\\', 'b']
  else if c.toNat = 12 then ['\\', 'f']
  else if c.toNat < 32 then '\\' :: 'u' :: Text.hexDigits 4 c.toNat
  else [c]

def quote (s : String) : List Char := '"' :: s.toList.flatMap escape ++ ['"']

mutual

/-- The text of a value that starts at a depth. -/
def render (l : Layout) (depth : Nat) : Json → List Char
  | null => ['n', 'u', 'l', 'l']
  | bool true => ['t', 'r', 'u', 'e']
  | bool false => ['f', 'a', 'l', 's', 'e']
  | int true n => '-' :: Text.decimal n
  | int false n => Text.decimal n
  | text s => quote s
  | list [] => ['[', ']']
  | list (x :: xs) =>
    '[' :: l.breakAt (depth + 1) ++ render l (depth + 1) x ++ renderItems l (depth + 1) xs ++
      l.breakAt depth ++ [']']
  | record [] => ['\x7b', '\x7d']
  | record (f :: fs) =>
    '\x7b' :: l.breakAt (depth + 1) ++ renderField l (depth + 1) f ++
      renderFields l (depth + 1) fs ++ l.breakAt depth ++ ['\x7d']
  | other => ['0', '.', '0']

def renderItems (l : Layout) (depth : Nat) : List Json → List Char
  | [] => []
  | x :: xs => ',' :: l.breakAt depth ++ render l depth x ++ renderItems l depth xs

def renderField (l : Layout) (depth : Nat) : String × Json → List Char
  | (name, value) => quote name ++ l.colon ++ render l depth value

def renderFields (l : Layout) (depth : Nat) : List (String × Json) → List Char
  | [] => []
  | f :: fs => ',' :: l.breakAt depth ++ renderField l depth f ++ renderFields l depth fs

end

def compact (j : Json) : String := String.ofList (render .compact 0 j)

def pretty (j : Json) : String := String.ofList (render .pretty 0 j)

end Json
end LiquidStaking

/-
Parts of a text, by their place in bytes.

A text is a run of characters, and each of them takes one to four bytes.  Places are counted in
bytes, so that not all of them are between two characters.
-/
import LiquidStaking.Fault

namespace LiquidStaking
namespace Text

def byteLength : List Char → Nat
  | [] => 0
  | c :: cs => c.utf8Size + byteLength cs

def isAscii (c : Char) : Bool := c.toNat < 128

/-- The characters in the first `n` bytes and those after them, unless that place is inside a
character or after the last one. -/
def splitBytes? : Nat → List Char → Option (List Char × List Char)
  | 0, cs => some ([], cs)
  | _ + 1, [] => none
  | n + 1, c :: cs =>
    if c.utf8Size ≤ n + 1 then
      (splitBytes? (n + 1 - c.utf8Size) cs).map (fun (first, rest) => (c :: first, rest))
    else
      none

/-- The characters from one place up to another.  Both have to be between characters. -/
def slice (start stop : Nat) (cs : List Char) : Except Failure (List Char) :=
  if start ≤ stop then
    match splitBytes? start cs with
    | none => .error .halted
    | some (_, rest) =>
      match splitBytes? (stop - start) rest with
      | none => .error .halted
      | some (part, _) => .ok part
  else
    .error .halted

end Text
end LiquidStaking

/-
Lines and white space.

White space is what the Unicode property `White_Space` says, 25 characters of which six are ASCII.
-/

namespace LiquidStaking
namespace Text

/-- The ranges of the Unicode property `White_Space`. -/
def blankRanges : List (Nat × Nat) :=
  [(0x09, 0x0D), (0x20, 0x20), (0x85, 0x85), (0xA0, 0xA0), (0x1680, 0x1680), (0x2000, 0x200A),
    (0x2028, 0x2029), (0x202F, 0x202F), (0x205F, 0x205F), (0x3000, 0x3000)]

def isBlank (c : Char) : Bool :=
  blankRanges.any (fun range => range.1 ≤ c.toNat && c.toNat ≤ range.2)

def trim (cs : List Char) : List Char :=
  ((cs.dropWhile isBlank).reverse.dropWhile isBlank).reverse

/-- The lines of a text.  A line ends at a line feed, and what follows the last one is a line only
if it is not empty. -/
def lines : List Char → List (List Char)
  | [] => []
  | c :: r =>
    if c = '\n' then
      [] :: lines r
    else
      match lines r with
      | [] => [[c]]
      | l :: ls => (c :: l) :: ls

end Text
end LiquidStaking

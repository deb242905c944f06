/-
The journal.

A journal has one event per line.  Lines that hold nothing but white space are not counted; of the
others the first ones may be skipped, and those are not even looked at.
-/
import LiquidStaking.Keeper.Event
import LiquidStaking.Keeper.Fault
import LiquidStaking.Text.Blank

namespace LiquidStaking

structure JournalEntry where
  line : Nat
  event : PoolEvent
deriving DecidableEq

namespace Journal

/-- The lines of a journal that hold something, without white space around it, each with its
number. -/
def numberedLines (journal : List Char) : List (List Char × Nat) :=
  ((Text.lines journal).zipIdx 1).filterMap
    (fun l => match Text.trim l.1 with
      | [] => none
      | cs => some (cs, l.2))

/-- The event of a line.  A line that holds none is named in the fault. -/
def readEntry (l : List Char × Nat) : Except KeeperFault JournalEntry := do
  return ⟨l.2, ← (Wire.ofChars l.1).mapError (.ofMisread (.journal l.2))⟩

def read (journal : String) (skip : Nat) : Except KeeperFault (List JournalEntry) :=
  ((numberedLines journal.toList).drop skip).mapM readEntry

end Journal

end LiquidStaking

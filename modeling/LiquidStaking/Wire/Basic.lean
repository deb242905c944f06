/-
The stored form of numbers, texts, addresses and collections, and values as texts.
-/
import LiquidStaking.AddressMap
import LiquidStaking.Json.Reader
import LiquidStaking.Json.Writer
import LiquidStaking.Wire.Source

namespace LiquidStaking

/-- A type with a stored form: it is written as JSON and read from any source. -/
class Wire (α : Type) where
  write : α → Json
  read {σ : Type} [Source σ] : σ → Except Misread α

/-- Why a text is no address is not kept, but that its reader halted is. -/
def Misread.ofFailure : Failure → Misread
  | .refused _ => .malformed
  | .halted => .halted

namespace Wire

open Misread (expect)

variable {σ α : Type}

instance : Wire String where
  write s := .text s
  read v := expect (Source.text? v)

instance : Wire Bool where
  write b := .bool b
  read v := expect (Source.bool? v)

instance {bits : Nat} : Wire (Bounded bits) where
  write n := .ofNat n.val
  read v := expect ((Source.natural? v).bind Bounded.ofNat?)

instance : Wire Delta where
  write d := .ofInt d.val
  read v := expect ((Source.integer? v).bind Delta.ofInt?)

def readAddress (s : String) : Except Misread Address := (Address.ofText s).mapError .ofFailure

instance : Wire Address where
  write a := .text a.text
  read v := do readAddress (← expect (Source.text? v))

def writeList [Wire α] (xs : List α) : Json := .list (xs.map write)

def readList [Source σ] [Wire α] (v : σ) : Except Misread (List α) := do
  (← expect (Source.list? v)).mapM read

instance [Wire α] : Wire (List α) where
  write := writeList
  read := readList

instance [Wire α] : Wire (Option α) where
  write
    | some a => write a
    | none => .null
  read v := do if Source.isNull v then return none else return some (← read v)

def readEntry [Source σ] [Wire α] (e : String × σ) : Except Misread (Address × α) := do
  return (← readAddress e.1, ← read e.2)

instance [Wire α] : Wire (AddressMap α) where
  write m := .record (m.entries.map (fun e => (e.1.text, write e.2)))
  read v := do return AddressMap.ofList (← (← expect (Source.map? v)).mapM readEntry)

def writeSet (s : AddressSet) : Json := .list (s.entries.map (fun e => write e.1))

/-- Read a set from a list in any order. -/
def readSet [Source σ] (v : σ) : Except Misread AddressSet := do
  return AddressMap.ofList ((← readList v).map (fun a => (a, ())))

/-- The stored form of an amount that may exceed what numbers can hold elsewhere: its digits as a
text. -/
def writeDigits (a : Amount) : Json := .text (Text.ofNat a.val)

def plainDigits (cs : List Char) : List Char :=
  match cs.filter (· ≠ '_') with
  | '+' :: r => r
  | r => r

/-- Read an amount from a text of digits, in which underscores may stand anywhere. -/
def readDigits [Source σ] (v : σ) : Except Misread Amount := do
  let s ← expect (Source.text? v)
  expect ((Text.ofDigits? 10 (plainDigits s.toList)).bind Bounded.ofNat?)

def toText [Wire α] (a : α) : String := (write a).compact

def ofChars [Wire α] (cs : List Char) : Except Misread α := do
  read (← expect (Json.ofChars? cs))

def ofText [Wire α] (s : String) : Except Misread α := ofChars s.toList

end Wire

end LiquidStaking

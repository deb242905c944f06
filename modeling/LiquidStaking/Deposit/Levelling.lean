/-
Filling buckets from below.

Units go one at a time into the open bucket with the lowest level, the first of them in case of a
tie.  `fill` reaches the same levels in larger steps: it raises one of the lowest buckets at once,
at most to the next level above it, to its own capacity, or by its even share of what is left.
-/
import LiquidStaking.Fault

namespace LiquidStaking

structure Bucket where
  level : Nat
  capacity : Nat
deriving DecidableEq

namespace Bucket

def isOpen (b : Bucket) : Bool := b.level < b.capacity

def raise (b : Bucket) (n : Nat) : Bucket := { b with level := b.level + n }

end Bucket

namespace Levelling

def lowest? : List Bucket → Option Nat
  | [] => none
  | b :: r =>
    if b.isOpen then
      match lowest? r with
      | some level => some (min b.level level)
      | none => some b.level
    else
      lowest? r

def openAt (level : Nat) (bs : List Bucket) : List Bucket :=
  bs.filter (fun b => b.isOpen && b.level == level)

/-- How far a bucket may be raised: to its capacity, or to the lowest level above it of another open
bucket. -/
def ceiling (b : Bucket) (bs : List Bucket) : Nat :=
  (bs.filter (fun x => x.isOpen && decide (b.level < x.level))).foldl
    (fun top x => min top x.level) b.capacity

/-- The part of `budget` that one of `n` tied buckets takes, rounded up. -/
def evenShare (budget n : Nat) : Nat := if n ≤ 1 then budget else (budget + n - 1) / n

def raiseFirst (level n : Nat) : List Bucket → List Bucket
  | [] => []
  | b :: r => if b.isOpen && b.level == level then b.raise n :: r else b :: raiseFirst level n r

def stepSize (bs : List Bucket) (budget : Nat) : Nat :=
  match lowest? bs with
  | none => 0
  | some level =>
    match openAt level bs with
    | [] => 0
    | b :: r => min (evenShare budget (r.length + 1)) (ceiling b bs - level)

def stepBuckets (bs : List Bucket) (n : Nat) : List Bucket :=
  match lowest? bs with
  | none => bs
  | some level => raiseFirst level n bs

/-- Place up to `budget` units, step by step.  Answers how many were placed, fewer than `budget`
only if no bucket is open any more. -/
def fill (bs : List Bucket) (budget : Nat) : Nat × List Bucket :=
  let n := stepSize bs budget
  if n = 0 ∨ budget = 0 then
    (0, bs)
  else
    let (placed, bs) := fill (stepBuckets bs n) (budget - n)
    (n + placed, bs)
termination_by budget

def allocate (counts capacities : List Nat) (amount : Nat) : Except Fault (Nat × List Nat) :=
  if counts.length = capacities.length then
    let (placed, bs) := fill (List.zipWith Bucket.mk counts capacities) amount
    .ok (placed, bs.map Bucket.level)
  else
    .error (.lengthMismatch counts.length capacities.length)

end Levelling

end LiquidStaking

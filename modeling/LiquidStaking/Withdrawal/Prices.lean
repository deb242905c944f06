/-
The prices of finalized batches.

A run holds the rate of one batch, or of several adjacent ones whose integer prices agree, and the
last request it covers; it starts after the last request of the run before it.  A request's run can
be found by a scan from the end, by bisection, or by checking a hint.
-/
import LiquidStaking.Address
import LiquidStaking.Rate

namespace LiquidStaking

/-- The settlement rate of a run of requests. -/
structure PriceRun where
  poolValue : Amount
  shares : Amount
  last : Count
deriving DecidableEq

namespace PriceRun

def rate (r : PriceRun) : Except Fault Rate := Rate.ofAmounts r.poolValue r.shares

def price (r : PriceRun) : Except Fault Nat := do (← r.rate).price

end PriceRun

structure PriceHistory where
  runs : List PriceRun
deriving DecidableEq

namespace PriceHistory

def empty : PriceHistory := ⟨[]⟩

def size (h : PriceHistory) : Nat := h.runs.length

/-- Refuse a batch that does not end after `last`, the end of the batches before.  The range in
the fault counts from there, and halts if that count leaves its width. -/
def behind (last batch : Count) : Failure :=
  match last.next with
  | .ok first => .refused (.invalidRange batch.val first.val (batch.val + 1))
  | .error failure => failure

def record (h : PriceHistory) (last : Count) (poolValue shares : Amount) :
    Except Failure PriceHistory := do
  let run : PriceRun := ⟨poolValue, shares, last⟩
  let price ← run.price
  match h.runs.getLast? with
  | none => return ⟨[run]⟩
  | some before =>
    if last.val ≤ before.last.val then
      throw (behind before.last last)
    else if (← before.price) = price then
      return ⟨h.runs.dropLast ++ [{ before with last }]⟩
    else
      return ⟨h.runs ++ [run]⟩

def isValidHint (h : PriceHistory) (hint : Nat) (request : Count) : Bool :=
  match h.runs[hint]? with
  | none => false
  | some run =>
    decide (request.val ≤ run.last.val) &&
      match hint with
      | 0 => true
      | before + 1 => (h.runs[before]?).all (fun run => decide (run.last.val < request.val))

/-- The run that covers a request, by a scan from the end. -/
def findLinear (h : PriceHistory) (request : Count) : Except Fault Nat :=
  let covering := h.runs.reverse.takeWhile (fun run => decide (request.val ≤ run.last.val))
  if covering.isEmpty then
    .error (.priceNotFound request.val)
  else
    .ok (h.size - covering.length)

/-- Narrow the window of `width` entries from `start` until one entry is left. -/
def bisect (p : Nat → Bool) (start width : Nat) : Nat :=
  if width ≤ 1 then
    start
  else
    bisect p (if p (start + width / 2) then start + width / 2 else start) (width - width / 2)
termination_by width

/-- The first run that does not end before a request, by bisection. -/
def firstNotBefore (h : PriceHistory) (request : Count) : Nat :=
  let isBefore (i : Nat) : Bool :=
    (h.runs[i]?).any (fun run => decide (run.last.val < request.val))
  let i := bisect isBefore 0 h.size
  if isBefore i then i + 1 else i

def findIndexed (h : PriceHistory) (request : Count) : Except Fault Nat :=
  let i := h.firstNotBefore request
  if i = h.size then .error (.priceNotFound request.val) else .ok i

end PriceHistory

end LiquidStaking

/-
The withdrawal queue.

Requests are appended to a ledger.  Finalizing a batch fixes the rate it settles at and locks ether
for it; a claim later pays one request at the rate of its batch, and never more than it asked for.
-/
import LiquidStaking.Escrow
import LiquidStaking.Withdrawal.Prices
import LiquidStaking.Withdrawal.Request

namespace LiquidStaking

structure WithdrawalQueue where
  requests : List WithdrawalRequest
  prices : PriceHistory
  /-- The number of finalized requests, the first ones of the ledger. -/
  finalizedCount : Count
  /-- The ether locked for requests that are finalized and not claimed. -/
  totalLocked : Amount
  limits : WithdrawalLimits
deriving DecidableEq

namespace WithdrawalQueue

def create (limits : WithdrawalLimits) : WithdrawalQueue :=
  ⟨[], .empty, Bounded.zero, Bounded.zero, limits⟩

def length (q : WithdrawalQueue) : Nat := q.requests.length

def request (q : WithdrawalQueue) (id : Nat) : Except Fault WithdrawalRequest :=
  match q.requests[id]? with
  | some r => .ok r
  | none => .error (.unknownRequest id)

def status (q : WithdrawalQueue) (id : Count) : Except Fault RequestStatus := do
  let r ← q.request id.val
  return if r.claimed then .claimed
    else if id.val < q.finalizedCount.val then .finalized
    else .queued

def requestsOf (q : WithdrawalQueue) (recipient : Address) : List Count :=
  (q.requests.filter (fun r => r.recipient == recipient)).map (·.id)

def tailTotals (q : WithdrawalQueue) : Amount × Amount :=
  match q.requests.getLast? with
  | some r => (r.cumulativeEther, r.cumulativeShares)
  | none => (Bounded.zero, Bounded.zero)

def totalsBefore (q : WithdrawalQueue) : Nat → Except Fault (Amount × Amount)
  | 0 => .ok (Bounded.zero, Bounded.zero)
  | id + 1 => do
    let r ← q.request id
    return (r.cumulativeEther, r.cumulativeShares)

def rangeTotals (q : WithdrawalQueue) (first last : Nat) : Except Fault (Amount × Amount) := do
  let r ← q.request last
  let (ether, shares) ← q.totalsBefore first
  return (← r.cumulativeEther.sub ether, ← r.cumulativeShares.sub shares)

/-- The ether and the shares of the requests that are not finalized.  An empty ledger with
finalized requests has no last request, and halts. -/
def unfinalizedTotals (q : WithdrawalQueue) : Except Failure (Amount × Amount) :=
  if q.finalizedCount.val = q.length then
    .ok (Bounded.zero, Bounded.zero)
  else
    match q.length with
    | 0 => .error .halted
    | last + 1 => q.rangeTotals q.finalizedCount.val last

def unfinalizedEther (q : WithdrawalQueue) : Except Failure Amount := do
  return (← q.unfinalizedTotals).1

def unfinalizedShares (q : WithdrawalQueue) : Except Failure Amount := do
  return (← q.unfinalizedTotals).2

/-- The number of the next request.  The number of requests stays a count. -/
def nextId (q : WithdrawalQueue) : Except Fault Count :=
  if h : q.length + 1 < Bounded.bound 64 then
    .ok ⟨q.length, Nat.lt_of_succ_lt h⟩
  else
    .error .overflow

def enqueue (q : WithdrawalQueue) (recipient : Address) (ether shares : Amount) (block : Count) :
    Except Fault (Count × WithdrawalQueue) :=
  if ether.val ≤ q.limits.min.val then
    .error (.belowMinimum ether.val q.limits.min.val)
  else if q.limits.max.val < ether.val then
    .error (.aboveMaximum ether.val q.limits.max.val)
  else do
    let (etherBefore, sharesBefore) := q.tailTotals
    let cumulativeEther ← etherBefore.add ether
    let cumulativeShares ← sharesBefore.add shares
    let id ← q.nextId
    let r : WithdrawalRequest :=
      { id, cumulativeEther, cumulativeShares, recipient, createdAt := block, claimed := false }
    return (id, { q with requests := q.requests ++ [r] })

/-- What `shares` are worth at a rate, at most `ether`. -/
def discounted (ether shares : Amount) (rate : Rate) : Except Fault Amount := do
  let value : Amount ← Bounded.narrow (← rate.valueForShares shares.val)
  return if ether.val ≤ value.val then ether else value

def checkRange (q : WithdrawalQueue) (last : Count) : Except Fault Unit :=
  if last.val < q.finalizedCount.val ∨ q.length ≤ last.val then
    .error (.invalidRange last.val q.finalizedCount.val q.length)
  else
    .ok ()

/-- What finalizing the batch up to `last` at `poolValue / shares` takes: the ether its shares are
worth, at most what it asked for, and all its shares. -/
def settlement (q : WithdrawalQueue) (last : Count) (poolValue shares : Amount) :
    Except Fault Settlement := do
  q.checkRange last
  let (rangeEther, rangeShares) ← q.rangeTotals q.finalizedCount.val last.val
  let rate ← Rate.ofAmounts poolValue shares
  return ⟨← discounted rangeEther rangeShares rate, rangeShares⟩

/-- The locked total that finalizing would leave, after every check it makes. -/
def checkFinalize (q : WithdrawalQueue) (last : Count) (lock poolValue shares balance : Amount) :
    Except Fault Amount := do
  q.checkRange last
  let totalLocked ← q.totalLocked.add lock
  if balance.val < totalLocked.val then
    throw (.insufficientEscrow totalLocked.val balance.val)
  else
    let rate ← Rate.ofAmounts poolValue shares
    let _ ← rate.price
    return totalLocked

/-- Finalize the batch up to `last` at `poolValue / shares`, with `lock` more ether locked.
`balance` is all that the escrow holds. -/
def finalize (q : WithdrawalQueue) (last : Count) (lock poolValue shares balance : Amount) :
    Except Failure WithdrawalQueue := do
  let totalLocked ← q.checkFinalize last lock poolValue shares balance
  let prices ← q.prices.record last poolValue shares
  let finalizedCount ← last.next
  return { q with prices, totalLocked, finalizedCount }

def findPriceHint (q : WithdrawalQueue) (id : Count) : Except Fault Nat :=
  if q.finalizedCount.val ≤ id.val then
    .error (.priceNotFound id.val)
  else
    q.prices.findLinear id

def findPriceHintIndexed (q : WithdrawalQueue) (id : Count) : Except Fault Nat :=
  if q.finalizedCount.val ≤ id.val then
    .error (.priceNotFound id.val)
  else
    q.prices.findIndexed id

def findPriceHints (q : WithdrawalQueue) (ids : List Count) : Except Fault (List Nat) :=
  ids.mapM q.findPriceHintIndexed

/-- The run a claim is paid from: the hint if it is right, and otherwise the one a scan finds. -/
def priceIndex (q : WithdrawalQueue) (id : Count) (hint : Option Nat) : Except Fault Nat :=
  match hint with
  | some i => if q.prices.isValidHint i id then .ok i else q.findPriceHint id
  | none => q.findPriceHint id

def claimablePriceIndex (q : WithdrawalQueue) (id : Count) (hint : Option Nat) :
    Except Fault Nat :=
  if q.finalizedCount.val ≤ id.val then
    .error (.notFinalized id.val)
  else do
    if (← q.request id.val).claimed then
      throw (.alreadyClaimed id.val)
    else
      q.priceIndex id hint

def payout (q : WithdrawalQueue) (id : Count) (index : Nat) : Except Fault Amount := do
  match q.prices.runs[index]? with
  | none => throw (.priceNotFound id.val)
  | some run =>
    let (ether, shares) ← q.rangeTotals id.val id.val
    discounted ether shares (← run.rate)

def claimableEther (q : WithdrawalQueue) (id : Count) (hint : Option Nat) :
    Except Fault Amount := do
  q.payout id (← q.claimablePriceIndex id hint)

def markClaimed (q : WithdrawalQueue) (id : Nat) : List WithdrawalRequest :=
  q.requests.modify id (fun r => { r with claimed := true })

/-- Pay a finalized request out of the escrow.  A payment that fails leaves the request
claimable. -/
def claim (q : WithdrawalQueue) (id : Count) (hint : Option Nat) (escrow : Escrow) :
    Except Fault (ClaimReceipt × WithdrawalQueue × Escrow) := do
  let index ← q.claimablePriceIndex id hint
  let amount ← q.payout id index
  let recipient := (← q.request id.val).recipient
  match q.totalLocked.sub amount with
  | .error _ => throw (.insufficientEscrow amount.val q.totalLocked.val)
  | .ok totalLocked =>
    match escrow.transfer recipient amount with
    | .error e => throw (.transferFailed id.val amount.val e.message)
    | .ok escrow =>
      return (⟨id, recipient, amount⟩,
        { q with requests := q.markClaimed id.val, totalLocked }, escrow)

end WithdrawalQueue

end LiquidStaking

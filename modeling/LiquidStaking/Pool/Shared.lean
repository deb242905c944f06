/-
A pool with one writer.

Writes go through a lock, one at a time.  Privileged ones need a permit, which is checked before the
lock is taken.  After every write that succeeds a view is published, and readers of the view never
wait.  A write that halts leaves the lock poisoned: nothing behind it can be reached any more, while
the view and the grants still can.
-/
import LiquidStaking.Access
import LiquidStaking.Pool.Books
import LiquidStaking.Pool.Snapshot

namespace LiquidStaking

structure PoolView where
  modules : List StakingModule
  prices : PriceHistory
  poolValue : Amount
  totalShares : Amount
  queueLength : Nat
  finalizedCount : Count
  totalLocked : Amount
  lastReport : Option Count
deriving DecidableEq

namespace PoolView

def ofPool (p : Pool) : PoolView where
  modules := p.registry.modules
  prices := p.queue.prices
  poolValue := p.poolValue
  totalShares := p.totals.totalShares
  queueLength := p.queue.length
  finalizedCount := p.queue.finalizedCount
  totalLocked := p.queue.totalLocked
  lastReport := p.lastReport

end PoolView

namespace Operation

/-- The role an operation needs; some are open to everyone. -/
def role? : Operation → Option Role
  | submit .. | requestWithdrawal .. | claim .. => none
  | deposit .. => some .depositor
  | report _ => some .oracle
  | manage _ => some .moduleManager

end Operation

/-- Books behind a lock, the grants, and the view published last. -/
structure SharedPool where
  books : Books
  access : Access
  view : PoolView
  poisoned : Bool

namespace SharedPool

def create (books : Books) (access : Access) : SharedPool :=
  ⟨books, access, .ofPool books.pool, false⟩

def poisonedLock : Fault := .lockPoisoned "pool"

/-- The books, if the lock can be taken. -/
def locked (s : SharedPool) : Except Fault Books :=
  if s.poisoned then .error poisonedLock else .ok s.books

def snapshot (s : SharedPool) : Except Fault PoolSnapshot := do
  return (← s.locked).pool.snapshot

def escrow (s : SharedPool) : Except Fault Escrow := do
  return (← s.locked).escrow

def permit (s : SharedPool) (account : Address) (role : Role) : Except Fault Permit :=
  s.access.permit account role

def grant (s : SharedPool) (admin : Permit) (account : Address) (role : Role) :
    Except Fault SharedPool := do
  return { s with access := ← s.access.grant admin account role }

def revoke (s : SharedPool) (admin : Permit) (account : Address) (role : Role) :
    Except Fault SharedPool := do
  return { s with access := ← s.access.revoke admin account role }

/-- Run an operation under the lock, and publish the view if it succeeds. -/
def write (s : SharedPool) (op : Operation) : Except Failure Reply × SharedPool :=
  match s.locked with
  | .error cause => (.error (.refused cause), s)
  | .ok books =>
    match books.run op with
    | (.ok reply, books) => (.ok reply, { s with books, view := .ofPool books.pool })
    | (.error (.refused cause), books) => (.error (.refused cause), { s with books })
    | (.error .halted, books) => (.error .halted, { s with books, poisoned := true })

def authorize (s : SharedPool) (permit : Permit) (op : Operation) : Except Fault Unit :=
  match op.role? with
  | none => .ok ()
  | some role => s.access.verify permit role

def perform (s : SharedPool) (permit : Permit) (op : Operation) :
    Except Failure Reply × SharedPool :=
  match s.authorize permit op with
  | .error cause => (.error (.refused cause), s)
  | .ok () => s.write op

/-- Run an operation for an account, which gets the permit it needs first. -/
def performFor (s : SharedPool) (caller : Address) (op : Operation) :
    Except Failure Reply × SharedPool :=
  match op.role? with
  | none => s.write op
  | some role =>
    match s.permit caller role with
    | .error cause => (.error (.refused cause), s)
    | .ok permit => s.perform permit op

end SharedPool

end LiquidStaking

/-
The keeper.

A keeper replays the journal through a shared pool.  Every event counts, whether it succeeds or is
rejected, and the count is stored with the pool, so that a keeper that starts again goes on where
the last one stopped.
-/
import LiquidStaking.Keeper.Journal
import LiquidStaking.Keeper.Settings

namespace LiquidStaking

/-- What is stored between two runs. -/
structure KeeperState where
  pool : PoolSnapshot
  escrow : Escrow
  eventsApplied : Count
deriving DecidableEq

namespace Wire

instance : Wire KeeperState where
  write s := .record [
    ("pool", write s.pool),
    ("escrow", write s.escrow),
    ("events_applied", write s.eventsApplied)]
  read v := do
    let row ← Row.read ["pool", "escrow", "events_applied"] v
    return {
      pool := ← row.required "pool" read
      escrow := ← row.required "escrow" read
      eventsApplied := ← row.required "events_applied" read }

end Wire

namespace KeeperState

def toText (s : KeeperState) : String := (Wire.write s).pretty

def ofText (stored : String) : Except Misread KeeperState := Wire.ofText stored

end KeeperState

structure KeeperFiles where
  journal : Option String
  snapshot : Option String

structure ReplaySummary where
  applied : Nat
  failed : Nat
deriving DecidableEq

namespace ReplaySummary

def zero : ReplaySummary := ⟨0, 0⟩

def count (s : ReplaySummary) (result : Except Failure Reply) : ReplaySummary :=
  match result with
  | .ok _ => { s with applied := s.applied + 1 }
  | .error _ => { s with failed := s.failed + 1 }

end ReplaySummary

structure Keeper where
  shared : SharedPool
  eventsApplied : Count
  dryRun : Bool

namespace Keeper

def resume (s : KeeperState) (access : Access) (dryRun : Bool) : Except Fault Keeper := do
  return ⟨.create ⟨← Pool.ofSnapshot s.pool, s.escrow⟩ access, s.eventsApplied, dryRun⟩

def fresh (s : KeeperSettings) (access : Access) (dryRun : Bool) : Except Fault Keeper := do
  return ⟨.create ⟨← s.freshPool, .empty⟩ access, Bounded.zero, dryRun⟩

/-- Start from the snapshot if there is one, and otherwise with a fresh pool. -/
def start (s : KeeperSettings) (dryRun : Bool) (snapshot : Option String) :
    Except KeeperFault Keeper := do
  let access ← s.access.mapError KeeperFault.pool
  match snapshot with
  | none => (fresh s access dryRun).mapError .pool
  | some stored =>
    let state ← (KeeperState.ofText stored).mapError (KeeperFault.ofMisread .stored)
    (resume state access dryRun).mapError .pool

/-- Replay events and count them.  An event that halts is not counted and ends the pass. -/
def replay (k : Keeper) (summary : ReplaySummary) :
    List PoolEvent → Except KeeperFault ReplaySummary × Keeper
  | [] => (.ok summary, k)
  | e :: es =>
    match e.apply k.shared with
    | (.error .halted, shared) => (.error .halted, { k with shared })
    | (result, shared) =>
      match k.eventsApplied.next with
      | .error _ => (.error .halted, { k with shared })
      | .ok eventsApplied => replay { k with shared, eventsApplied } (summary.count result) es

def state (k : Keeper) : Except KeeperFault KeeperState := do
  let pool ← k.shared.snapshot.mapError KeeperFault.pool
  let escrow ← k.shared.escrow.mapError KeeperFault.pool
  return ⟨pool, escrow, k.eventsApplied⟩

def persist (k : Keeper) (files : KeeperFiles) : Except KeeperFault KeeperFiles := do
  return { files with snapshot := some (← k.state).toText }

/-- Store the state after a pass, unless there was nothing to replay. -/
def persistAfter (k : Keeper) (summary : ReplaySummary) (files : KeeperFiles) :
    Except KeeperFault KeeperFiles :=
  if summary.applied + summary.failed = 0 ∨ k.dryRun then .ok files else k.persist files

/-- Replay what the journal holds beyond the events replayed so far.  A journal with a line that is
not an event is not replayed at all. -/
def process (k : Keeper) (files : KeeperFiles) :
    Except KeeperFault ReplaySummary × Keeper × KeeperFiles :=
  match files.journal with
  | none => (.ok .zero, k, files)
  | some journal =>
    match Journal.read journal k.eventsApplied.val with
    | .error fault => (.error fault, k, files)
    | .ok entries =>
      match k.replay .zero (entries.map (·.event)) with
      | (.error fault, k) => (.error fault, k, files)
      | (.ok summary, k) =>
        match k.persistAfter summary files with
        | .error fault => (.error fault, k, files)
        | .ok files => (.ok summary, k, files)

def healthCheck (k : Keeper) : Except KeeperFault Unit := do
  let escrow ← k.shared.escrow.mapError KeeperFault.pool
  if escrow.balance.val < k.shared.view.totalLocked.val then
    throw (.escrowShortfall escrow.balance.val k.shared.view.totalLocked.val)
  else
    return ()

end Keeper

end LiquidStaking

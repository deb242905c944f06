/-
The keeper as a program.

It replays the journal into the pool, once or again and again, and keeps the snapshot up to date.
Everything it decides is decided elsewhere; here files are read and written, and time passes.
-/
import LiquidStaking.Keeper.Options
import LiquidStaking.Keeper.Replay

namespace LiquidStaking

namespace KeeperProgram

def readIfPresent (path : String) : IO (Option String) := do
  try
    return some (← IO.FS.readFile path)
  catch
    | .noFileOrDirectory .. => return none
    | e => throw e

/-- Replace a file by way of another one beside it, so that it is never half written. -/
def replaceFile (path content : String) : IO Unit := do
  IO.FS.writeFile (path ++ ".tmp") content
  IO.FS.rename (path ++ ".tmp") path

def orFail {α : Type} : Except KeeperFault α → IO α
  | .ok a => return a
  | .error fault => throw (.userError fault.message)

def report (shown : Bool) (line : String) : IO Unit :=
  if shown then IO.eprintln line else return ()

def attempt {α : Type} (act : IO α) : IO (Except KeeperFault α) := do
  try
    return .ok (← act)
  catch _ =>
    return .error .file

/-- One pass over the journal.  What has been replayed counts even if it cannot be stored. -/
def pass (s : KeeperSettings) (k : Keeper) : IO (Except KeeperFault ReplaySummary × Keeper) := do
  match ← attempt (readIfPresent s.journalPath) with
  | .error fault => return (.error fault, k)
  | .ok journal =>
    let (result, k, files) := k.process ⟨journal, none⟩
    match files.snapshot with
    | none => return (result, k)
    | some snapshot =>
      match ← attempt (replaceFile s.snapshotPath snapshot) with
      | .ok () => return (result, k)
      | .error fault => return (.error fault, k)

def wait (seconds : Count) : IO Unit :=
  IO.sleep (UInt32.ofNat (min (seconds.val * 1000) (UInt32.size - 1)))

/-- Pass over the journal until a writer halts.  Every hundredth pass looks at the escrow. -/
partial def poll (verbose : Bool) (s : KeeperSettings) (k : Keeper) (passes : Nat) :
    IO UInt32 := do
  let (result, k) ← pass s k
  match result with
  | .error .halted =>
    IO.eprintln KeeperFault.halted.message
    return 101
  | .error fault => report true s!"pass {passes}: {fault.message}"
  | .ok summary =>
    report (verbose || summary.applied + summary.failed != 0)
      s!"pass {passes}: applied {summary.applied} events, {summary.failed} rejected"
  if passes % 100 == 0 then
    match k.healthCheck with
    | .ok () => report verbose "the escrow covers what is locked"
    | .error fault => report true fault.message
  wait s.pollInterval
  poll verbose s k (passes + 1)

def run (o : KeeperOptions) : IO UInt32 := do
  if o.initConfig then
    IO.FS.writeFile o.config (← orFail KeeperSettings.sample.toText)
    report true ("sample settings are in " ++ o.config)
    return 0
  let s := o.override (← orFail (KeeperSettings.ofText (← IO.FS.readFile o.config)))
  let k ← orFail (Keeper.start s o.dryRun (← readIfPresent s.snapshotPath))
  report true s!"starting after {k.eventsApplied.val} events"
  if o.once then
    let (result, k) ← pass s k
    let summary ← orFail result
    report true s!"applied {summary.applied} events, {summary.failed} rejected"
    orFail k.healthCheck
    return 0
  poll o.verbose s k 1

end KeeperProgram

end LiquidStaking

def main (args : List String) : IO UInt32 := do
  match LiquidStaking.KeeperOptions.ofArgs? args with
  | none =>
    IO.eprintln LiquidStaking.KeeperOptions.usage
    return 2
  | some options =>
    try
      LiquidStaking.KeeperProgram.run options
    catch e =>
      IO.eprintln ("Error: " ++ toString e)
      return 1

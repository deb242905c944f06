/-
The options of the keeper's command line.

An option has a long name after two dashes, and some have a letter after one.  A value is the next
argument, or stands in the same one: after an equals sign, or right after the letter.  No option is
given twice.
-/
import LiquidStaking.Keeper.Settings

namespace LiquidStaking

inductive OptionKind
  | config
  | journal
  | snapshot
  | interval
  | once
  | dryRun
  | verbose
  | initConfig
deriving DecidableEq

namespace OptionKind

def all : List OptionKind :=
  [config, journal, snapshot, interval, once, dryRun, verbose, initConfig]

def longName : OptionKind → List Char
  | config => "config".toList
  | journal => "journal".toList
  | snapshot => "snapshot".toList
  | interval => "interval".toList
  | once => "once".toList
  | dryRun => "dry-run".toList
  | verbose => "verbose".toList
  | initConfig => "init-config".toList

def letter? : OptionKind → Option Char
  | config => some 'c'
  | journal => some 'j'
  | snapshot => some 's'
  | interval => some 'i'
  | verbose => some 'v'
  | once | dryRun | initConfig => none

def hasValue : OptionKind → Bool
  | config | journal | snapshot | interval => true
  | once | dryRun | verbose | initConfig => false

end OptionKind

structure KeeperOptions where
  config : String
  /-- What to read and write in place of what the settings name. -/
  journal : Option String
  snapshot : Option String
  interval : Option Count
  once : Bool
  dryRun : Bool
  verbose : Bool
  /-- Whether to write sample settings and do nothing else. -/
  initConfig : Bool

namespace KeeperOptions

def readArg (arg : List Char) : Option (OptionKind × Option (List Char)) :=
  match arg with
  | '-' :: '-' :: r =>
    let (name, value) := r.span (· ≠ '=')
    (OptionKind.all.find? (fun kind => kind.longName == name)).map
      (fun kind => (kind, value.tail?))
  | '-' :: c :: r =>
    (OptionKind.all.find? (fun kind => kind.letter? == some c)).map
      (fun kind => (kind, match r with
        | [] => none
        | '=' :: value => some value
        | value => some value))
  | _ => none

def readArgs : List (List Char) → Option (List (OptionKind × List Char))
  | [] => some []
  | arg :: rest =>
    match readArg arg with
    | none => none
    | some (kind, value) =>
      match kind.hasValue, value, rest with
      | false, none, rest => (readArgs rest).map ((kind, []) :: ·)
      | true, some value, rest => (readArgs rest).map ((kind, value) :: ·)
      | true, none, value :: rest =>
        if value.head? = some '-' then none else (readArgs rest).map ((kind, value) :: ·)
      | _, _, _ => none

def readSeconds (cs : List Char) : Option Count := (Text.ofDigits? 10 cs).bind Bounded.ofNat?

/-- The options that a command line gives, if it gives any that make sense. -/
def ofArgs? (args : List String) : Option KeeperOptions := do
  let given ← readArgs (args.map String.toList)
  if !(given.map Prod.fst).Nodup then
    none
  else
    let text (kind : OptionKind) : Option String := (given.lookup kind).map String.ofList
    return {
      config := (text .config).getD "keeper.toml"
      journal := text .journal
      snapshot := text .snapshot
      interval := ← match given.lookup .interval with
        | some cs => (readSeconds cs).map some
        | none => some none
      once := (given.lookup .once).isSome
      dryRun := (given.lookup .dryRun).isSome
      verbose := (given.lookup .verbose).isSome
      initConfig := (given.lookup .initConfig).isSome }

/-- The settings with what the command line puts in their place.  The interval is at least one
second. -/
def override (o : KeeperOptions) (s : KeeperSettings) : KeeperSettings :=
  { s with
    journalPath := o.journal.getD s.journalPath
    snapshotPath := o.snapshot.getD s.snapshotPath
    pollInterval :=
      match o.interval with
      | some seconds => if seconds.val = 0 then Bounded.clamp 1 else seconds
      | none => s.pollInterval }

def usage : String :=
  "Usage: keeper [-c|--config FILE] [-j|--journal FILE] [-s|--snapshot FILE] " ++
    "[-i|--interval SECONDS] [--once] [--dry-run] [-v|--verbose] [--init-config]"

end KeeperOptions

end LiquidStaking

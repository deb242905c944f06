/-
A journal replayed in parts.

However a journal is split at the end of a line, replaying its first part, storing the state,
starting again and replaying the whole leaves what one pass leaves: every event is carried out once,
in the order of the journal.
-/
import LiquidStaking.Proofs.Keeper.Resume

namespace LiquidStaking
namespace Keeper

/-- A pass that has to succeed. -/
def pass (k : Keeper) (files : KeeperFiles) :
    Except KeeperFault (ReplaySummary × Keeper × KeeperFiles) :=
  match k.process files with
  | (.ok summary, k, files) => .ok (summary, k, files)
  | (.error fault, _) => .error fault

/-- Start without a snapshot and pass over a journal.  Answers the state at the end and what was
counted. -/
def inOnePass (s : KeeperSettings) (dryRun : Bool) (journal : String) :
    Except KeeperFault (KeeperState × ReplaySummary) := do
  let k ← start s dryRun none
  let (summary, k, _) ← k.pass ⟨some journal, none⟩
  return (← k.state, summary)

def restart (k : Keeper) (s : KeeperSettings) (dryRun : Bool) (files : KeeperFiles) :
    Except KeeperFault (Keeper × KeeperFiles) := do
  let files ← k.persist files
  return (← start s dryRun files.snapshot, files)

/-- Start without a snapshot, pass over the first part of a journal, store the state, start again
and pass over all of it.  Answers the state at the end and what both passes counted. -/
def inTwoPasses (s : KeeperSettings) (dryRun dryRun' : Bool) (first rest : String) :
    Except KeeperFault (KeeperState × ReplaySummary) := do
  let k ← start s dryRun none
  let (summary, k, files) ← k.pass ⟨some first, none⟩
  let (k, files) ← k.restart s dryRun' files
  let (summary', k, _) ← k.pass { files with journal := some (first ++ rest) }
  return (← k.state, summary.add summary')

variable {s : KeeperSettings} {k : Keeper} {policy : PoolPolicy}

theorem pass_eq (hk : k.shared.Live policy) {journal : String} {entries : List JournalEntry}
    (hread : Journal.read journal k.eventsApplied.val = .ok entries) {total : Count}
    (htotal : total.val = k.eventsApplied.val + entries.length) (snapshot : Option String) :
    ∃ snapshot', k.pass ⟨some journal, snapshot⟩ =
      .ok (ReplaySummary.zero.countAll (k.shared.answers (entries.map (·.event))),
        k.replayed (entries.map (·.event)) total, ⟨some journal, snapshot'⟩) := by
  obtain ⟨snapshot', hprocess⟩ := process_eq hk hread htotal snapshot
  exact ⟨snapshot', by rw [pass, hprocess]⟩

variable {first rest : String} {entries : List JournalEntry} {dryRun dryRun' : Bool}

theorem pass_of_start (hstart : start s dryRun none = .ok k)
    (hread : Journal.read first 0 = .ok entries) {total : Count}
    (htotal : total.val = entries.length) :
    ∃ snapshot, k.pass ⟨some first, none⟩ =
      .ok (ReplaySummary.zero.countAll (k.shared.answers (entries.map (·.event))),
        k.replayed (entries.map (·.event)) total, ⟨some first, snapshot⟩) := by
  have hzero := eventsApplied_of_start hstart
  have hskip : Journal.read first k.eventsApplied.val = .ok entries := by
    rw [hzero]
    exact hread
  have hcount : total.val = k.eventsApplied.val + entries.length := by
    rw [hzero, htotal]
    exact (Nat.zero_add _).symm
  exact pass_eq (live_of_start hstart) hskip hcount none

theorem inOnePass_eq (hstart : start s dryRun none = .ok k)
    (hread : Journal.read first 0 = .ok entries) {total : Count}
    (htotal : total.val = entries.length) :
    inOnePass s dryRun first = .ok ((k.replayed (entries.map (·.event)) total).stored,
      ReplaySummary.zero.countAll (k.shared.answers (entries.map (·.event)))) := by
  obtain ⟨snapshot, hpass⟩ := pass_of_start hstart hread htotal
  have hstate := state_eq (k := k.replayed (entries.map (·.event)) total)
    ((live_of_start hstart).afterEvents _)
  simp only [inOnePass, hstart, ok_bind, hpass, hstate]
  rfl

/-- A keeper that starts again is as it was, but for being a dry run or not. -/
theorem restart_eq (hk : k.shared.Live policy) (haccess : s.access = .ok k.shared.access)
    (dryRun : Bool) (files : KeeperFiles) : k.restart s dryRun files =
      .ok ({ k with dryRun }, { files with snapshot := some k.stored.toText }) := by
  rw [restart, persist_eq hk, ok_bind, start_stored hk haccess]
  rfl

theorem inTwoPasses_eq (hstart : start s dryRun none = .ok k) {before later : List JournalEntry}
    (hbefore : Journal.read first 0 = .ok before)
    (hlater : Journal.read (first ++ rest) before.length = .ok later) {total : Count}
    (htotal : total.val = before.length + later.length) :
    inTwoPasses s dryRun dryRun' first rest =
      .ok ((k.replayed ((before ++ later).map (·.event)) total).stored,
        ReplaySummary.zero.countAll (k.shared.answers ((before ++ later).map (·.event)))) := by
  have hlive := live_of_start hstart
  obtain ⟨count, hcount⟩ : ∃ count : Count, count.val = before.length :=
    ⟨⟨before.length, Nat.lt_of_le_of_lt (by omega) total.isLt⟩, rfl⟩
  obtain ⟨snapshot, hfirst⟩ := pass_of_start hstart hbefore hcount
  -- Between the passes the pool is the one after the first events, with the grants it started with.
  have hmid : (k.replayed (before.map (·.event)) count).shared.Live s.pool := hlive.afterEvents _
  have haccess : s.access = .ok (k.replayed (before.map (·.event)) count).shared.access :=
    (access_of_start hstart).trans (congrArg Except.ok (hlive.access_afterEvents _).symm)
  have hrestart := restart_eq hmid haccess dryRun' ⟨some first, snapshot⟩
  rw [← hcount] at hlater htotal
  obtain ⟨snapshot', hsecond⟩ := pass_eq
    (k := { k.replayed (before.map (·.event)) count with dryRun := dryRun' }) hmid hlater htotal
    (some (k.replayed (before.map (·.event)) count).stored.toText)
  have hend := state_eq (k := Keeper.replayed
    { k.replayed (before.map (·.event)) count with dryRun := dryRun' } (later.map (·.event)) total)
    (hmid.afterEvents _)
  simp only [inTwoPasses, hstart, ok_bind, hfirst, hrestart, hsecond, hend, List.map_append,
    SharedPool.answers_append, ReplaySummary.countAll_append, ← replayed_append k _ _ count]
  rfl

/-- What a keeper that has replayed nothing leaves when it carries out some events, each of them
once and in order, and how many it counts. -/
structure CarriesOut (k : Keeper) (events : List PoolEvent) (state : KeeperState)
    (summary : ReplaySummary) : Prop where
  pool : state.pool = (k.shared.afterEvents events).books.pool.snapshot
  escrow : state.escrow = (k.shared.afterEvents events).books.escrow
  counted : state.eventsApplied.val = events.length
  applied : summary.applied = ((k.shared.answers events).filter Except.isOk).length
  total : summary.applied + summary.failed = events.length

theorem carriesOut_replayed (k : Keeper) {events : List PoolEvent} {total : Count}
    (htotal : total.val = events.length) :
    CarriesOut k events (k.replayed events total).stored
      (ReplaySummary.zero.countAll (k.shared.answers events)) where
  pool := rfl
  escrow := rfl
  counted := htotal
  applied := by
    rw [ReplaySummary.countAll_eq]
    exact Nat.zero_add _
  total := by
    have hlength := List.length_eq_length_filter_add (l := k.shared.answers events) Except.isOk
    rw [SharedPool.length_answers] at hlength
    rw [ReplaySummary.countAll_eq, hlength]
    simp only [ReplaySummary.zero]
    omega

/-- Settings that make sense, and a journal of events, of a length that a text can have, that is
split at the end of a line: replaying it in two parts, with a new start between them, leaves and
counts what one pass does, and that is what all its events do when each is carried out once and in
order.  A journal with a line that is no event, among those not replayed yet, changes nothing. -/
theorem replay_split (hs : s.validate = .ok ()) (hfirst : Text.EndsLine first.toList)
    (hread : Journal.read (first ++ rest) 0 = .ok entries)
    (hsize : (first ++ rest).length < Bounded.bound 64) (dryRun dryRun' : Bool) :
    (∃ k state summary, start s dryRun none = .ok k ∧
      CarriesOut k (entries.map (·.event)) state summary ∧
      inOnePass s dryRun (first ++ rest) = .ok (state, summary) ∧
      inTwoPasses s dryRun dryRun' first rest = .ok (state, summary)) ∧
    ∀ (k : Keeper) (files : KeeperFiles) (journal : String), files.journal = some journal →
      (∃ l ∈ (Journal.numberedLines journal.toList).drop k.eventsApplied.val, ∃ fault,
        Journal.readEntry l = .error fault) →
        ∃ line, k.process files = (.error (.journal line), k, files) := by
  refine ⟨?_, fun k files journal hjournal ⟨l, hl, _, hbad⟩ => process_malformed hjournal hl hbad⟩
  obtain ⟨k, hstart⟩ := start_of_validate hs dryRun
  obtain ⟨before, later, rfl, hbefore, hlater⟩ := Journal.read_append hfirst hread
  have hlength := Journal.length_le_of_read hread
  obtain ⟨total, htotal⟩ : ∃ total : Count, total.val = (before ++ later).length :=
    ⟨⟨_, Nat.lt_of_le_of_lt hlength hsize⟩, rfl⟩
  exact ⟨k, _, _, hstart, carriesOut_replayed k (by rw [htotal, List.length_map]),
    inOnePass_eq hstart hread htotal,
    inTwoPasses_eq hstart hbefore hlater (by rw [htotal, List.length_append])⟩

def depositLine : String :=
  "\x7b\"submit\":\x7b\"sender\":\"0x0000000000000000000000000000000000000005\"," ++
    "\"amount\":\"1_000\"\x7d\x7d\n"

/-- A claim of a request that does not exist, after a line without an event. -/
def claimLines : String := "\n\x7b\"claim\":\x7b\"request_id\":0\x7d\x7d"

theorem replay_split_rejected :
    KeeperSettings.sample.validate = .ok () ∧
      Journal.read (depositLine ++ claimLines) 0 =
        .ok [⟨1, .submit (.ofCount 5) 1000⟩, ⟨3, .claim 0 none⟩] ∧
      (∃ k state summary, start .sample true none = .ok k ∧
        CarriesOut k [.submit (.ofCount 5) 1000, .claim 0 none] state summary ∧
        inOnePass .sample true (depositLine ++ claimLines) = .ok (state, summary) ∧
        inTwoPasses .sample true false depositLine claimLines = .ok (state, summary)) := by
  have hvalid : KeeperSettings.sample.validate = .ok () := by decide +kernel
  have hread : Journal.read (depositLine ++ claimLines) 0 =
      .ok [⟨1, .submit (.ofCount 5) 1000⟩, ⟨3, .claim 0 none⟩] := by decide +kernel
  have hends : depositLine.toList.getLast? = some '\n' := by decide +kernel
  have hsize : (depositLine ++ claimLines).length < Bounded.bound 64 := by decide +kernel
  exact ⟨hvalid, hread, (replay_split hvalid (.inr hends) hread hsize true false).1⟩

end Keeper
end LiquidStaking

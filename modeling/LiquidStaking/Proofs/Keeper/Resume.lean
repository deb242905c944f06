/-
Going on where a keeper stopped.

A keeper on a pool that was run from the start can always store its state, and a keeper that starts
from what was stored has the same pool, escrow and count.
-/
import LiquidStaking.Proofs.Keeper.Journal
import LiquidStaking.Proofs.Keeper.Start
import LiquidStaking.Proofs.Wire.Pool
import LiquidStaking.Proofs.Wire.Refusals

namespace LiquidStaking

instance : LawfulWire KeeperState where
  read_write s := by
    refine (Row.read_bind (by rfl) (by simp) _).trans ?_
    simp [List.lookup_cons, ok_bind]

theorem KeeperState.ofText_toText (s : KeeperState) : ofText s.toText = .ok s :=
  Wire.ofText_pretty s

/-- No state is lost or changed by being stored, in either layout: whatever the pool and the escrow
hold, what is read is the state that was written. -/
theorem KeeperState.stored_faithfully (s : KeeperState) :
    ofText (Wire.write s).compact = .ok s ∧ ofText (Wire.write s).pretty = .ok s :=
  ⟨Wire.ofText_compact s, s.ofText_toText⟩

variable {policy : PoolPolicy}

theorem SharedPool.Live.restored {s : SharedPool} (hs : s.Live policy) :
    Pool.ofSnapshot s.books.pool.snapshot = .ok s.books.pool :=
  Pool.ofSnapshot_snapshot hs.reached.sound hs.reached.governed hs.reached.validate

/-- A shared pool that is set up anew with the same books and grants is the same. -/
theorem SharedPool.Live.create_eq {s : SharedPool} (hs : s.Live policy) :
    SharedPool.create s.books s.access = s := by
  have hview := hs.view
  have husable := hs.usable
  obtain ⟨books, access, view, poisoned⟩ := s
  simp only at hview husable
  rw [hview, husable]
  rfl

namespace Keeper

variable {k : Keeper}

/-- The state that a keeper with a usable lock stores. -/
def stored (k : Keeper) : KeeperState :=
  ⟨k.shared.books.pool.snapshot, k.shared.books.escrow, k.eventsApplied⟩

theorem state_eq (hk : k.shared.Live policy) : k.state = .ok k.stored := by
  simp only [state, SharedPool.snapshot, SharedPool.escrow, hk.locked_eq, ok_bind]
  rfl

theorem persist_eq (hk : k.shared.Live policy) (files : KeeperFiles) :
    k.persist files = .ok { files with snapshot := some k.stored.toText } := by
  simp only [persist, state_eq hk, ok_bind]
  rfl

theorem persistAfter_eq (hk : k.shared.Live policy) (summary : ReplaySummary)
    (files : KeeperFiles) :
    ∃ snapshot, k.persistAfter summary files = .ok { files with snapshot } := by
  unfold persistAfter
  split
  · exact ⟨files.snapshot, rfl⟩
  · exact ⟨_, persist_eq hk files⟩

/-- A keeper that starts from what another one stored goes on with its pool, escrow and count. -/
theorem start_stored {settings : KeeperSettings} (hk : k.shared.Live policy)
    (haccess : settings.access = .ok k.shared.access) (dryRun : Bool) :
    start settings dryRun (some k.stored.toText) = .ok { k with dryRun } := by
  have hresume : resume k.stored k.shared.access dryRun = .ok { k with dryRun } := by
    have hpool : Pool.ofSnapshot k.stored.pool = .ok k.shared.books.pool := hk.restored
    rw [resume, hpool, ok_bind]
    show Except.ok (Keeper.mk (.create k.shared.books k.shared.access) _ _) = _
    rw [hk.create_eq]
    rfl
  have hgranted : settings.access.mapError KeeperFault.pool = .ok k.shared.access :=
    mapError_eq_ok.2 haccess
  have hresumed : (resume k.stored k.shared.access dryRun).mapError KeeperFault.pool =
      .ok { k with dryRun } := mapError_eq_ok.2 hresume
  have hstored : (KeeperState.ofText k.stored.toText).mapError (KeeperFault.ofMisread .stored) =
      .ok k.stored := mapError_eq_ok.2 k.stored.ofText_toText
  simp only [start, hgranted, hstored, ok_bind, hresumed]

/-- A pass over a journal of events carries out those beyond the ones replayed so far, each of them
once and in order. -/
theorem process_eq (hk : k.shared.Live policy) {journal : String} {entries : List JournalEntry}
    (hread : Journal.read journal k.eventsApplied.val = .ok entries) {total : Count}
    (htotal : total.val = k.eventsApplied.val + entries.length) (snapshot : Option String) :
    ∃ snapshot', k.process ⟨some journal, snapshot⟩ =
      (.ok (ReplaySummary.zero.countAll (k.shared.answers (entries.map (·.event)))),
        k.replayed (entries.map (·.event)) total, ⟨some journal, snapshot'⟩) := by
  have hreplay := replay_eq (entries.map (·.event)) .zero hk total
    (by rw [List.length_map]; exact htotal)
  obtain ⟨snapshot', hpersist⟩ := persistAfter_eq
    (k := k.replayed (entries.map (·.event)) total) (hk.afterEvents _)
    (ReplaySummary.zero.countAll (k.shared.answers (entries.map (·.event))))
    ⟨some journal, snapshot⟩
  refine ⟨snapshot', ?_⟩
  simp only [process, hread, hreplay, hpersist]

/-- A line that is not an event, among those that are still to be replayed, ends a pass before
anything happens. -/
theorem process_malformed {files : KeeperFiles} {journal : String}
    (hjournal : files.journal = some journal) {l : List Char × Nat}
    (hl : l ∈ (Journal.numberedLines journal.toList).drop k.eventsApplied.val) {fault : KeeperFault}
    (hbad : Journal.readEntry l = .error fault) :
    ∃ line, k.process files = (.error (.journal line), k, files) := by
  obtain ⟨fault, hread⟩ := mapM_eq_error hbad hl
  have hread : Journal.read journal k.eventsApplied.val = .error fault := hread
  obtain ⟨line, rfl⟩ := Journal.read_fails journal k.eventsApplied.val fault hread
  exact ⟨line, by simp only [process, hjournal, hread]⟩

end Keeper
end LiquidStaking

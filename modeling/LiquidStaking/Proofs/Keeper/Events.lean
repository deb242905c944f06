/-
Events on a shared pool.

On a pool that was run from the start an event is refused, and then nothing happened, or its
operation is done.  Replaying events is therefore carrying them out one after the other, and no
event ends a pass.
-/
import LiquidStaking.Keeper.Replay
import LiquidStaking.Proofs.Pool.Shared

namespace LiquidStaking

variable {policy : PoolPolicy} {s : SharedPool}

theorem PoolEvent.apply_cases (hs : s.Live policy) (e : PoolEvent) :
    (∃ cause, e.apply s = (.error (.refused cause), s)) ∨
      ∃ reply b', s.books.run e.operation = (.ok reply, b') ∧
        e.apply s = (.ok reply, { s with books := b', view := .ofPool b'.pool }) := by
  have happly : (∃ cause, e.apply s = (.error (.refused cause), s)) ∨
      e.apply s = s.write e.operation := by
    unfold apply
    split
    · exact SharedPool.performFor_cases s _ _
    · exact .inr rfl
  rcases happly with hrefused | happly
  · exact .inl hrefused
  · rw [happly]
    exact hs.write_cases e.operation

namespace SharedPool

def afterEvents (s : SharedPool) (events : List PoolEvent) : SharedPool :=
  events.foldl (fun s e => (e.apply s).2) s

def answers : SharedPool → List PoolEvent → List (Except Failure Reply)
  | _, [] => []
  | s, e :: es => (e.apply s).1 :: answers (e.apply s).2 es

theorem afterEvents_append (s : SharedPool) (es es' : List PoolEvent) :
    s.afterEvents (es ++ es') = (s.afterEvents es).afterEvents es' := List.foldl_append

theorem answers_append (es' : List PoolEvent) : ∀ (es : List PoolEvent) (s : SharedPool),
    s.answers (es ++ es') = s.answers es ++ (s.afterEvents es).answers es'
  | [], _ => rfl
  | e :: es, s => congrArg ((e.apply s).1 :: ·) (answers_append es' es (e.apply s).2)

theorem length_answers : ∀ (es : List PoolEvent) (s : SharedPool),
    (s.answers es).length = es.length
  | [], _ => rfl
  | e :: es, s => congrArg Nat.succ (length_answers es (e.apply s).2)

namespace Live

theorem apply (hs : s.Live policy) (e : PoolEvent) : Live policy (e.apply s).2 := by
  rcases e.apply_cases hs with ⟨cause, h⟩ | ⟨reply, b', hrun, h⟩
  · rw [h]
    exact hs
  · rw [h]
    exact hs.done hrun

theorem apply_ne_halted (hs : s.Live policy) (e : PoolEvent) : (e.apply s).1 ≠ .error .halted := by
  rcases e.apply_cases hs with ⟨cause, h⟩ | ⟨reply, b', -, h⟩
  · rw [h]
    exact fun hhalted => nomatch hhalted
  · rw [h]
    exact fun hhalted => nomatch hhalted

theorem afterEvents : ∀ (es : List PoolEvent) {s : SharedPool}, s.Live policy →
    Live policy (s.afterEvents es)
  | [], _, hs => hs
  | e :: es, _, hs => afterEvents es (hs.apply e)

theorem access_apply (hs : s.Live policy) (e : PoolEvent) : (e.apply s).2.access = s.access := by
  rcases e.apply_cases hs with ⟨cause, h⟩ | ⟨reply, b', -, h⟩
  · rw [h]
  · rw [h]

theorem access_afterEvents : ∀ (es : List PoolEvent) {s : SharedPool}, s.Live policy →
    (s.afterEvents es).access = s.access
  | [], _, _ => rfl
  | e :: es, _, hs => (access_afterEvents es (hs.apply e)).trans (hs.access_apply e)

end Live
end SharedPool

namespace ReplaySummary

def countAll (s : ReplaySummary) (results : List (Except Failure Reply)) : ReplaySummary :=
  results.foldl count s

def add (s s' : ReplaySummary) : ReplaySummary := ⟨s.applied + s'.applied, s.failed + s'.failed⟩

theorem count_add (s s' : ReplaySummary) (result : Except Failure Reply) :
    (s.add s').count result = s.add (s'.count result) := by
  cases result <;> rfl

theorem countAll_add (s : ReplaySummary) : ∀ (results : List (Except Failure Reply))
    (s' : ReplaySummary), (s.add s').countAll results = s.add (s'.countAll results)
  | [], _ => rfl
  | result :: results, s' => by
    show ((s.add s').count result).countAll results = _
    rw [count_add]
    exact countAll_add s results (s'.count result)

theorem countAll_append (results results' : List (Except Failure Reply)) :
    zero.countAll (results ++ results') =
      (zero.countAll results).add (zero.countAll results') := by
  rw [← countAll_add]
  exact List.foldl_append

theorem countAll_eq : ∀ (results : List (Except Failure Reply)) (s : ReplaySummary),
    s.countAll results = ⟨s.applied + (results.filter Except.isOk).length,
      s.failed + (results.filter (fun result => !result.isOk)).length⟩
  | [], _ => rfl
  | .ok reply :: results, s => by
    show (s.count (.ok reply)).countAll results = _
    rw [countAll_eq results]
    simp only [count, mk.injEq]
    refine ⟨?_, rfl⟩
    show s.applied + 1 + _ = s.applied + ((results.filter Except.isOk).length + 1)
    omega
  | .error failure :: results, s => by
    show (s.count (.error failure)).countAll results = _
    rw [countAll_eq results]
    simp only [count, mk.injEq]
    refine ⟨rfl, ?_⟩
    show s.failed + 1 + _ =
      s.failed + ((results.filter (fun result => !result.isOk)).length + 1)
    omega

end ReplaySummary

namespace Keeper

variable {k : Keeper}

/-- The keeper after some events, with the count of all events so far. -/
def replayed (k : Keeper) (events : List PoolEvent) (total : Count) : Keeper :=
  { k with shared := k.shared.afterEvents events, eventsApplied := total }

theorem replayed_append (k : Keeper) (es es' : List PoolEvent) (total total' : Count) :
    (k.replayed es total).replayed es' total' = k.replayed (es ++ es') total' := by
  simp only [replayed, SharedPool.afterEvents_append]

/-- As long as the count of events has room, every event is carried out and counted. -/
theorem replay_eq : ∀ (es : List PoolEvent) (summary : ReplaySummary) {k : Keeper},
    k.shared.Live policy → ∀ (total : Count), total.val = k.eventsApplied.val + es.length →
      k.replay summary es =
        (.ok (summary.countAll (k.shared.answers es)), k.replayed es total)
  | [], summary, k, _, total, htotal => by
    rw [show total = k.eventsApplied from Bounded.ext htotal]
    rfl
  | e :: es, summary, k, hk, total, htotal => by
    rw [List.length_cons] at htotal
    -- The count after this event is at most the total, which is a count.
    have hlt : k.eventsApplied.val + 1 < Bounded.bound 64 :=
      Nat.lt_of_le_of_lt (by omega) total.isLt
    have hnext : k.eventsApplied.next = .ok ⟨k.eventsApplied.val + 1, hlt⟩ :=
      Bounded.next_eq_ok_iff.2 rfl
    have hrest := replay_eq es (summary.count (e.apply k.shared).1)
      (k := k.replayed [e] ⟨k.eventsApplied.val + 1, hlt⟩) (hk.apply e) total
      (by show total.val = k.eventsApplied.val + 1 + es.length; omega)
    rw [replayed_append, List.singleton_append] at hrest
    have hne := hk.apply_ne_halted e
    unfold replay
    split
    · next h =>
      rw [h] at hne
      exact absurd rfl hne
    · next result shared _ h =>
      have hstep : k.replayed [e] ⟨k.eventsApplied.val + 1, hlt⟩ =
          { k with shared, eventsApplied := ⟨k.eventsApplied.val + 1, hlt⟩ } := by
        show Keeper.mk (e.apply k.shared).2 _ _ = _
        rw [h]
      simp only [hnext]
      rw [← hstep, show result = (e.apply k.shared).1 by rw [h]]
      exact hrest

/-- Whatever ends a pass, the pool is the one after the first events of it. -/
theorem replay_shared : ∀ (es : List PoolEvent) (summary : ReplaySummary) (k : Keeper),
    ∃ done, done <+: es ∧ (k.replay summary es).2.shared = k.shared.afterEvents done
  | [], _, _ => ⟨[], List.prefix_rfl, rfl⟩
  | e :: es, summary, k => by
    unfold replay
    split
    · next shared h =>
      refine ⟨[e], ⟨es, rfl⟩, ?_⟩
      show shared = (e.apply k.shared).2
      rw [h]
    · next result shared _ h =>
      split
      · refine ⟨[e], ⟨es, rfl⟩, ?_⟩
        show shared = (e.apply k.shared).2
        rw [h]
      · next eventsApplied _ =>
        obtain ⟨done, hdone, hshared⟩ :=
          replay_shared es (summary.count result) { k with shared, eventsApplied }
        refine ⟨e :: done, List.cons_prefix_cons.2 ⟨rfl, hdone⟩, ?_⟩
        show _ = (e.apply k.shared).2.afterEvents done
        rw [hshared, h]

/-- A pass changes the pool by some events and by nothing else. -/
theorem process_shared (k : Keeper) (files : KeeperFiles) :
    ∃ events, (k.process files).2.1.shared = k.shared.afterEvents events := by
  unfold process
  split
  · exact ⟨[], rfl⟩
  · split
    · exact ⟨[], rfl⟩
    · next entries _ =>
      obtain ⟨done, -, hshared⟩ := k.replay_shared (entries.map (·.event)) .zero
      refine ⟨done, ?_⟩
      rw [← hshared]
      split
      · next h => rw [h]
      · next h =>
        rw [h]
        split <;> rfl

/-- The keeper after some passes, each with the files of its moment. -/
def after (k : Keeper) (passes : List KeeperFiles) : Keeper :=
  passes.foldl (fun k files => (k.process files).2.1) k

theorem after_shared : ∀ (passes : List KeeperFiles) (k : Keeper),
    ∃ events, (k.after passes).shared = k.shared.afterEvents events
  | [], _ => ⟨[], rfl⟩
  | files :: passes, k => by
    obtain ⟨events, hpass⟩ := k.process_shared files
    obtain ⟨later, hlater⟩ := after_shared passes (k.process files).2.1
    refine ⟨events ++ later, ?_⟩
    show ((k.process files).2.1.after passes).shared = _
    rw [hlater, hpass, SharedPool.afterEvents_append]

end Keeper
end LiquidStaking

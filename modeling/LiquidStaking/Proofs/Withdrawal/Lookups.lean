/-
Three ways to look up a price.

A scan from the end, a bisection and the check of a hint all agree on a history that was recorded
batch by batch, since its runs stand in order.  A request has a price unless it comes after all of
them.
-/
import LiquidStaking.Proofs.Traversal
import LiquidStaking.Proofs.Withdrawal.Desk
import LiquidStaking.Proofs.Withdrawal.Search

namespace LiquidStaking

namespace PriceHistory

variable {h h' : PriceHistory} {last : Count} {poolValue shares : Amount} {n : Nat}

/-- Record batches one after the other, each given as a run of its own.  One that fails leaves the
history as it was. -/
def recordEach (h : PriceHistory) : List PriceRun → PriceHistory
  | [] => h
  | b :: rest =>
    match h.record b.last b.poolValue b.shares with
    | .ok h' => h'.recordEach rest
    | .error _ => h.recordEach rest

theorem recordEach_keeps {P : PriceHistory → Prop} :
    ∀ {batches : List PriceRun} {h : PriceHistory},
      (∀ h b h', b ∈ batches → P h → h.record b.last b.poolValue b.shares = .ok h' → P h') →
        P h → P (h.recordEach batches)
  | [], _, _, hh => hh
  | b :: rest, h, hstep, hh => by
    have hrest : ∀ h b h', b ∈ rest → P h → h.record b.last b.poolValue b.shares = .ok h' →
        P h' := fun h b h' hb => hstep h b h' (List.mem_cons_of_mem _ hb)
    unfold recordEach
    cases e : h.record b.last b.poolValue b.shares with
    | ok h' => exact recordEach_keeps hrest (hstep h b h' List.mem_cons_self hh e)
    | error failure => exact recordEach_keeps hrest hh

theorem recordEach_valid (batches : List PriceRun) : ∃ n, (empty.recordEach batches).Valid n :=
  recordEach_keeps (P := fun h => ∃ n, h.Valid n) (fun _ _ _ _ ⟨_, hv⟩ e => ⟨_, hv.record e⟩)
    ⟨0, empty_valid⟩

/-! ### Nothing halts -/

/-- Whether counting on from the end of every run stays within the width of a count. -/
def Continues (h : PriceHistory) : Prop := ∀ r ∈ h.runs, r.last.val + 1 < Bounded.bound 64

theorem Continues.record (hc : h.Continues) (hlast : last.val + 1 < Bounded.bound 64)
    (e : h.record last poolValue shares = .ok h') : h'.Continues := by
  obtain ⟨-, -, ⟨hruns, -⟩ | ⟨rs, before, hold, hruns, -⟩⟩ := record_eq_ok e
  · intro r hr
    rw [hruns] at hr
    rcases List.mem_append.1 hr with hr | hr
    · exact hc r hr
    · rw [List.mem_singleton.1 hr]
      exact hlast
  · intro r hr
    rw [hruns] at hr
    rcases List.mem_append.1 hr with hr | hr
    · exact hc r (hold ▸ List.mem_append_left _ hr)
    · rw [List.mem_singleton.1 hr]
      exact hlast

/-- A batch that is not recorded is refused: the range in the fault has a start. -/
theorem Continues.record_refuses (hc : h.Continues) (last : Count) (poolValue shares : Amount) :
    FailsOnly Failure.IsRefusal (h.record last poolValue shares) := by
  unfold PriceHistory.record
  refine Failure.lift_bind_refuses (fun price => ?_)
  cases hl : h.runs.getLast? with
  | none => exact .pure _
  | some before =>
    have hbefore := hc before (List.mem_of_getLast? hl)
    dsimp only
    by_cases hle : last.val ≤ before.last.val
    · -- The range starts after the last run, and halts only where that number does not fit.
      have hbehind : behind before.last last =
          .refused (.invalidRange last.val (before.last.val + 1) (last.val + 1)) := by
        rw [behind, Bounded.next_eq_ok hbefore]
      rw [if_pos hle, throw_eq, hbehind]
      exact .error ⟨_, rfl⟩
    · rw [if_neg hle]
      refine Failure.lift_bind_refuses (fun earlier => ?_)
      split
      · exact .pure _
      · exact .pure _

/-! ### The lookups agree -/

/-- Whether a request comes after all that have a price. -/
def LeavesUnpriced (h : PriceHistory) (request : Nat) : Prop :=
  h.runs = [] ∨ ∃ r, h.runs.getLast? = some r ∧ r.last.val < request

theorem covering_lt_iff (hv : h.Valid n) {request : Nat} :
    h.covering request < h.size ↔ ¬ h.LeavesUnpriced request := by
  have hends := hv.ends
  constructor
  · rintro hlt (hnil | ⟨r, hr, hless⟩)
    · rw [size, hnil] at hlt
      exact Nat.not_lt_zero _ hlt
    · have hreach : reaches request h.runs[h.covering request] = true := List.findIdx_getElem
      have hlast := hv.last_lt (List.getElem_mem hlt)
      rw [hr, Option.elim_some] at hends
      simp only [reaches, decide_eq_true_eq] at hreach
      omega
  · intro hpriced
    refine hv.covering_lt ?_
    cases hl : h.runs.getLast? with
    | none => exact absurd (.inl (List.getLast?_eq_none_iff.1 hl)) hpriced
    | some r =>
      rw [hl, Option.elim_some] at hends
      have hle : ¬ r.last.val < request := fun hless => hpriced (.inr ⟨r, hl, hless⟩)
      omega

/-- What a lookup does that finds the run of a request, and knows when there is none. -/
structure Finds (h : PriceHistory) (find : Count → Except Fault Nat) : Prop where
  ok_iff : ∀ (request : Count) (i : Nat), find request = .ok i ↔ h.isValidHint i request = true
  error_iff : ∀ (request : Count) (fault : Fault), find request = .error fault ↔
    fault = .priceNotFound request.val ∧ h.LeavesUnpriced request.val

theorem Valid.finds (hv : h.Valid n) {find : Count → Except Fault Nat}
    (hfind : ∀ request, find request = if h.covering request.val < h.size
      then .ok (h.covering request.val) else .error (.priceNotFound request.val)) :
    h.Finds find := by
  refine ⟨fun request i => ?_, fun request fault => ?_⟩
  · rw [hfind, isValidHint_iff hv.ordered]
    by_cases hlt : h.covering request.val < h.size
    · rw [if_pos hlt]
      constructor
      · intro hi
        cases hi
        exact ⟨hlt, rfl⟩
      · intro hi
        rw [hi.2]
    · rw [if_neg hlt]
      constructor
      · intro hi
        cases hi
      · intro hi
        exact absurd (hi.2 ▸ hi.1) hlt
  · rw [hfind, ← Classical.not_not (a := h.LeavesUnpriced request.val), ← covering_lt_iff hv]
    by_cases hlt : h.covering request.val < h.size
    · simp [hlt]
    · simp [hlt, eq_comm]

theorem Valid.findIndexed_eq_findLinear (hv : h.Valid n) (request : Count) :
    h.findIndexed request = h.findLinear request :=
  (findIndexed_eq hv.ordered request).trans (findLinear_eq hv.ordered request).symm

end PriceHistory

namespace WithdrawalQueue

variable {q : WithdrawalQueue}

theorem findPriceHints_eq {n : Nat} (hv : q.prices.Valid n) (ids : List Count) :
    q.findPriceHints ids = ids.mapM q.findPriceHint := by
  have hsame : q.findPriceHintIndexed = q.findPriceHint := by
    funext id
    unfold findPriceHintIndexed findPriceHint
    rw [hv.findIndexed_eq_findLinear]
  rw [findPriceHints, hsame]

end WithdrawalQueue

namespace PriceHistory

/-- However batches are recorded, none of them at the last number there is, no record halts, and the
scan, the bisection and the check of a hint agree for every request, as do the hints for a list of
requests of a queue with these prices. -/
theorem lookups_agree (batches : List PriceRun)
    (hlast : ∀ b ∈ batches, b.last.val + 1 < Bounded.bound 64) :
    (empty.recordEach batches).Finds (empty.recordEach batches).findLinear ∧
      (empty.recordEach batches).Finds (empty.recordEach batches).findIndexed ∧
      (∀ (q : WithdrawalQueue) (ids : List Count), q.prices = empty.recordEach batches →
        q.findPriceHints ids = ids.mapM q.findPriceHint ∧
          (q.Valid → (∀ id ∈ ids, id.val < q.finalizedCount.val) →
            ∃ hints, q.findPriceHints ids = .ok hints ∧
              List.Forall₂ (fun id hint => q.findPriceHint id = .ok hint) ids hints)) ∧
      ∀ last poolValue shares,
        FailsOnly Failure.IsRefusal ((empty.recordEach batches).record last poolValue shares) := by
  obtain ⟨n, hv⟩ := recordEach_valid batches
  have hcontinues : (empty.recordEach batches).Continues :=
    recordEach_keeps (fun h b h' hb hc e => hc.record (hlast b hb) e)
      (fun r hr => absurd hr List.not_mem_nil)
  refine ⟨hv.finds (findLinear_eq hv.ordered), hv.finds (findIndexed_eq hv.ordered), ?_,
    hcontinues.record_refuses⟩
  intro q ids hprices
  have hhints := WithdrawalQueue.findPriceHints_eq (hprices ▸ hv) ids
  refine ⟨hhints, fun hq hids => ?_⟩
  obtain ⟨hints, hok⟩ := exists_mapM_eq_ok (fun id hid => ⟨_, hq.findPriceHint_eq (hids id hid)⟩)
  exact ⟨hints, hhints.trans hok, mapM_eq_ok_iff.1 hok⟩

/-- Two batches at one price, two that are refused, and one at another price. -/
def joiningBatches : List PriceRun :=
  [⟨100, 50, 2⟩, ⟨10, 5, 4⟩, ⟨7, 7, 4⟩, ⟨3, Bounded.zero, 6⟩, ⟨30, 10, 8⟩]

/-- Nine requests, finalized in these batches. -/
def joiningQueue : WithdrawalQueue :=
  ((WithdrawalDesk.opened ⟨Bounded.zero, 100⟩ (.ofBalance 90)).after
    (List.replicate 9 (.enqueue .zero 10 5 Bounded.zero) ++
      joiningBatches.map (fun b => .finalize b.last 10 b.poolValue b.shares 90))).queue

theorem lookups_agree_joining :
    (∀ b ∈ joiningBatches, b.last.val + 1 < Bounded.bound 64) ∧
      (empty.recordEach joiningBatches).runs = [⟨100, 50, 4⟩, ⟨30, 10, 8⟩] ∧
      (empty.recordEach joiningBatches).Finds (empty.recordEach joiningBatches).findLinear ∧
      (empty.recordEach joiningBatches).findIndexed 4 = .ok 0 ∧
      (empty.recordEach joiningBatches).findIndexed 5 = .ok 1 ∧
      (empty.recordEach joiningBatches).findIndexed 9 = .error (.priceNotFound 9) ∧
      joiningQueue.Valid ∧ joiningQueue.prices = empty.recordEach joiningBatches ∧
      joiningQueue.findPriceHints [8, 4, 5] = .ok [1, 0, 1] := by
  have hlast : ∀ b ∈ joiningBatches, b.last.val + 1 < Bounded.bound 64 := by decide
  have hruns : (empty.recordEach joiningBatches).runs = [⟨100, 50, 4⟩, ⟨30, 10, 8⟩] := by
    decide +kernel
  have hvalid : joiningQueue.Valid := WithdrawalDesk.valid_after _ _ _
  have hprices : joiningQueue.prices = empty.recordEach joiningBatches := by decide +kernel
  obtain ⟨hlinear, hindexed, hhints, -⟩ := lookups_agree joiningBatches hlast
  obtain ⟨hints, hall, heach⟩ :=
    (hhints joiningQueue [8, 4, 5] hprices).2 hvalid (by decide +kernel)
  have hsame : hints = [1, 0, 1] := by
    refine Except.ok.inj ((mapM_eq_ok_iff.2 heach).symm.trans ?_)
    decide +kernel
  refine ⟨hlast, hruns, hlinear, (hindexed.ok_iff 4 0).2 ?_, (hindexed.ok_iff 5 1).2 ?_,
    (hindexed.error_iff 9 _).2 ⟨rfl, .inr ⟨⟨30, 10, 8⟩, ?_, ?_⟩⟩, hvalid, hprices,
    hsame ▸ hall⟩
  · decide +kernel
  · decide +kernel
  · rw [hruns]
    rfl
  · decide

end PriceHistory
end LiquidStaking

/-
How a queue stands in memory, whatever was done to it.

The ledger, the price runs and the count of finalized requests are three structures that different
operations write.  They agree in every state that requests, batches and claims can leave, also when
a batch is finalized at numbers that no settlement asked for.
-/
import LiquidStaking.Proofs.Withdrawal.Desk
import LiquidStaking.Proofs.Withdrawal.Search

namespace LiquidStaking

/-- The ways a request may go in one step. -/
inductive RequestStatus.Leads : RequestStatus → RequestStatus → Prop
  | stay (s : RequestStatus) : Leads s s
  | finalize : Leads .queued .finalized
  | claim : Leads .finalized .claimed

namespace WithdrawalQueue

variable {q q' : WithdrawalQueue}

/-- What holds of the ledger, the runs and the counters of a queue under some limits. -/
structure Consistent (q : WithdrawalQueue) (limits : WithdrawalLimits) : Prop where
  numbered : ∀ (i : Nat) (r : WithdrawalRequest), q.requests[i]? = some r → r.id.val = i
  ether : ∀ (i : Nat) (r : WithdrawalRequest), q.requests[i]? = some r →
    q.etherUpTo i + limits.min.val < r.cumulativeEther.val ∧
      r.cumulativeEther.val ≤ q.etherUpTo i + limits.max.val
  shares : ∀ (i : Nat) (r : WithdrawalRequest), q.requests[i]? = some r →
    q.sharesUpTo i ≤ r.cumulativeShares.val
  finalized : q.finalizedCount.val ≤ q.length
  claimed : ∀ r ∈ q.requests, r.claimed = true → r.id.val < q.finalizedCount.val
  ordered : q.prices.runs.Pairwise (fun a b => a.last.val < b.last.val)
  priced : ∀ run ∈ q.prices.runs, ∃ price, run.price = .ok price
  distinct : q.prices.runs.IsChain (fun a b => a.price ≠ b.price)
  unpriced : q.prices.runs = [] ↔ q.finalizedCount.val = 0
  ends : ∀ run ∈ q.prices.runs.getLast?, run.last.val + 1 = q.finalizedCount.val
  /-- One run covers a finalized request, and every way to look for it finds it. -/
  covered : ∀ id : Count, id.val < q.finalizedCount.val →
    ∃ i, (∀ j, q.prices.Covers j id.val ↔ j = i) ∧
      (∀ j, q.prices.isValidHint j id = true ↔ j = i) ∧
      q.findPriceHint id = .ok i ∧ q.findPriceHintIndexed id = .ok i

/-- Whether an entry of the ledger says the same, its claimed flag aside. -/
structure SameEntry (r r' : WithdrawalRequest) : Prop where
  id : r'.id = r.id
  cumulativeEther : r'.cumulativeEther = r.cumulativeEther
  cumulativeShares : r'.cumulativeShares = r.cumulativeShares
  recipient : r'.recipient = r.recipient
  createdAt : r'.createdAt = r.createdAt

/-- Whether every request of a queue is still there in another one, where it says the same and its
status is the same or the next one. -/
def Advances (q q' : WithdrawalQueue) : Prop :=
  ∀ (i : Nat) (r : WithdrawalRequest), q.requests[i]? = some r →
    ∃ r', q'.requests[i]? = some r' ∧ SameEntry r r' ∧
      ∃ s s', q.status r.id = .ok s ∧ q'.status r.id = .ok s' ∧ s.Leads s'

theorem SameEntry.refl (r : WithdrawalRequest) : SameEntry r r := ⟨rfl, rfl, rfl, rfl, rfl⟩

theorem Valid.consistent (hv : q.Valid) : q.Consistent q.limits where
  numbered := hv.numbered
  ether := fun i r hr => by
    have hstep := hv.limited i (List.getElem?_eq_some_iff.1 hr).1
    rw [etherUpTo_succ hr] at hstep
    exact hstep
  shares := fun i r hr => by
    have hstep := hv.growing i (List.getElem?_eq_some_iff.1 hr).1
    rw [sharesUpTo_succ hr] at hstep
    exact hstep
  finalized := hv.reached
  claimed := fun r hr hclaimed => by
    obtain ⟨i, hi⟩ := List.mem_iff_getElem?.1 hr
    rw [hv.numbered i r hi]
    by_cases hlt : i < q.finalizedCount.val
    · exact hlt
    · rw [hv.unclaimed i r hi (Nat.not_lt.1 hlt)] at hclaimed
      cases hclaimed
  ordered := hv.priced.ordered
  priced := fun run hrun => PriceRun.exists_price (hv.priced.priced run hrun)
  distinct := hv.priced.distinct
  unpriced := by
    constructor
    · intro hnil
      rw [hv.priced.ends, hnil]
      rfl
    · intro hzero
      refine List.eq_nil_iff_forall_not_mem.2 (fun run hrun => ?_)
      have := hv.priced.last_lt hrun
      omega
  ends := fun run hrun => by
    rw [hv.priced.ends, Option.mem_def.1 hrun]
    rfl
  covered := fun id hid => by
    have hlt := hv.priced.covering_lt hid
    have hordered := hv.priced.ordered
    refine ⟨q.prices.covering id.val, fun j => ?_, fun j => ?_, ?_, ?_⟩
    · rw [PriceHistory.covers_iff hordered]
      exact ⟨fun h => h.2.symm, fun h => ⟨h ▸ hlt, h.symm⟩⟩
    · rw [PriceHistory.isValidHint_iff hordered]
      exact ⟨fun h => h.2.symm, fun h => ⟨h ▸ hlt, h.symm⟩⟩
    · exact hv.findPriceHint_eq hid
    · rw [findPriceHintIndexed, if_neg (Nat.not_le.2 hid), PriceHistory.findIndexed_eq hordered,
        if_pos hlt]

/- The status of a request is its flag and its place. -/

theorem status_eq {id : Count} {r : WithdrawalRequest} (hr : q.requests[id.val]? = some r) :
    q.status id = .ok (if r.claimed then .claimed
      else if id.val < q.finalizedCount.val then .finalized else .queued) := by
  rw [status, request_eq_ok_iff.2 hr]
  rfl

/-- A request that an operation leaves alone keeps its status, unless it becomes finalized. -/
theorem status_leads {id : Count} {r : WithdrawalRequest} (hr : q.requests[id.val]? = some r)
    (hr' : q'.requests[id.val]? = some r)
    (hcount : q.finalizedCount.val ≤ q'.finalizedCount.val) :
    ∃ s s', q.status id = .ok s ∧ q'.status id = .ok s' ∧ s.Leads s' := by
  refine ⟨_, _, status_eq hr, status_eq hr', ?_⟩
  by_cases hclaimed : r.claimed = true
  · rw [if_pos hclaimed, if_pos hclaimed]
    exact .stay _
  · rw [if_neg hclaimed, if_neg hclaimed]
    by_cases hold : id.val < q.finalizedCount.val
    · rw [if_pos hold, if_pos (Nat.lt_of_lt_of_le hold hcount)]
      exact .stay _
    · rw [if_neg hold]
      by_cases hnew : id.val < q'.finalizedCount.val
      · rw [if_pos hnew]
        exact .finalize
      · rw [if_neg hnew]
        exact .stay _

theorem Valid.advances_refl (hv : q.Valid) : q.Advances q := by
  intro i r hr
  have hid := hv.numbered i r hr
  exact ⟨r, hr, .refl r, status_leads (hid ▸ hr) (hid ▸ hr) (Nat.le_refl _)⟩

theorem Valid.advances (hv : q.Valid) (h : q.Changes q') : q.Advances q' := by
  intro i r hr
  have hid := hv.numbered i r hr
  subst hid
  cases h with
  | enqueue h =>
    obtain ⟨-, -, -, -, e, s, -, -, hq⟩ := enqueue_eq_ok_iff.1 h
    have hcount : q'.finalizedCount = q.finalizedCount := by rw [hq]
    have hr' : q'.requests[r.id.val]? = some r := by
      rw [hq, List.getElem?_append_left (List.getElem?_eq_some_iff.1 hr).1]
      exact hr
    exact ⟨r, hr', .refl r, status_leads hr hr' (by rw [hcount])⟩
  | finalize h =>
    obtain ⟨hfirst, -, -, hreq, -, hcount, -, -, -⟩ := finalize_eq_ok h
    have hr' : q'.requests[r.id.val]? = some r := hreq ▸ hr
    exact ⟨r, hr', .refl r, status_leads hr hr' (by omega)⟩
  | @claim id hint escrow escrow' receipt h =>
    obtain ⟨paid, -, locked, -, hfin, hpaid, hclaimed, -, -, -, -, -, rfl⟩ := claim_eq_ok_iff.1 h
    have hmark := q.getElem?_markClaimed id.val r.id.val
    rw [hr, Option.map_some] at hmark
    by_cases hsame : id.val = r.id.val
    · rw [if_pos hsame] at hmark
      rw [hsame, hr] at hpaid
      cases hpaid
      refine ⟨_, hmark, ⟨rfl, rfl, rfl, rfl, rfl⟩, _, _, status_eq hr, status_eq hmark, ?_⟩
      have hnot : ¬ r.claimed = true := by simp [hclaimed]
      rw [if_neg hnot, if_pos (hsame ▸ hfin), if_pos rfl]
      exact .claim
    · rw [if_neg hsame] at hmark
      exact ⟨r, hmark, .refl r, status_leads hr hmark (Nat.le_refl _)⟩

end WithdrawalQueue

namespace WithdrawalDesk

/-- Ledger, runs and counters agree after every run, and each move leaves the requests there are
with what they say, none of them further than its next status. -/
theorem representation_kept (limits : WithdrawalLimits) (escrow : Escrow) (moves : List Move) :
    ((opened limits escrow).after moves).queue.Consistent limits ∧
      ∀ m : Move, ((opened limits escrow).after moves).queue.Advances
        (((opened limits escrow).after moves).move m).queue := by
  have hv := valid_after limits escrow moves
  refine ⟨?_, fun m => ?_⟩
  · have hconsistent := hv.consistent
    rw [limits_after] at hconsistent
    exact hconsistent
  · rcases queue_move ((opened limits escrow).after moves) m with hsame | hchange
    · rw [hsame]
      exact hv.advances_refl
    · exact hv.advances hchange

/-- Two batches of one rate, which share a run, and one of another. -/
def sharedRunMoves : List Move :=
  [.enqueue .zero 100 300 Bounded.zero, .enqueue .zero 100 300 Bounded.zero,
    .enqueue .zero 100 300 Bounded.zero, .finalize Bounded.zero 100 1 3 1000,
    .finalize 1 7 2 6 1000, .finalize 2 Bounded.zero 1 2 1000, .claim 1 none]

theorem representation_kept_sharedRun :
    ((opened ⟨Bounded.zero, 1000⟩ (.ofBalance 1000)).after sharedRunMoves).queue.prices.runs =
        [⟨1, 3, 1⟩, ⟨1, 2, 2⟩] ∧
      ((opened ⟨Bounded.zero, 1000⟩ (.ofBalance 1000)).after sharedRunMoves).queue.Consistent
        ⟨Bounded.zero, 1000⟩ ∧
      ((opened ⟨Bounded.zero, 1000⟩ (.ofBalance 1000)).after sharedRunMoves).queue.Advances
        (((opened ⟨Bounded.zero, 1000⟩ (.ofBalance 1000)).after sharedRunMoves).move
          (.claim Bounded.zero none)).queue := by
  obtain ⟨hconsistent, hadvances⟩ :=
    representation_kept ⟨Bounded.zero, 1000⟩ (.ofBalance 1000) sharedRunMoves
  exact ⟨by decide +kernel, hconsistent, hadvances (.claim Bounded.zero none)⟩

end WithdrawalDesk
end LiquidStaking

/-
Claims.

What a claim pays is settled by the request and the run that covers it.  A hint only says where to
look first, a payment that fails leaves the request open, and one that succeeds closes it for good.
-/
import LiquidStaking.Proofs.Escrow
import LiquidStaking.Proofs.Withdrawal.Desk
import LiquidStaking.Proofs.Withdrawal.Search

namespace LiquidStaking

namespace Escrow

variable {e e' : Escrow}

/-- How a payment changes an escrow. -/
structure Pays (e e' : Escrow) (recipient : Address) (amount : Amount) : Prop where
  balance : e'.balance.val + amount.val = e.balance.val
  credit : (e'.paidTo recipient).val = (e.paidTo recipient).val + amount.val
  others : ∀ a, a ≠ recipient → e'.paid.get? a = e.paid.get? a
  rejecting : e'.rejecting = e.rejecting

theorem transfer_eq_ok {recipient : Address} {amount : Amount}
    (h : e.transfer recipient amount = .ok e') : e.Pays e' recipient amount := by
  obtain ⟨-, balance, credit, hbalance, hcredit, rfl⟩ := transfer_eq_ok_iff.1 h
  refine ⟨hbalance.symm, ?_, fun a ha => ?_, rfl⟩
  · rw [paidTo_insert, if_pos rfl]
    exact hcredit
  · show (e.paid.insert recipient credit).get? a = e.paid.get? a
    rw [AddressMap.get?_insert, if_neg ha]

end Escrow

namespace WithdrawalQueue

variable {q q' : WithdrawalQueue}

def isClaimed (q : WithdrawalQueue) (id : Nat) : Bool := q.requests[id]?.any (·.claimed)

theorem Changes.isClaimed_mono (h : q.Changes q') {id : Nat} (hid : q.isClaimed id = true) :
    q'.isClaimed id = true := by
  obtain ⟨r, hr, hclaimed⟩ := (Option.any_eq_true _ _).1 hid
  cases h with
  | enqueue h =>
    obtain ⟨-, -, -, -, e, s, -, -, rfl⟩ := enqueue_eq_ok_iff.1 h
    rw [isClaimed, List.getElem?_append_left (List.getElem?_eq_some_iff.1 hr).1]
    exact hid
  | finalize h =>
    obtain ⟨-, -, -, hreq, -, -, -, -, -⟩ := finalize_eq_ok h
    rw [isClaimed, hreq]
    exact hid
  | claim h =>
    obtain ⟨-, -, -, -, -, -, -, -, -, -, -, -, rfl⟩ := claim_eq_ok_iff.1 h
    rw [isClaimed, getElem?_markClaimed, hr, Option.map_some, Option.any_some]
    split
    · rfl
    · exact hclaimed

/-- A claim that succeeds finds its request open and leaves it claimed. -/
theorem isClaimed_claim {id : Count} {hint : Option Nat} {escrow escrow' : Escrow}
    {receipt : ClaimReceipt} (h : q.claim id hint escrow = .ok (receipt, q', escrow')) :
    receipt.requestId = id ∧ q.isClaimed id.val = false ∧ q'.isClaimed id.val = true := by
  obtain ⟨r, -, -, -, -, hr, hclaimed, -, -, -, -, rfl, rfl⟩ := claim_eq_ok_iff.1 h
  refine ⟨rfl, ?_, ?_⟩
  · rw [isClaimed, hr, Option.any_some, hclaimed]
  · rw [isClaimed, getElem?_markClaimed, hr, Option.map_some, if_pos rfl, Option.any_some]

namespace Valid

theorem claimablePriceIndex_hint (hv : q.Valid) (id : Count) (hint hint' : Option Nat) :
    q.claimablePriceIndex id hint = q.claimablePriceIndex id hint' := by
  unfold claimablePriceIndex
  by_cases hfin : q.finalizedCount.val ≤ id.val
  · rw [if_pos hfin, if_pos hfin]
  · rw [if_neg hfin, if_neg hfin, hv.priceIndex_eq (Nat.not_le.1 hfin) hint,
      hv.priceIndex_eq (Nat.not_le.1 hfin) hint']

theorem claim_hint (hv : q.Valid) (id : Count) (hint hint' : Option Nat) (escrow : Escrow) :
    q.claim id hint escrow = q.claim id hint' escrow := by
  unfold WithdrawalQueue.claim
  rw [hv.claimablePriceIndex_hint id hint hint']

theorem claimableEther_hint (hv : q.Valid) (id : Count) (hint hint' : Option Nat) :
    q.claimableEther id hint = q.claimableEther id hint' := by
  unfold claimableEther
  rw [hv.claimablePriceIndex_hint id hint hint']

end Valid

end WithdrawalQueue

namespace WithdrawalDesk

/-- Whether a receipt is for what request `r` is worth at the rate of `run`, and nothing changed
but what the payment takes: the flag of the request, the ether locked, and the escrow. -/
structure Pays (d d' : WithdrawalDesk) (receipt : ClaimReceipt) (r : WithdrawalRequest)
    (run : PriceRun) : Prop where
  request : d.queue.requests[receipt.requestId.val]? = some r
  covering : ∃ i, d.queue.prices.runs[i]? = some run ∧
    ∀ j, d.queue.prices.Covers j receipt.requestId.val ↔ j = i
  recipient : receipt.recipient = r.recipient
  amount : receipt.amount.val = min (d.queue.etherOf receipt.requestId.val)
    (d.queue.sharesOf receipt.requestId.val * run.poolValue.val / run.shares.val)
  queue : d'.queue = { d.queue with
    requests := d.queue.markClaimed receipt.requestId.val
    totalLocked := d'.queue.totalLocked }
  locked : d'.queue.totalLocked.val + receipt.amount.val = d.queue.totalLocked.val
  escrow : d.escrow.Pays d'.escrow receipt.recipient receipt.amount

variable {d : WithdrawalDesk}

theorem pays_of_claim (hv : d.queue.Valid) {id : Count} {hint : Option Nat}
    {receipt : ClaimReceipt} {queue : WithdrawalQueue} {escrow : Escrow}
    (h : d.queue.claim id hint d.escrow = .ok (receipt, queue, escrow)) :
    ∃ r run, d.Pays ⟨queue, escrow⟩ receipt r run := by
  obtain ⟨r, index, locked, amount, hfin, hr, -, hindex, hpayout, hlocked, htransfer, rfl, rfl⟩ :=
    WithdrawalQueue.claim_eq_ok_iff.1 h
  obtain ⟨rate, hrate, -⟩ := hv.priced.rateFor_isSome hfin
  rw [hv.priceIndex_eq hfin] at hindex
  cases hindex
  have hamount := ((hv.payout_eq_ok_iff hfin hrate).1 hpayout).2
  rw [PriceHistory.rateFor_eq_covering] at hrate
  obtain ⟨run, hrun, rfl⟩ := Option.map_eq_some_iff.1 hrate
  refine ⟨r, run, hr, ⟨_, hrun, fun j => ?_⟩, rfl, hamount, rfl, hlocked.symm,
    Escrow.transfer_eq_ok htransfer⟩
  rw [PriceHistory.covers_iff hv.priced.ordered]
  exact ⟨fun hj => hj.2.symm, fun hj => ⟨hj ▸ hv.priced.covering_lt hfin, hj.symm⟩⟩

/-- The receipts that a run hands out. -/
def receipts : WithdrawalDesk → List Move → List ClaimReceipt
  | _, [] => []
  | d, .claim id hint :: rest =>
    match (d.claim id hint).1 with
    | .ok receipt => receipt :: receipts (d.move (.claim id hint)) rest
    | .error _ => receipts (d.move (.claim id hint)) rest
  | d, m :: rest => receipts (d.move m) rest

theorem isClaimed_move {id : Nat} (h : d.queue.isClaimed id = true) (m : Move) :
    (d.move m).queue.isClaimed id = true := by
  rcases d.queue_move m with hsame | hchange
  · rw [hsame]
    exact h
  · exact hchange.isClaimed_mono h

/-- A run pays no request twice, and none that was claimed before it. -/
theorem receipts_once : ∀ (moves : List Move) (d : WithdrawalDesk),
    ((d.receipts moves).map (·.requestId)).Nodup ∧
      ∀ receipt ∈ d.receipts moves, d.queue.isClaimed receipt.requestId.val = false
  | [], _ => ⟨List.nodup_nil, fun _ h => nomatch h⟩
  | m :: rest, d => by
    obtain ⟨hnodup, hopen⟩ := receipts_once rest (d.move m)
    -- What is open after the move was open before it.
    have hbefore : ∀ receipt ∈ receipts (d.move m) rest,
        d.queue.isClaimed receipt.requestId.val = false := by
      intro receipt hmem
      refine Bool.eq_false_iff.2 (fun hclaimed => ?_)
      have hafter := hopen receipt hmem
      rw [isClaimed_move hclaimed m] at hafter
      cases hafter
    cases m with
    | enqueue => exact ⟨hnodup, hbefore⟩
    | finalize => exact ⟨hnodup, hbefore⟩
    | escrow => exact ⟨hnodup, hbefore⟩
    | claim id hint =>
      have hmove : d.move (.claim id hint) = (d.claim id hint).2 := rfl
      rcases d.claim_cases id hint with ⟨cause, h⟩ | ⟨receipt, queue, escrow, hok, h⟩
      · have hsame : d.receipts (.claim id hint :: rest) =
            receipts (d.move (.claim id hint)) rest := by
          simp only [receipts, h]
        rw [hsame]
        exact ⟨hnodup, hbefore⟩
      · have hcons : d.receipts (.claim id hint :: rest) =
            receipt :: receipts (d.move (.claim id hint)) rest := by
          simp only [receipts, h]
        obtain ⟨hid, hwas, hnow⟩ := WithdrawalQueue.isClaimed_claim hok
        rw [hcons, List.map_cons, List.nodup_cons]
        refine ⟨⟨fun hmem => ?_, hnodup⟩, fun other hother => ?_⟩
        · obtain ⟨other, hother, hsame⟩ := List.mem_map.1 hmem
          have hafter := hopen other hother
          rw [hsame, hid, hmove, h, hnow] at hafter
          cases hafter
        · rcases List.mem_cons.1 hother with rfl | hother
          · rw [hid]
            exact hwas
          · exact hbefore other hother

/-- Hints do not matter, a claim pays exactly what its request is worth and changes nothing else,
one that fails changes nothing, and no request is paid twice. -/
theorem claims_exact (limits : WithdrawalLimits) (escrow : Escrow) (moves : List Move) :
    (∀ id hint hint',
      ((opened limits escrow).after moves).claim id hint =
          ((opened limits escrow).after moves).claim id hint' ∧
        ((opened limits escrow).after moves).queue.claimableEther id hint =
          ((opened limits escrow).after moves).queue.claimableEther id hint') ∧
    (∀ id hint receipt, (((opened limits escrow).after moves).claim id hint).1 = .ok receipt →
      receipt.requestId = id ∧ ∃ r run, ((opened limits escrow).after moves).Pays
        (((opened limits escrow).after moves).claim id hint).2 receipt r run) ∧
    (∀ id hint cause, (((opened limits escrow).after moves).claim id hint).1 = .error cause →
      (((opened limits escrow).after moves).claim id hint).2 =
        (opened limits escrow).after moves) ∧
    (((opened limits escrow).receipts moves).map (·.requestId)).Nodup := by
  have hv := valid_after limits escrow moves
  generalize (opened limits escrow).after moves = d at hv
  refine ⟨fun id hint hint' => ⟨?_, hv.claimableEther_hint id hint hint'⟩,
    fun id hint receipt hok => ?_, fun id hint cause hfail => ?_,
    (receipts_once moves (opened limits escrow)).1⟩
  · rw [claim, claim, hv.claim_hint id hint hint']
  · rcases d.claim_cases id hint with ⟨cause, h⟩ | ⟨receipt', queue, escrow', hclaim, h⟩
    · rw [h] at hok
      cases hok
    · rw [h] at hok ⊢
      cases hok
      exact ⟨(WithdrawalQueue.isClaimed_claim hclaim).1, pays_of_claim hv hclaim⟩
  · rcases d.claim_cases id hint with ⟨cause', h⟩ | ⟨receipt', queue, escrow', hclaim, h⟩
    · rw [h]
    · rw [h] at hfail
      cases hfail

/-- Two requests in a batch at a third, and a claim that is rejected, retried and repeated. -/
def retriedMoves : List Move :=
  [.enqueue .zero 100 150 Bounded.zero, .enqueue .zero 100 450 Bounded.zero,
    .finalize 1 150 1 3 150,
    .escrow (·.reject .zero), .claim Bounded.zero none,
    .escrow (·.accept .zero), .claim Bounded.zero (some 7), .claim Bounded.zero none]

theorem claims_exact_retried :
    ((opened ⟨Bounded.zero, 1000⟩ (.ofBalance 150)).receipts retriedMoves).map (·.amount.val) =
        [50] ∧
      (((opened ⟨Bounded.zero, 1000⟩ (.ofBalance 150)).receipts retriedMoves).map
        (·.requestId)).Nodup ∧
      ((opened ⟨Bounded.zero, 1000⟩ (.ofBalance 150)).after retriedMoves).claim 1 none =
        ((opened ⟨Bounded.zero, 1000⟩ (.ofBalance 150)).after retriedMoves).claim 1 (some 7) ∧
      ∃ receipt r run, receipt.amount.val = 100 ∧
        ((opened ⟨Bounded.zero, 1000⟩ (.ofBalance 150)).after retriedMoves).Pays
          (((opened ⟨Bounded.zero, 1000⟩ (.ofBalance 150)).after retriedMoves).claim 1 none).2
          receipt r run := by
  obtain ⟨hhints, hpays, -, honce⟩ :=
    claims_exact ⟨Bounded.zero, 1000⟩ (.ofBalance 150) retriedMoves
  have hpaid : (((opened ⟨Bounded.zero, 1000⟩ (.ofBalance 150)).after retriedMoves).claim 1
      none).1 = .ok ⟨1, .zero, 100⟩ := by decide +kernel
  obtain ⟨-, r, run, hrun⟩ := hpays 1 none ⟨1, .zero, 100⟩ hpaid
  exact ⟨by decide +kernel, honce, (hhints 1 none (some 7)).1, _, r, run, rfl, hrun⟩

end WithdrawalDesk
end LiquidStaking

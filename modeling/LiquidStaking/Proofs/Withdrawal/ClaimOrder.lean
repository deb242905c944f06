/-
The order of claims.

What a claim pays is settled before any of them, and payments add up, so two claims that are next
to each other can be swapped.  All orders of some claims then hand out the same receipts and leave
the same queue and escrow.
-/
import LiquidStaking.Proofs.Escrow
import LiquidStaking.Proofs.Withdrawal.Claims
import Mathlib.Data.List.Nodup

namespace LiquidStaking

namespace WithdrawalQueue

variable {q q' q'' : WithdrawalQueue} {escrow escrow' escrow'' : Escrow}
  {receipt receipt' : ClaimReceipt} {id other : Count} {hint hint' : Option Nat}

/-- A claim that succeeds pays what the request could claim before. -/
theorem claim_eq_ok_iff_claimable :
    q.claim id hint escrow = .ok (receipt, q', escrow') ↔
      ∃ r totalLocked amount, q.requests[id.val]? = some r ∧
        q.claimableEther id hint = .ok amount ∧
        q.totalLocked.val = totalLocked.val + amount.val ∧
        escrow.transfer r.recipient amount = .ok escrow' ∧
        receipt = ⟨id, r.recipient, amount⟩ ∧
        q' = { q with requests := q.markClaimed id.val, totalLocked } := by
  rw [claim_eq_ok_iff]
  constructor
  · rintro ⟨r, index, totalLocked, amount, hfin, hr, hclaimed, hindex, hpayout, hrest⟩
    exact ⟨r, totalLocked, amount, hr,
      claimableEther_eq_ok_iff.2 ⟨r, index, hfin, hr, hclaimed, hindex, hpayout⟩, hrest⟩
  · rintro ⟨r, totalLocked, amount, hr, hclaimable, hrest⟩
    obtain ⟨r', index, hfin, hr', hclaimed, hindex, hpayout⟩ :=
      claimableEther_eq_ok_iff.1 hclaimable
    cases Option.some.inj (hr.symm.trans hr')
    exact ⟨r, index, totalLocked, amount, hfin, hr, hclaimed, hindex, hpayout, hrest⟩

theorem markClaimed_markClaimed (hq : q'.requests = q.markClaimed id.val)
    (hq' : q''.requests = q.markClaimed other.val) :
    q'.markClaimed other.val = q''.markClaimed id.val := by
  refine List.ext_getElem? (fun i => ?_)
  rw [getElem?_markClaimed, getElem?_markClaimed, hq, hq', getElem?_markClaimed,
    getElem?_markClaimed, Option.map_map, Option.map_map]
  congr 1
  funext r
  by_cases hid : id.val = i <;> by_cases hother : other.val = i <;> simp [hid, hother]

namespace Valid

/-- What one request can claim does not depend on whether another is claimed. -/
theorem claimableEther_markClaimed (hv : q.Valid) (hfin : id.val < q.finalizedCount.val)
    (hne : other ≠ id) (locked : Amount) {amount : Amount} :
    ({ q with requests := q.markClaimed id.val, totalLocked := locked } :
        WithdrawalQueue).claimableEther other hint = .ok amount ↔
      q.claimableEther other hint = .ok amount := by
  have hval : id.val ≠ other.val := fun heq => hne (Bounded.ext heq.symm)
  rw [(hv.markClaimed hfin locked).claimableEther_eq_ok_iff, hv.claimableEther_eq_ok_iff]
  generalize hq : ({ q with requests := q.markClaimed id.val, totalLocked := locked } :
    WithdrawalQueue) = q'
  have hreq : q'.requests = q.markClaimed id.val := by rw [← hq]
  have hcount : q'.finalizedCount = q.finalizedCount := by rw [← hq]
  have hprices : q'.prices = q.prices := by rw [← hq]
  obtain ⟨hether, hshares⟩ : q'.etherOf other.val = q.etherOf other.val ∧
      q'.sharesOf other.val = q.sharesOf other.val :=
    etherOf_sharesOf_congr (fun n _ => upTo_markClaimed hreq n)
  have hworth : ∀ rate, q'.worth other.val rate = q.worth other.val rate := by
    intro rate
    rw [worth, worth, hether, hshares]
  have hrequest : q'.requests[other.val]? = q.requests[other.val]? := by
    rw [hreq, getElem?_markClaimed_of_ne q hval]
  simp only [hcount, hprices, hshares, hworth, hrequest]

/-- Two claims that succeed one after the other succeed in the other order, with the same
receipts. -/
theorem claim_swap (hv : q.Valid)
    (h : q.claim id hint escrow = .ok (receipt, q', escrow'))
    (h' : q'.claim other hint' escrow' = .ok (receipt', q'', escrow'')) :
    ∃ middle paid, q.claim other hint' escrow = .ok (receipt', middle, paid) ∧
      middle.claim id hint paid = .ok (receipt, q'', escrow'') := by
  have hne : other ≠ id := by
    rintro rfl
    have hclaimed := (isClaimed_claim h).2.2
    rw [(isClaimed_claim h').2.1] at hclaimed
    cases hclaimed
  have hval : id.val ≠ other.val := fun heq => hne (Bounded.ext heq.symm)
  obtain ⟨r, locked, amount, hr, hclaimable, hlocked, htransfer, hreceipt, rfl⟩ :=
    claim_eq_ok_iff_claimable.1 h
  obtain ⟨s, locked', amount', hs, hclaimable', hlocked', htransfer', hreceipt', rfl⟩ :=
    claim_eq_ok_iff_claimable.1 h'
  have hfin := (hv.claimableEther_eq_ok_iff.1 hclaimable).1
  simp only [getElem?_markClaimed_of_ne q hval] at hs hlocked'
  rw [hv.claimableEther_markClaimed hfin hne] at hclaimable'
  have hfin' := (hv.claimableEther_eq_ok_iff.1 hclaimable').1
  obtain ⟨paid, hpaid, hrest⟩ := Escrow.transfer_swap htransfer htransfer'
  obtain ⟨between, hbetween⟩ : ∃ between : Amount, between.val = locked'.val + amount.val :=
    Bounded.exists_val (by have := q.totalLocked.isLt; omega)
  refine ⟨_, paid, claim_eq_ok_iff_claimable.2
    ⟨s, between, amount', hs, hclaimable', by omega, hpaid, hreceipt', rfl⟩,
    claim_eq_ok_iff_claimable.2 ⟨r, locked', amount, ?_, ?_, hbetween, hrest, hreceipt, ?_⟩⟩
  · exact (getElem?_markClaimed_of_ne q (Ne.symm hval)).trans hr
  · rw [hv.claimableEther_markClaimed hfin' (Ne.symm hne)]
    exact hclaimable
  · congr 1
    exact markClaimed_markClaimed rfl rfl

end Valid

end WithdrawalQueue

namespace WithdrawalDesk

/-- Claim one request after the other, each with a hint, until one fails.  Answers the receipts and
the desk that is left. -/
def claimEach (d : WithdrawalDesk) :
    List (Count × Option Nat) → Except Fault (List ClaimReceipt × WithdrawalDesk)
  | [] => .ok ([], d)
  | (id, hint) :: rest => do
    let (receipt, queue, escrow) ← d.queue.claim id hint d.escrow
    let (receipts, d') ← claimEach ⟨queue, escrow⟩ rest
    return (receipt :: receipts, d')

variable {d d' : WithdrawalDesk} {receipts : List ClaimReceipt}

theorem claimEach_cons_eq_ok_iff {id : Count} {hint : Option Nat}
    {rest : List (Count × Option Nat)} :
    d.claimEach ((id, hint) :: rest) = .ok (receipts, d') ↔
      ∃ receipt queue escrow others,
        d.queue.claim id hint d.escrow = .ok (receipt, queue, escrow) ∧
        claimEach ⟨queue, escrow⟩ rest = .ok (others, d') ∧ receipts = receipt :: others := by
  rw [claimEach, bind_eq_ok]
  constructor
  · rintro ⟨⟨receipt, queue, escrow⟩, hclaim, h⟩
    obtain ⟨⟨others, left⟩, hrest, h⟩ := bind_eq_ok.1 h
    cases pure_eq_ok.1 h
    exact ⟨receipt, queue, escrow, others, hclaim, hrest, rfl⟩
  · rintro ⟨receipt, queue, escrow, others, hclaim, hrest, rfl⟩
    exact ⟨_, hclaim, bind_eq_ok.2 ⟨_, hrest, rfl⟩⟩

theorem requestIds_claimEach : ∀ {claims : List (Count × Option Nat)} {d : WithdrawalDesk}
    {receipts : List ClaimReceipt}, d.claimEach claims = .ok (receipts, d') →
      receipts.map (·.requestId) = claims.map (·.1)
  | [], d, receipts, h => by
    cases h
    rfl
  | (id, hint) :: rest, d, receipts, h => by
    obtain ⟨receipt, queue, escrow, others, hclaim, hrest, rfl⟩ := claimEach_cons_eq_ok_iff.1 h
    rw [List.map_cons, List.map_cons, requestIds_claimEach hrest,
      (WithdrawalQueue.isClaimed_claim hclaim).1]

theorem claimEach_hints : ∀ (claims : List (Count × Option Nat)) {d : WithdrawalDesk},
    d.queue.Valid → d.claimEach claims = d.claimEach (claims.map (fun c => (c.1, none)))
  | [], _, _ => rfl
  | (id, hint) :: rest, d, hv => by
    rw [List.map_cons, claimEach, claimEach, hv.claim_hint id hint none]
    cases hclaim : d.queue.claim id none d.escrow with
    | error cause => rfl
    | ok out =>
      obtain ⟨receipt, queue, escrow⟩ := out
      rw [ok_bind, ok_bind]
      simp only [claimEach_hints rest (d := ⟨queue, escrow⟩) (hv.claim hclaim)]

theorem claimEach_perm {claims claims' : List (Count × Option Nat)} (hperm : claims.Perm claims')
    (hv : d.queue.Valid) (h : d.claimEach claims = .ok (receipts, d')) :
    ∃ receipts', d.claimEach claims' = .ok (receipts', d') ∧ receipts.Perm receipts' := by
  induction hperm generalizing d receipts with
  | nil => exact ⟨receipts, h, .refl _⟩
  | cons c _ ih =>
    obtain ⟨receipt, queue, escrow, others, hclaim, hrest, rfl⟩ := claimEach_cons_eq_ok_iff.1 h
    obtain ⟨others', hrest', hothers⟩ := ih (hv.claim hclaim) hrest
    exact ⟨_, claimEach_cons_eq_ok_iff.2 ⟨receipt, queue, escrow, others', hclaim, hrest', rfl⟩,
      hothers.cons receipt⟩
  | swap c c' rest =>
    obtain ⟨receipt, queue, escrow, others, hclaim, hrest, rfl⟩ := claimEach_cons_eq_ok_iff.1 h
    obtain ⟨receipt', queue', escrow', others', hclaim', hrest', rfl⟩ :=
      claimEach_cons_eq_ok_iff.1 hrest
    obtain ⟨middle, paid, hfirst, hsecond⟩ := hv.claim_swap hclaim hclaim'
    exact ⟨_, claimEach_cons_eq_ok_iff.2 ⟨receipt', middle, paid, _, hfirst,
      claimEach_cons_eq_ok_iff.2 ⟨receipt, queue', escrow', others', hsecond, hrest', rfl⟩, rfl⟩,
      .swap receipt' receipt others'⟩
  | trans _ _ ih ih' =>
    obtain ⟨middle, hmiddle, hperm⟩ := ih hv h
    obtain ⟨receipts', hlast, hperm'⟩ := ih' hv hmiddle
    exact ⟨receipts', hlast, hperm.trans hperm'⟩

/-- Claims of different requests that succeed in one order succeed in every other, whatever the
hints.  Each request gets the same receipt, and the desk that is left is the same. -/
theorem claims_commute (limits : WithdrawalLimits) (escrow : Escrow) (moves : List Move)
    {d d' : WithdrawalDesk} (hd : d = (opened limits escrow).after moves)
    {claims claims' : List (Count × Option Nat)} (hdistinct : (claims.map (·.1)).Nodup)
    (horder : (claims.map (·.1)).Perm (claims'.map (·.1))) {receipts : List ClaimReceipt}
    (h : d.claimEach claims = .ok (receipts, d')) :
    ∃ receipts', d.claimEach claims' = .ok (receipts', d') ∧
      receipts.map (·.requestId) = claims.map (·.1) ∧
      receipts'.map (·.requestId) = claims'.map (·.1) ∧
      ∀ receipt ∈ receipts, ∀ receipt' ∈ receipts', receipt.requestId = receipt'.requestId →
        receipt = receipt' := by
  have hv : d.queue.Valid := hd ▸ valid_after limits escrow moves
  have hids := requestIds_claimEach h
  -- Without the hints the claims are the same ones in another order.
  have hplain : (claims.map (fun c => (c.1, (none : Option Nat)))).Perm
      (claims'.map (fun c => (c.1, none))) := by
    have hmap := horder.map (fun id => (id, (none : Option Nat)))
    rwa [List.map_map, List.map_map] at hmap
  rw [claimEach_hints claims hv] at h
  obtain ⟨receipts', h', hsame⟩ := claimEach_perm hplain hv h
  rw [← claimEach_hints claims' hv] at h'
  refine ⟨receipts', h', hids, requestIds_claimEach h', ?_⟩
  intro receipt hreceipt receipt' hreceipt' heq
  exact List.inj_on_of_nodup_map (hids ▸ hdistinct) hreceipt (hsame.mem_iff.2 hreceipt') heq

/-- Three requests of two recipients, in batches at two rates. -/
def twoRateMoves : List Move :=
  [.enqueue .zero 100 150 Bounded.zero, .enqueue (.ofCount 1) 100 100 Bounded.zero,
    .enqueue .zero 60 70 Bounded.zero, .finalize Bounded.zero 50 1 3 210,
    .finalize 2 160 1 1 210]

def atTwoRates : WithdrawalDesk := (opened ⟨Bounded.zero, 1000⟩ (.ofBalance 210)).after twoRateMoves

def inOrder : List (Count × Option Nat) := [(Bounded.zero, none), (1, some 1), (2, some 7)]

def lastFirst : List (Count × Option Nat) := [(2, none), (Bounded.zero, some 1), (1, none)]

/-- The recipient of the first and the last request is paid both, whichever comes first. -/
theorem claims_commute_two_rates :
    ∃ receipts receipts' d', atTwoRates.claimEach inOrder = .ok (receipts, d') ∧
      atTwoRates.claimEach lastFirst = .ok (receipts', d') ∧
      receipts.map (·.amount.val) = [50, 100, 60] ∧
      receipts'.map (·.requestId) = [2, Bounded.zero, 1] ∧
      (d'.escrow.paidTo .zero).val = 110 ∧ d'.escrow.balance.val = 0 ∧
      ∀ receipt ∈ receipts, ∀ receipt' ∈ receipts', receipt.requestId = receipt'.requestId →
        receipt = receipt' := by
  obtain ⟨⟨receipts, d'⟩, hclaims, hpaid⟩ := exists_ok_of_any (atTwoRates.claimEach inOrder)
    (fun out => out.1.map (·.amount.val) == [50, 100, 60] &&
      ((out.2.escrow.paidTo .zero).val == 110 && out.2.escrow.balance.val == 0))
    (by decide +kernel)
  simp only [Bool.and_eq_true, beq_iff_eq] at hpaid
  obtain ⟨hamounts, hcredit, hempty⟩ := hpaid
  have hdistinct : (inOrder.map (·.1)).Nodup := by decide
  have horder : (inOrder.map (·.1)).Perm (lastFirst.map (·.1)) := by decide
  obtain ⟨receipts', hother, -, hids, hsame⟩ := claims_commute ⟨Bounded.zero, 1000⟩
    (.ofBalance 210) twoRateMoves rfl hdistinct horder hclaims
  exact ⟨receipts, receipts', d', hclaims, hother, hamounts, hids, hcredit, hempty, hsame⟩

end WithdrawalDesk
end LiquidStaking

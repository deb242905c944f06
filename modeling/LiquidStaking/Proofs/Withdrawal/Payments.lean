/-
What the requests of a queue were paid.

A finalized request is paid once, what it is worth at the rate of its run, and that is settled when
its batch is recorded.  All payments together stay within the ether that was asked for.
-/
import LiquidStaking.Proofs.Withdrawal.Claims
import Mathlib.Algebra.BigOperators.Intervals
import Mathlib.Algebra.Order.BigOperators.Group.Finset

namespace LiquidStaking
namespace WithdrawalQueue

open Finset

variable {q q' : WithdrawalQueue}

/-- What the steps of a growing total add to it, from one place to another. -/
theorem sum_steps {f : Nat → Nat} {bound m n : Nat} (hstep : ∀ i < bound, f i ≤ f (i + 1))
    (hmn : m ≤ n) (hn : n ≤ bound) : ∑ i ∈ Ico m n, (f (i + 1) - f i) + f m = f n := by
  induction n, hmn using Nat.le_induction with
  | base => rw [Ico_self, sum_empty, Nat.zero_add]
  | succ n hmn ih =>
    rw [sum_Ico_succ_top hmn, Nat.add_right_comm, ih (Nat.le_of_succ_le hn),
      Nat.add_sub_cancel' (hstep n hn)]

theorem sum_etherOf (hv : q.Valid) {m n : Nat} (hmn : m ≤ n) (hn : n ≤ q.length) :
    ∑ i ∈ Ico m n, q.etherOf i + q.etherUpTo m = q.etherUpTo n := sum_steps hv.gaining hmn hn

theorem sum_sharesOf (hv : q.Valid) {m n : Nat} (hmn : m ≤ n) (hn : n ≤ q.length) :
    ∑ i ∈ Ico m n, q.sharesOf i + q.sharesUpTo m = q.sharesUpTo n :=
  sum_steps hv.growing hmn hn

/- What an operation leaves alone. -/

theorem Changes.upTo_eq (h : q.Changes q') {n : Nat} (hn : n ≤ q.length) :
    q'.etherUpTo n = q.etherUpTo n ∧ q'.sharesUpTo n = q.sharesUpTo n := by
  cases h with
  | enqueue h =>
    obtain ⟨-, -, -, -, e, s, -, -, rfl⟩ := enqueue_eq_ok_iff.1 h
    exact upTo_append hn rfl
  | finalize h =>
    obtain ⟨-, -, -, hreq, -, -, -, -, -⟩ := finalize_eq_ok h
    exact upTo_of_requests hreq n
  | claim h =>
    obtain ⟨-, -, -, -, -, -, -, -, -, -, -, -, rfl⟩ := claim_eq_ok_iff.1 h
    exact upTo_markClaimed rfl n

theorem Changes.of_eq (h : q.Changes q') {i : Nat} (hi : i < q.length) :
    q'.etherOf i = q.etherOf i ∧ q'.sharesOf i = q.sharesOf i :=
  etherOf_sharesOf_congr (fun _ hn => h.upTo_eq (Nat.le_trans hn hi))

theorem Changes.rateFor_eq (h : q.Changes q') (hv : q.Valid) {i : Nat}
    (hi : i < q.finalizedCount.val) : q'.prices.rateFor i = q.prices.rateFor i := by
  cases h with
  | enqueue h =>
    obtain ⟨-, -, -, -, e, s, -, -, rfl⟩ := enqueue_eq_ok_iff.1 h
    rfl
  | finalize h =>
    obtain ⟨-, -, -, -, -, -, -, -, hprices⟩ := finalize_eq_ok h
    exact hv.priced.rateFor_record_of_lt hprices hi
  | claim h =>
    obtain ⟨-, -, -, -, -, -, -, -, -, -, -, -, rfl⟩ := claim_eq_ok_iff.1 h
    rfl

theorem Changes.finalizedCount_le (h : q.Changes q') :
    q.finalizedCount.val ≤ q'.finalizedCount.val := by
  cases h with
  | enqueue h =>
    obtain ⟨-, -, -, -, e, s, -, -, rfl⟩ := enqueue_eq_ok_iff.1 h
    exact Nat.le_refl _
  | finalize h =>
    obtain ⟨hfirst, -, -, -, -, hcount, -, -, -⟩ := finalize_eq_ok h
    rw [hcount]
    exact Nat.le_succ_of_le hfirst
  | claim h =>
    obtain ⟨-, -, -, -, -, -, -, -, -, -, -, -, rfl⟩ := claim_eq_ok_iff.1 h
    exact Nat.le_refl _

/-- What a finalized request is paid when it is claimed. -/
def payment (q : WithdrawalQueue) (id : Nat) : Nat := (q.prices.rateFor id).elim 0 (q.worth id)

/-- What a request was paid so far. -/
def paid (q : WithdrawalQueue) (id : Nat) : Nat := if q.isClaimed id then q.payment id else 0

theorem Changes.payment_eq (h : q.Changes q') (hv : q.Valid) {i : Nat}
    (hi : i < q.finalizedCount.val) : q'.payment i = q.payment i := by
  obtain ⟨hether, hshares⟩ := h.of_eq (Nat.lt_of_lt_of_le hi hv.reached)
  have hworth : q'.worth i = q.worth i := by
    funext rate
    rw [worth, worth, hether, hshares]
  rw [payment, payment, h.rateFor_eq hv hi, hworth]

def payments (q : WithdrawalQueue) : Nat := ∑ i ∈ range q.finalizedCount.val, q.paid i

theorem payments_enqueue (hv : q.Valid) {recipient : Address} {ether shares : Amount}
    {block id : Count} (h : q.enqueue recipient ether shares block = .ok (id, q')) :
    q'.payments = q.payments := by
  have hpayment := fun i hi => Changes.payment_eq (.enqueue h) hv (i := i) hi
  obtain ⟨-, -, -, -, e, s, -, -, rfl⟩ := enqueue_eq_ok_iff.1 h
  refine sum_congr rfl (fun i hi => ?_)
  have hi := mem_range.1 hi
  rw [paid, paid, hpayment i hi, isClaimed, isClaimed,
    List.getElem?_append_left (Nat.lt_of_lt_of_le hi hv.reached)]

theorem payments_finalize (hv : q.Valid) {last : Count} {lock poolValue shares balance : Amount}
    (h : q.finalize last lock poolValue shares balance = .ok q') : q'.payments = q.payments := by
  have hchange : q.Changes q' := .finalize h
  obtain ⟨hfirst, -, -, hreq, -, hcount, -, -, -⟩ := finalize_eq_ok h
  have hle : q.finalizedCount.val ≤ last.val + 1 := Nat.le_succ_of_le hfirst
  -- No request of the batch is claimed yet.
  have hopen : ∀ i ∈ Ico q.finalizedCount.val (last.val + 1), q'.paid i = 0 := by
    intro i hi
    have hclaimed : q'.isClaimed i = false := by
      rw [isClaimed, hreq]
      cases hr : q.requests[i]? with
      | none => rfl
      | some r => exact hv.unclaimed i r hr (mem_Ico.1 hi).1
    rw [paid, hclaimed]
    rfl
  rw [payments, hcount, ← sum_range_add_sum_Ico q'.paid hle, sum_eq_zero hopen, Nat.add_zero]
  refine sum_congr rfl (fun i hi => ?_)
  rw [paid, paid, hchange.payment_eq hv (mem_range.1 hi), isClaimed, isClaimed, hreq]

theorem payments_claim (hv : q.Valid) {id : Count} {hint : Option Nat} {escrow escrow' : Escrow}
    {receipt : ClaimReceipt} (h : q.claim id hint escrow = .ok (receipt, q', escrow')) :
    q'.payments = q.payments + receipt.amount.val := by
  have hchange : q.Changes q' := .claim h
  obtain ⟨-, hopen, hclosed⟩ := isClaimed_claim h
  obtain ⟨r, index, locked, amount, hfin, -, -, hindex, hpayout, -, -, hreceipt, hq⟩ :=
    claim_eq_ok_iff.1 h
  have hreq : q'.requests = q.markClaimed id.val := by rw [hq]
  have hcount : q'.finalizedCount = q.finalizedCount := by rw [hq]
  obtain ⟨rate, hrate, -⟩ := hv.priced.rateFor_isSome hfin
  rw [hv.priceIndex_eq hfin] at hindex
  cases hindex
  have hamount : amount.val = q'.paid id.val := by
    rw [paid, hclosed, if_pos rfl, hchange.payment_eq hv hfin, payment, hrate]
    exact ((hv.payout_eq_ok_iff hfin hrate).1 hpayout).2
  have hnone : q.paid id.val = 0 := by
    rw [paid, hopen]
    rfl
  have hothers : ∀ i ∈ (range q.finalizedCount.val).erase id.val, q'.paid i = q.paid i := by
    intro i hi
    obtain ⟨hne, hi⟩ := mem_erase.1 hi
    rw [paid, paid, hchange.payment_eq hv (mem_range.1 hi), isClaimed, isClaimed, hreq,
      getElem?_markClaimed_of_ne q (Ne.symm hne)]
  have hmem : id.val ∈ range q.finalizedCount.val := mem_range.2 hfin
  have hbefore := add_sum_erase _ (fun i => q.paid i) hmem
  have hafter := add_sum_erase _ (fun i => q'.paid i) hmem
  have hrest : ∑ i ∈ (range q.finalizedCount.val).erase id.val, q'.paid i =
      ∑ i ∈ (range q.finalizedCount.val).erase id.val, q.paid i := sum_congr rfl hothers
  rw [hreceipt, payments, payments, hcount]
  show _ = _ + amount.val
  omega

theorem paid_le_etherOf (q : WithdrawalQueue) (id : Nat) : q.paid id ≤ q.etherOf id := by
  unfold paid payment
  split
  · cases q.prices.rateFor id with
    | none => exact Nat.zero_le _
    | some rate => exact Nat.min_le_left _ _
  · exact Nat.zero_le _

theorem payments_le (hv : q.Valid) : q.payments ≤ q.etherUpTo q.finalizedCount.val := by
  have hsum := sum_etherOf hv (Nat.zero_le _) hv.reached
  rw [← hsum, ← range_eq_Ico]
  exact Nat.le_add_right_of_le (sum_le_sum (fun i _ => q.paid_le_etherOf i))

theorem payments_lt (hv : q.Valid) : q.payments < Bounded.bound 128 := by
  refine Nat.lt_of_le_of_lt (payments_le hv) ?_
  cases q.finalizedCount.val with
  | zero => exact Bounded.bound_pos 128
  | succ n =>
    rw [etherUpTo]
    cases q.requests[n]? with
    | none => exact Bounded.bound_pos 128
    | some r => exact r.cumulativeEther.isLt

end WithdrawalQueue
end LiquidStaking

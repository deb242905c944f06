/-
What a queue still owes, and what covers it.

A batch locks the floor of one quotient for all its requests; they are paid a floor each.  Floors
of parts never add up to more than the floor of the whole, so a lock covers its batch whenever the
rate it was computed at is at least the rate the batch is paid at.
-/
import LiquidStaking.Proofs.Withdrawal.Validity
import Mathlib.Algebra.BigOperators.Intervals
import Mathlib.Algebra.Order.BigOperators.Group.Finset

namespace LiquidStaking

namespace Rate

/-- Two discounted values never exceed the discounted value of their sum. -/
theorem discount_add_le (r : Rate) (ether ether' shares shares' : Nat) :
    min ether (shares * r.poolValue / r.shares) + min ether' (shares' * r.poolValue / r.shares) ≤
      min (ether + ether') ((shares + shares') * r.poolValue / r.shares) := by
  have hfloor : shares * r.poolValue / r.shares + shares' * r.poolValue / r.shares ≤
      (shares + shares') * r.poolValue / r.shares := by
    rw [Nat.add_mul]
    exact Nat.div_add_div_le_add_div
  omega

end Rate

namespace WithdrawalQueue

open Finset

/-- What a request waits to be paid once it is finalized. -/
def due (q : WithdrawalQueue) (id : Nat) : Nat :=
  if q.requests[id]?.any (·.claimed) then 0 else (q.prices.rateFor id).elim 0 (q.worth id)

/-- A valid queue whose locked ether covers what it owes, and whose debts all fit. -/
structure Backed (q : WithdrawalQueue) : Prop where
  valid : q.Valid
  payable : ∀ id < q.finalizedCount.val, ∀ rate, q.prices.rateFor id = some rate →
    q.sharesOf id * rate.poolValue / rate.shares < Bounded.bound 128
  covered : ∑ id ∈ range q.finalizedCount.val, q.due id ≤ q.totalLocked.val

variable {q q' : WithdrawalQueue}

theorem due_congr {id : Nat}
    (hclaimed : q'.requests[id]?.any (·.claimed) = q.requests[id]?.any (·.claimed))
    (hof : q'.etherOf id = q.etherOf id ∧ q'.sharesOf id = q.sharesOf id)
    (hrate : q'.prices.rateFor id = q.prices.rateFor id) : q'.due id = q.due id := by
  have hworth : q'.worth id = q.worth id := by
    funext rate
    rw [worth, worth, hof.1, hof.2]
  rw [due, due, hclaimed, hrate, hworth]

theorem due_of_unclaimed {id : Nat} {r : WithdrawalRequest} {rate : Rate}
    (hr : q.requests[id]? = some r) (hclaimed : r.claimed = false)
    (hrate : q.prices.rateFor id = some rate) : q.due id = q.worth id rate := by
  rw [due, hr, hrate]
  simp [hclaimed]

theorem due_le_worth {id : Nat} {rate : Rate} (hrate : q.prices.rateFor id = some rate) :
    q.due id ≤ q.worth id rate := by
  rw [due, hrate]
  split
  · exact Nat.zero_le _
  · exact Nat.le_refl _

/-- The requests of a batch are together owed no more than its settlement locks, as long as none
is paid at a rate above the one the settlement was computed at. -/
theorem sum_due_batch (hv : q.Valid) (hreq : q'.requests = q.requests)
    (hold : ∀ i < q.finalizedCount.val, q'.prices.rateFor i = q.prices.rateFor i) {rate : Rate}
    (hs : rate.shares ≠ 0) {n : Nat} (hfirst : q.finalizedCount.val ≤ n) (hn : n ≤ q.length)
    (hnew : ∀ i, q.finalizedCount.val ≤ i → i < n →
      ∃ paid, q'.prices.rateFor i = some paid ∧ paid.AtMost rate) :
    ∑ i ∈ range n, q'.due i ≤ ∑ i ∈ range q.finalizedCount.val, q.due i +
      min (q.etherUpTo n - q.etherUpTo q.finalizedCount.val)
        ((q.sharesUpTo n - q.sharesUpTo q.finalizedCount.val) * rate.poolValue / rate.shares) := by
  have hof := etherOf_sharesOf_of_requests hreq
  induction n, hfirst using Nat.le_induction with
  | base =>
    refine Nat.le_trans (Nat.le_of_eq (sum_congr rfl (fun i hi => ?_))) (Nat.le_add_right _ _)
    exact due_congr (by rw [hreq]) (hof i) (hold i (mem_range.1 hi))
  | succ n hfirst ih =>
    have ih := ih (Nat.le_of_succ_le hn) (fun i hi hlt => hnew i hi (Nat.lt_succ_of_lt hlt))
    obtain ⟨paid, hpaid, hle⟩ := hnew n hfirst (Nat.lt_succ_self n)
    have hdue : q'.due n ≤ min (q.etherOf n) (q.sharesOf n * rate.poolValue / rate.shares) := by
      refine Nat.le_trans (due_le_worth hpaid) ?_
      rw [worth, (hof n).1, (hof n).2]
      have hvalue := Rate.value_le_of_atMost hle hs (q.sharesOf n)
      omega
    have hadd := rate.discount_add_le (q.etherUpTo n - q.etherUpTo q.finalizedCount.val)
      (q.etherOf n) (q.sharesUpTo n - q.sharesUpTo q.finalizedCount.val) (q.sharesOf n)
    have he : q.etherUpTo n - q.etherUpTo q.finalizedCount.val + q.etherOf n =
        q.etherUpTo (n + 1) - q.etherUpTo q.finalizedCount.val := by
      rw [Nat.add_comm, etherOf, Nat.sub_add_sub_cancel (hv.gaining n hn)
        (hv.etherUpTo_mono hfirst (Nat.le_of_succ_le hn))]
    have hsh : q.sharesUpTo n - q.sharesUpTo q.finalizedCount.val + q.sharesOf n =
        q.sharesUpTo (n + 1) - q.sharesUpTo q.finalizedCount.val := by
      rw [Nat.add_comm, sharesOf, Nat.sub_add_sub_cancel (hv.growing n hn)
        (hv.sharesUpTo_mono hfirst (Nat.le_of_succ_le hn))]
    rw [he, hsh] at hadd
    rw [sum_range_succ]
    omega

/-- A claim takes exactly what was due for its request, and nothing of what is due for others. -/
theorem due_markClaimed {id : Nat} (hreq : q'.requests = q.markClaimed id)
    (hprices : q'.prices = q.prices) (i : Nat) (hi : i < q.length) :
    q'.due i = if i = id then 0 else q.due i := by
  by_cases h : i = id
  · have hr : q.requests[i]? = some q.requests[i] := List.getElem?_eq_getElem hi
    rw [if_pos h, due, hreq, getElem?_markClaimed, hr]
    simp [h]
  · rw [if_neg h]
    refine due_congr ?_ (etherOf_sharesOf_congr (fun n _ => upTo_markClaimed hreq n))
      (by rw [hprices])
    rw [hreq, getElem?_markClaimed_of_ne q (Ne.symm h)]

theorem create_backed (limits : WithdrawalLimits) : (create limits).Backed where
  valid := create_valid limits
  payable := fun _ h => absurd h (Nat.not_lt_zero _)
  covered := Nat.le_refl _

namespace Backed

theorem enqueue (hb : q.Backed) {recipient : Address} {ether shares : Amount} {block id : Count}
    (h : q.enqueue recipient ether shares block = .ok (id, q')) : q'.Backed := by
  obtain ⟨-, -, -, -, e, s, -, -, hq⟩ := enqueue_eq_ok_iff.1 h
  have hreq : q'.requests = q.requests ++ [⟨id, e, s, recipient, block, false⟩] := by rw [hq]
  have hcount : q'.finalizedCount = q.finalizedCount := by rw [hq]
  have hprices : q'.prices = q.prices := by rw [hq]
  have hlocked : q'.totalLocked = q.totalLocked := by rw [hq]
  have hof : ∀ i < q.finalizedCount.val,
      q'.etherOf i = q.etherOf i ∧ q'.sharesOf i = q.sharesOf i := by
    intro i hi
    have hlt : i < q.length := Nat.lt_of_lt_of_le hi hb.valid.reached
    exact etherOf_sharesOf_congr (fun n hn => upTo_append (Nat.le_trans hn hlt) hreq)
  refine ⟨hb.valid.enqueue h, ?_, ?_⟩
  · intro i hi rate hrate
    rw [hcount] at hi
    rw [hprices] at hrate
    rw [(hof i hi).2]
    exact hb.payable i hi rate hrate
  · rw [hcount, hlocked]
    refine Nat.le_trans (Nat.le_of_eq (sum_congr rfl (fun i hi => ?_))) hb.covered
    have hi := mem_range.1 hi
    have hlt : i < q.length := Nat.lt_of_lt_of_le hi hb.valid.reached
    refine due_congr ?_ (hof i hi) (by rw [hprices])
    rw [hreq, List.getElem?_append_left hlt]

theorem finalize (hb : q.Backed) {last : Count} {poolValue shares balance : Amount}
    {s : Settlement} (hs : q.settlement last poolValue shares = .ok s)
    (hjoin : ∀ run ∈ q.prices.runs.getLast?,
      run.price = PriceRun.price ⟨poolValue, shares, last⟩ →
        run.pair.AtMost ⟨poolValue.val, shares.val⟩)
    (h : q.finalize last s.etherToLock poolValue shares balance = .ok q') : q'.Backed := by
  obtain ⟨hfirst, hlast, hne, hreq, -, hcount, hlocked, -, hprices⟩ := finalize_eq_ok h
  obtain ⟨-, -, -, hburn, hfits, ether, hether, hlock⟩ := settlement_eq_ok hs
  have hv := hb.valid
  have hold : ∀ i < q.finalizedCount.val, q'.prices.rateFor i = q.prices.rateFor i :=
    fun i hi => hv.priced.rateFor_record_of_lt hprices hi
  -- A request of the batch is paid at the batch's rate, or at that of the run the batch joins.
  have hnew : ∀ i, q.finalizedCount.val ≤ i → i < last.val + 1 →
      ∃ paid, q'.prices.rateFor i = some paid ∧ paid.AtMost ⟨poolValue.val, shares.val⟩ := by
    intro i hge hlt
    obtain ⟨run, hrate, rfl | ⟨hrun, hprice⟩⟩ :=
      hv.priced.rateFor_record_of_ge hprices hge (Nat.le_of_lt_succ hlt)
    · exact ⟨_, hrate, Nat.le_refl _⟩
    · exact ⟨_, hrate, hjoin run hrun hprice⟩
  have hshares : ∀ i, q'.sharesOf i = q.sharesOf i :=
    fun i => (etherOf_sharesOf_of_requests hreq i).2
  refine ⟨hv.finalize h, ?_, ?_⟩
  · intro i hi rate hrate
    rw [hcount] at hi
    rw [hshares]
    rcases Nat.lt_or_ge i q.finalizedCount.val with hlt | hge
    · exact hb.payable i hlt rate (by rw [← hold i hlt, hrate])
    · obtain ⟨paid, hpaid, hle⟩ := hnew i hge hi
      obtain rfl : paid = rate := Option.some.inj (hpaid.symm.trans hrate)
      -- The batch's own value fits, and the request holds a part of its shares.
      have hpart : q.sharesOf i ≤ s.sharesToBurn.val := by
        have h1 := hv.sharesUpTo_mono hge (Nat.le_of_lt (Nat.lt_of_lt_of_le hi hlast))
        have h2 := hv.sharesUpTo_mono hi hlast
        rw [sharesOf]
        simp only [Nat.succ_eq_add_one] at h2
        omega
      calc q.sharesOf i * paid.poolValue / paid.shares
        _ ≤ q.sharesOf i * poolValue.val / shares.val := Rate.value_le_of_atMost hle hne _
        _ ≤ s.sharesToBurn.val * poolValue.val / shares.val :=
          Nat.div_le_div_right (Nat.mul_le_mul_right _ hpart)
        _ < Bounded.bound 128 := hfits
  · have hsum := sum_due_batch hv hreq hold hne (Nat.le_succ_of_le hfirst) hlast hnew
    have hcovered := hb.covered
    have hbatchEther : q.etherUpTo (last.val + 1) - q.etherUpTo q.finalizedCount.val = ether := by
      omega
    have hbatchShares : q.sharesUpTo (last.val + 1) - q.sharesUpTo q.finalizedCount.val =
        s.sharesToBurn.val := by
      omega
    rw [hbatchEther, hbatchShares] at hsum
    rw [hcount, hlocked, hlock]
    exact Nat.le_trans hsum (Nat.add_le_add_right hcovered _)

theorem claim (hb : q.Backed) {id : Count} {hint : Option Nat} {escrow escrow' : Escrow}
    {receipt : ClaimReceipt} (h : q.claim id hint escrow = .ok (receipt, q', escrow')) :
    q'.Backed := by
  obtain ⟨r, index, locked, amount, hfin, hr, hclaimed, hindex, hpayout, hlocked, -, -, hq⟩ :=
    claim_eq_ok_iff.1 h
  have hv := hb.valid
  obtain ⟨rate, hrate, -⟩ := hv.priced.rateFor_isSome hfin
  rw [hv.priceIndex_eq hfin] at hindex
  cases hindex
  have hamount : amount.val = q.due id.val := by
    rw [due_of_unclaimed hr hclaimed hrate]
    exact ((hv.payout_eq_ok_iff hfin hrate).1 hpayout).2
  have hreq : q'.requests = q.markClaimed id.val := by rw [hq]
  have hcount : q'.finalizedCount = q.finalizedCount := by rw [hq]
  have hprices : q'.prices = q.prices := by rw [hq]
  have htotal : q'.totalLocked = locked := by rw [hq]
  refine ⟨hv.claim h, ?_, ?_⟩
  · intro i hi rate hrate
    rw [hcount] at hi
    rw [hprices] at hrate
    rw [(etherOf_sharesOf_congr (fun n _ => upTo_markClaimed hreq n)).2]
    exact hb.payable i hi rate hrate
  · have hmem : id.val ∈ range q.finalizedCount.val := mem_range.2 hfin
    have hsplit := add_sum_erase (range q.finalizedCount.val) q.due hmem
    have hsum : ∑ i ∈ range q.finalizedCount.val, q'.due i =
        ∑ i ∈ (range q.finalizedCount.val).erase id.val, q.due i := by
      rw [← add_sum_erase (range q.finalizedCount.val) q'.due hmem]
      rw [due_markClaimed hreq hprices _ (Nat.lt_of_lt_of_le hfin hv.reached), if_pos rfl,
        Nat.zero_add]
      refine sum_congr rfl (fun i hi => ?_)
      obtain ⟨hne, hi⟩ := mem_erase.1 hi
      have hlt := Nat.lt_of_lt_of_le (mem_range.1 hi) hv.reached
      rw [due_markClaimed hreq hprices i hlt, if_neg hne]
    have hcovered := hb.covered
    rw [hcount, htotal, hsum]
    omega

end Backed

end WithdrawalQueue
end LiquidStaking

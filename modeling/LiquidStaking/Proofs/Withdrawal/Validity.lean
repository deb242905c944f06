/-
What every run of a withdrawal queue keeps.

Requests are numbered by their places and their running totals grow, the finalized ones come
first, and every finalized request has a price.  From there, what a claim pays is a function of the
request alone: a hint never changes it.
-/
import LiquidStaking.Proofs.Withdrawal.Ledger

namespace LiquidStaking
namespace WithdrawalQueue

/-- A ledger that requests, batches and claims can leave. -/
structure Valid (q : WithdrawalQueue) : Prop where
  counted : q.length < Bounded.bound 64
  numbered : ∀ (i : Nat) (r : WithdrawalRequest), q.requests[i]? = some r → r.id.val = i
  limited : ∀ i < q.length, q.etherUpTo i + q.limits.min.val < q.etherUpTo (i + 1) ∧
    q.etherUpTo (i + 1) ≤ q.etherUpTo i + q.limits.max.val
  growing : ∀ i < q.length, q.sharesUpTo i ≤ q.sharesUpTo (i + 1)
  reached : q.finalizedCount.val ≤ q.length
  unclaimed : ∀ (i : Nat) (r : WithdrawalRequest), q.requests[i]? = some r →
    q.finalizedCount.val ≤ i → r.claimed = false
  priced : q.prices.Valid q.finalizedCount.val

variable {q q' : WithdrawalQueue}

theorem create_valid (limits : WithdrawalLimits) : (create limits).Valid where
  counted := Nat.zero_lt_of_lt (Bounded.zero : Count).isLt
  numbered := by simp [create]
  limited := by simp [create, length]
  growing := by simp [create, length]
  reached := Nat.le_refl _
  unclaimed := by simp [create]
  priced := PriceHistory.empty_valid

namespace Valid

theorem gaining (hv : q.Valid) : ∀ i < q.length, q.etherUpTo i ≤ q.etherUpTo (i + 1) :=
  fun i hi => Nat.le_of_lt (Nat.lt_of_le_of_lt (Nat.le_add_right ..) (hv.limited i hi).1)

theorem etherUpTo_mono (hv : q.Valid) {m n : Nat} (hmn : m ≤ n) (hn : n ≤ q.length) :
    q.etherUpTo m ≤ q.etherUpTo n := le_of_steps hv.gaining hmn hn

theorem sharesUpTo_mono (hv : q.Valid) {m n : Nat} (hmn : m ≤ n) (hn : n ≤ q.length) :
    q.sharesUpTo m ≤ q.sharesUpTo n := le_of_steps hv.growing hmn hn

theorem rangeTotals_eq (hv : q.Valid) {first last : Nat} (hfirst : first ≤ last)
    (hlast : last < q.length) :
    ∃ t, q.rangeTotals first last = .ok t ∧
      t.1.val = q.etherUpTo (last + 1) - q.etherUpTo first ∧
      t.2.val = q.sharesUpTo (last + 1) - q.sharesUpTo first := by
  have hle : first ≤ last + 1 := Nat.le_succ_of_le hfirst
  obtain ⟨t, ht⟩ := exists_rangeTotals hlast (Nat.le_of_lt (Nat.lt_of_le_of_lt hfirst hlast))
    (hv.etherUpTo_mono hle hlast) (hv.sharesUpTo_mono hle hlast)
  obtain ⟨-, he, hs⟩ := rangeTotals_eq_ok ht
  exact ⟨t, ht, by omega, by omega⟩

/-- The unfinalized totals never fault: they are the end of the ledger less its finalized part. -/
theorem unfinalizedTotals_eq (hv : q.Valid) :
    ∃ t, q.unfinalizedTotals = .ok t ∧
      t.1.val = q.etherUpTo q.length - q.etherUpTo q.finalizedCount.val ∧
      t.2.val = q.sharesUpTo q.length - q.sharesUpTo q.finalizedCount.val := by
  unfold unfinalizedTotals
  by_cases hall : q.finalizedCount.val = q.length
  · rw [if_pos hall, hall]
    exact ⟨_, rfl, by simp, by simp⟩
  · have hlt : q.finalizedCount.val < q.length := Nat.lt_of_le_of_ne hv.reached hall
    obtain ⟨last, hlast⟩ : ∃ last, q.length = last + 1 := ⟨q.length - 1, by omega⟩
    have hfirst : q.finalizedCount.val ≤ last := by omega
    have hlt : last < q.length := by omega
    obtain ⟨t, ht, he, hs⟩ := hv.rangeTotals_eq hfirst hlt
    rw [if_neg hall, hlast]
    exact ⟨t, lift_eq_ok.2 ht, he, hs⟩

theorem exists_unfinalizedEther (hv : q.Valid) : ∃ a, q.unfinalizedEther = .ok a ∧
    a.val = q.etherUpTo q.length - q.etherUpTo q.finalizedCount.val := by
  obtain ⟨t, ht, he, -⟩ := hv.unfinalizedTotals_eq
  rw [unfinalizedEther, ht]
  exact ⟨t.1, rfl, he⟩

theorem enqueue (hv : q.Valid) {recipient : Address} {ether shares : Amount} {block id : Count}
    (h : q.enqueue recipient ether shares block = .ok (id, q')) : q'.Valid := by
  obtain ⟨hmin, hmax, hroom, hid, e, s, he, hs, hq⟩ := enqueue_eq_ok_iff.1 h
  generalize hr : (⟨id, e, s, recipient, block, false⟩ : WithdrawalRequest) = r at hq
  have hreq : q'.requests = q.requests ++ [r] := by rw [hq]
  have hlen : q'.length = q.length + 1 := by simp [length, hreq]
  have hold := fun n (hn : n ≤ q.length) => upTo_append hn hreq
  subst hq
  have hnew : (q.requests ++ [r])[q.length]? = some r := by simp [length]
  -- A place of the longer ledger is a place of the old one or the new request's.
  have hplaces : ∀ (i : Nat) (s : WithdrawalRequest), (q.requests ++ [r])[i]? = some s →
      q.requests[i]? = some s ∨ i = q.length ∧ s = r := by
    intro i s hs
    rcases Nat.lt_trichotomy i q.length with hlt | rfl | hgt
    · rw [List.getElem?_append_left hlt] at hs
      exact .inl hs
    · rw [hnew] at hs
      exact .inr ⟨rfl, (Option.some.inj hs).symm⟩
    · have hi := (List.getElem?_eq_some_iff.1 hs).1
      rw [List.length_append] at hi
      exact absurd hi (Nat.not_lt.2 hgt)
  refine ⟨?_, ?_, ?_, ?_, ?_, ?_, hv.priced⟩
  · rw [hlen]
    exact hroom
  · intro i s hs
    rcases hplaces i s hs with hs | ⟨rfl, rfl⟩
    · exact hv.numbered i s hs
    · rw [← hr]
      exact hid
  · intro i hi
    rw [hlen] at hi
    rcases Nat.lt_succ_iff_lt_or_eq.1 hi with hlt | rfl
    · rw [(hold i (Nat.le_of_lt hlt)).1, (hold (i + 1) hlt).1]
      exact hv.limited i hlt
    · rw [(hold _ (Nat.le_refl _)).1, etherUpTo_succ hnew, ← hr, he]
      exact ⟨Nat.add_lt_add_left hmin _, Nat.add_le_add_left hmax _⟩
  · intro i hi
    rw [hlen] at hi
    rcases Nat.lt_succ_iff_lt_or_eq.1 hi with hlt | rfl
    · rw [(hold i (Nat.le_of_lt hlt)).2, (hold (i + 1) hlt).2]
      exact hv.growing i hlt
    · rw [(hold _ (Nat.le_refl _)).2, sharesUpTo_succ hnew, ← hr, hs]
      exact Nat.le_add_right _ _
  · rw [hlen]
    exact Nat.le_succ_of_le hv.reached
  · intro i s hs hge
    rcases hplaces i s hs with hs | ⟨rfl, rfl⟩
    · exact hv.unclaimed i s hs hge
    · rw [← hr]

theorem finalize (hv : q.Valid) {last : Count} {lock poolValue shares balance : Amount}
    (h : q.finalize last lock poolValue shares balance = .ok q') : q'.Valid := by
  obtain ⟨hfirst, hlast, -, hreq, hlimits, hcount, -, -, hprices⟩ := finalize_eq_ok h
  have hlen : q'.length = q.length := congrArg List.length hreq
  have hsums := upTo_of_requests hreq
  refine ⟨hlen ▸ hv.counted, hreq ▸ hv.numbered, ?_, ?_, ?_, ?_, ?_⟩
  · intro i hi
    rw [(hsums i).1, (hsums (i + 1)).1, hlimits]
    exact hv.limited i (hlen ▸ hi)
  · intro i hi
    rw [(hsums i).2, (hsums (i + 1)).2]
    exact hv.growing i (hlen ▸ hi)
  · rw [hcount, hlen]
    exact hlast
  · intro i r hr hge
    rw [hcount] at hge
    exact hv.unclaimed i r (hreq ▸ hr) (by omega)
  · rw [hcount]
    exact hv.priced.record hprices

/-- A ledger in which one finalized request is marked as claimed. -/
theorem markClaimed (hv : q.Valid) {id : Nat} (hid : id < q.finalizedCount.val) (t : Amount) :
    Valid { q with requests := q.markClaimed id, totalLocked := t } := by
  generalize hq : ({ q with requests := q.markClaimed id, totalLocked := t } :
    WithdrawalQueue) = q'
  have hreq : q'.requests = q.markClaimed id := by rw [← hq]
  have hlen : q'.length = q.length := by rw [length, hreq, length_markClaimed]
  have hsums := upTo_markClaimed hreq
  subst hq
  have hplaces : ∀ (i : Nat) (s : WithdrawalRequest), (q.markClaimed id)[i]? = some s →
      ∃ r, q.requests[i]? = some r ∧ s.id = r.id ∧ (i ≠ id → s = r) := by
    intro i s hs
    rw [getElem?_markClaimed] at hs
    obtain ⟨r, hr, rfl⟩ := Option.map_eq_some_iff.1 hs
    by_cases hi : id = i
    · rw [if_pos hi]
      exact ⟨r, hr, rfl, fun hne => absurd hi.symm hne⟩
    · rw [if_neg hi]
      exact ⟨r, hr, rfl, fun _ => rfl⟩
  refine ⟨hlen ▸ hv.counted, ?_, ?_, ?_, hlen ▸ hv.reached, ?_, hv.priced⟩
  · intro i s hs
    obtain ⟨r, hr, hids, -⟩ := hplaces i s hs
    rw [hids]
    exact hv.numbered i r hr
  · intro i hi
    rw [(hsums i).1, (hsums (i + 1)).1]
    exact hv.limited i (hlen ▸ hi)
  · intro i hi
    rw [(hsums i).2, (hsums (i + 1)).2]
    exact hv.growing i (hlen ▸ hi)
  · intro i s hs hge
    obtain ⟨r, hr, -, hsame⟩ := hplaces i s hs
    have hne : i ≠ id := Nat.ne_of_gt (Nat.lt_of_lt_of_le hid hge)
    rw [hsame hne]
    exact hv.unclaimed i r hr hge

theorem claim (hv : q.Valid) {id : Count} {hint : Option Nat} {escrow escrow' : Escrow}
    {receipt : ClaimReceipt} (h : q.claim id hint escrow = .ok (receipt, q', escrow')) :
    q'.Valid := by
  obtain ⟨-, -, -, -, hfin, -, -, -, -, -, -, -, rfl⟩ := claim_eq_ok_iff.1 h
  exact hv.markClaimed hfin _

end Valid

theorem Valid.exists_settlement (hv : q.Valid) {last : Count} {poolValue shares : Amount}
    (hfirst : q.finalizedCount.val ≤ last.val) (hlast : last.val < q.length)
    (hs : shares.val ≠ 0)
    (hfits : (q.sharesUpTo (last.val + 1) - q.sharesUpTo q.finalizedCount.val) * poolValue.val /
      shares.val < Bounded.bound 128) :
    ∃ s, q.settlement last poolValue shares = .ok s := by
  obtain ⟨⟨ether, burn⟩, ht, -, hburn⟩ := hv.rangeTotals_eq hfirst hlast
  have hrate : Rate.ofAmounts poolValue shares = .ok ⟨poolValue.val, shares.val⟩ :=
    Rate.ofAmounts_eq_ok hs
  have hlt : min ether.val (burn.val * poolValue.val / shares.val) < Bounded.bound 128 :=
    Nat.lt_of_le_of_lt (Nat.min_le_left _ _) ether.isLt
  have hlock : discounted ether burn ⟨poolValue.val, shares.val⟩ = .ok ⟨_, hlt⟩ :=
    (discounted_eq_ok_iff poolValue.isLt).2 ⟨hs, hburn ▸ hfits, rfl⟩
  unfold settlement
  rw [(checkRange_eq_ok_iff (u := ())).2 ⟨hfirst, hlast⟩]
  simp only [ht, hrate, hlock, ok_bind]
  exact ⟨_, rfl⟩

/- What a plan checks is all that finalizing needs: in a valid ledger the history takes every
batch that passed the check. -/

theorem Valid.finalize_of_check (hv : q.Valid) {last : Count}
    {lock poolValue shares balance locked : Amount}
    (h : q.checkFinalize last lock poolValue shares balance = .ok locked) :
    ∃ q', q.finalize last lock poolValue shares balance = .ok q' := by
  obtain ⟨hfirst, hlast, -, -, hs⟩ := checkFinalize_eq_ok_iff.1 h
  obtain ⟨prices, hprices⟩ := hv.priced.exists_record hfirst poolValue hs
  have hroom : last.val + 1 < Bounded.bound 64 := Nat.lt_of_le_of_lt hlast hv.counted
  unfold WithdrawalQueue.finalize
  simp only [h, hprices, Bounded.next_eq_ok hroom, lift_ok, ok_bind]
  exact ⟨_, rfl⟩

theorem Valid.exists_finalize_of_balance (hv : q.Valid) {last : Count}
    {poolValue shares balance : Amount} {s : Settlement}
    (hs : q.settlement last poolValue shares = .ok s)
    (hb : q.totalLocked.val + s.etherToLock.val ≤ balance.val) :
    ∃ q', q.finalize last s.etherToLock poolValue shares balance = .ok q' := by
  obtain ⟨hfirst, hlast, hne, -⟩ := settlement_eq_ok hs
  have hroom : q.totalLocked.val + s.etherToLock.val < Bounded.bound 128 :=
    Nat.lt_of_le_of_lt hb balance.isLt
  exact hv.finalize_of_check (checkFinalize_eq_ok_iff.2
    ⟨hfirst, hlast, (rfl : (⟨_, hroom⟩ : Amount).val = _), hb, hne⟩)

/- What a finalized request is paid. -/

/-- What a request is worth at a rate: the value of its shares, at most the ether it asked for. -/
def worth (q : WithdrawalQueue) (id : Nat) (rate : Rate) : Nat :=
  min (q.etherOf id) (q.sharesOf id * rate.poolValue / rate.shares)

namespace Valid

theorem findPriceHint_eq (hv : q.Valid) {id : Count} (hid : id.val < q.finalizedCount.val) :
    q.findPriceHint id = .ok (q.prices.covering id.val) := by
  rw [findPriceHint, if_neg (Nat.not_le.2 hid), PriceHistory.findLinear_eq hv.priced.ordered,
    if_pos (hv.priced.covering_lt hid)]

/-- The hint decides where the run is looked for and never which run it is. -/
theorem priceIndex_eq (hv : q.Valid) {id : Count} (hid : id.val < q.finalizedCount.val)
    (hint : Option Nat) : q.priceIndex id hint = .ok (q.prices.covering id.val) := by
  have hscan := hv.findPriceHint_eq hid
  unfold priceIndex
  cases hint with
  | none => exact hscan
  | some i =>
    by_cases hi : q.prices.isValidHint i id = true
    · have hcov := ((PriceHistory.isValidHint_iff hv.priced.ordered).1 hi).2
      simp only [hi, if_true, hcov]
    · simp only [hi]
      exact hscan

/-- A payout is what the request is worth at the rate of its run, and faults only when the value
of its shares does not fit. -/
theorem payout_eq_ok_iff (hv : q.Valid) {id : Count} (hid : id.val < q.finalizedCount.val)
    {rate : Rate} (hrate : q.prices.rateFor id.val = some rate) {a : Amount} :
    q.payout id (q.prices.covering id.val) = .ok a ↔
      q.sharesOf id.val * rate.poolValue / rate.shares < Bounded.bound 128 ∧
        a.val = q.worth id.val rate := by
  rw [PriceHistory.rateFor_eq_covering] at hrate
  obtain ⟨run, hrun, rfl⟩ := Option.map_eq_some_iff.1 hrate
  have hshares : run.shares.val ≠ 0 := hv.priced.priced run (List.mem_of_getElem? hrun)
  have hlen : id.val < q.length := Nat.lt_of_lt_of_le hid hv.reached
  obtain ⟨⟨ether, shares⟩, ht, he, hs⟩ := hv.rangeTotals_eq (Nat.le_refl id.val) hlen
  have hether : ether.val = q.etherOf id.val := he
  have hsharesOf : shares.val = q.sharesOf id.val := hs
  unfold payout
  simp only [hrun, ht, PriceRun.rate_eq_ok hshares, ok_bind]
  rw [discounted_eq_ok_iff run.poolValue.isLt, hether, hsharesOf]
  exact and_iff_right hshares

theorem claimableEther_eq_ok_iff (hv : q.Valid) {id : Count} {hint : Option Nat} {a : Amount} :
    q.claimableEther id hint = .ok a ↔
      id.val < q.finalizedCount.val ∧ (∃ r, q.requests[id.val]? = some r ∧ r.claimed = false) ∧
        ∃ rate, q.prices.rateFor id.val = some rate ∧
          q.sharesOf id.val * rate.poolValue / rate.shares < Bounded.bound 128 ∧
            a.val = q.worth id.val rate := by
  rw [WithdrawalQueue.claimableEther_eq_ok_iff]
  constructor
  · rintro ⟨r, index, hid, hr, hclaimed, hindex, ha⟩
    obtain ⟨rate, hrate, -⟩ := hv.priced.rateFor_isSome hid
    rw [hv.priceIndex_eq hid] at hindex
    cases hindex
    exact ⟨hid, ⟨r, hr, hclaimed⟩, rate, hrate, (hv.payout_eq_ok_iff hid hrate).1 ha⟩
  · rintro ⟨hid, ⟨r, hr, hclaimed⟩, rate, hrate, ha⟩
    exact ⟨r, _, hid, hr, hclaimed, hv.priceIndex_eq hid hint,
      (hv.payout_eq_ok_iff hid hrate).2 ha⟩

end Valid

end WithdrawalQueue
end LiquidStaking

/-
The ledger of requests as a function of the request's number.

`etherUpTo` and `sharesUpTo` read the running totals as sums over the first requests.  Each
operation of the queue gets one lemma that says all there is to its success, in these terms.
-/
import LiquidStaking.Proofs.Withdrawal.Prices
import LiquidStaking.Withdrawal.Queue

namespace LiquidStaking
namespace WithdrawalQueue

/-- The ether of the first `n` requests together. -/
def etherUpTo (q : WithdrawalQueue) : Nat → Nat
  | 0 => 0
  | n + 1 => q.requests[n]?.elim 0 (·.cumulativeEther.val)

/-- The shares of the first `n` requests together. -/
def sharesUpTo (q : WithdrawalQueue) : Nat → Nat
  | 0 => 0
  | n + 1 => q.requests[n]?.elim 0 (·.cumulativeShares.val)

def etherOf (q : WithdrawalQueue) (id : Nat) : Nat := q.etherUpTo (id + 1) - q.etherUpTo id

def sharesOf (q : WithdrawalQueue) (id : Nat) : Nat := q.sharesUpTo (id + 1) - q.sharesUpTo id

/-- A total that no step up to a bound lowers. -/
theorem le_of_steps {f : Nat → Nat} {bound m n : Nat} (hstep : ∀ i < bound, f i ≤ f (i + 1))
    (hmn : m ≤ n) (hn : n ≤ bound) : f m ≤ f n := by
  induction hmn with
  | refl => exact Nat.le_refl _
  | step _ ih => exact Nat.le_trans (ih (Nat.le_of_lt hn)) (hstep _ hn)

variable {q q' : WithdrawalQueue}

theorem request_eq_ok_iff {id : Nat} {r : WithdrawalRequest} :
    q.request id = .ok r ↔ q.requests[id]? = some r := by
  unfold request
  cases q.requests[id]? <;> simp

theorem etherUpTo_succ {n : Nat} {r : WithdrawalRequest} (h : q.requests[n]? = some r) :
    q.etherUpTo (n + 1) = r.cumulativeEther.val := by
  rw [etherUpTo, h]
  rfl

theorem sharesUpTo_succ {n : Nat} {r : WithdrawalRequest} (h : q.requests[n]? = some r) :
    q.sharesUpTo (n + 1) = r.cumulativeShares.val := by
  rw [sharesUpTo, h]
  rfl

def totalsOf (r : WithdrawalRequest) : Amount × Amount := (r.cumulativeEther, r.cumulativeShares)

/-- The sums depend on the running totals alone, and so on nothing a claim changes. -/
theorem upTo_congr {n : Nat}
    (h : ∀ i < n, q'.requests[i]?.map totalsOf = q.requests[i]?.map totalsOf) :
    q'.etherUpTo n = q.etherUpTo n ∧ q'.sharesUpTo n = q.sharesUpTo n := by
  cases n with
  | zero => exact ⟨rfl, rfl⟩
  | succ n =>
    have hn := h n (Nat.lt_succ_self n)
    cases h' : q'.requests[n]? with
    | none =>
      rw [h', Option.map_none, eq_comm, Option.map_eq_none_iff] at hn
      rw [etherUpTo, etherUpTo, sharesUpTo, sharesUpTo, h', hn]
      exact ⟨rfl, rfl⟩
    | some r' =>
      rw [h', Option.map_some, eq_comm, Option.map_eq_some_iff] at hn
      obtain ⟨r, hr, htotals⟩ := hn
      rw [etherUpTo_succ h', etherUpTo_succ hr, sharesUpTo_succ h', sharesUpTo_succ hr]
      obtain ⟨he, hs⟩ := Prod.mk.inj htotals
      exact ⟨congrArg _ he.symm, congrArg _ hs.symm⟩

theorem upTo_of_requests (h : q'.requests = q.requests) (n : Nat) :
    q'.etherUpTo n = q.etherUpTo n ∧ q'.sharesUpTo n = q.sharesUpTo n :=
  upTo_congr (fun _ _ => by rw [h])

/-- The sums before and after a request tell what it asked for and what it holds. -/
theorem etherOf_sharesOf_congr {id : Nat}
    (h : ∀ n ≤ id + 1, q'.etherUpTo n = q.etherUpTo n ∧ q'.sharesUpTo n = q.sharesUpTo n) :
    q'.etherOf id = q.etherOf id ∧ q'.sharesOf id = q.sharesOf id := by
  obtain ⟨hether, hshares⟩ := h id (Nat.le_succ id)
  obtain ⟨hether', hshares'⟩ := h (id + 1) (Nat.le_refl _)
  rw [etherOf, etherOf, sharesOf, sharesOf, hether, hether', hshares, hshares']
  exact ⟨rfl, rfl⟩

theorem etherOf_sharesOf_of_requests (h : q'.requests = q.requests) (id : Nat) :
    q'.etherOf id = q.etherOf id ∧ q'.sharesOf id = q.sharesOf id :=
  etherOf_sharesOf_congr (fun n _ => upTo_of_requests h n)

theorem upTo_append {r : WithdrawalRequest} {n : Nat} (h : n ≤ q.length)
    (hq : q'.requests = q.requests ++ [r]) :
    q'.etherUpTo n = q.etherUpTo n ∧ q'.sharesUpTo n = q.sharesUpTo n := by
  refine upTo_congr (fun i hi => ?_)
  rw [hq, List.getElem?_append_left (Nat.lt_of_lt_of_le hi h)]

theorem getElem?_markClaimed (q : WithdrawalQueue) (id i : Nat) :
    (q.markClaimed id)[i]? =
      q.requests[i]?.map (fun r => if id = i then { r with claimed := true } else r) := by
  rw [markClaimed, List.getElem?_modify]
  rfl

theorem getElem?_markClaimed_of_ne (q : WithdrawalQueue) {id i : Nat} (h : id ≠ i) :
    (q.markClaimed id)[i]? = q.requests[i]? := by
  rw [getElem?_markClaimed]
  simp only [if_neg h, Option.map_id']

theorem length_markClaimed (q : WithdrawalQueue) (id : Nat) :
    (q.markClaimed id).length = q.length := List.length_modify ..

theorem upTo_markClaimed {id : Nat} (hq : q'.requests = q.markClaimed id) (n : Nat) :
    q'.etherUpTo n = q.etherUpTo n ∧ q'.sharesUpTo n = q.sharesUpTo n := by
  refine upTo_congr (fun i _ => ?_)
  rw [hq, getElem?_markClaimed, Option.map_map]
  congr 1
  funext r
  by_cases h : id = i <;> simp [h, totalsOf]

theorem tailTotals_eq (q : WithdrawalQueue) :
    q.tailTotals.1.val = q.etherUpTo q.length ∧ q.tailTotals.2.val = q.sharesUpTo q.length := by
  unfold tailTotals
  rcases List.eq_nil_or_concat q.requests with hnil | ⟨rs, r, hrs⟩
  · have hlen : q.length = 0 := by simp [length, hnil]
    rw [hlen]
    simp [hnil, etherUpTo, sharesUpTo]
  · rw [List.concat_eq_append] at hrs
    have hlen : q.length = rs.length + 1 := by simp [length, hrs]
    have hr : q.requests[rs.length]? = some r := by simp [hrs]
    rw [hlen, etherUpTo_succ hr, sharesUpTo_succ hr, hrs, List.getLast?_concat]
    exact ⟨rfl, rfl⟩

theorem totalsBefore_eq_ok {n : Nat} {t : Amount × Amount} (h : q.totalsBefore n = .ok t) :
    t.1.val = q.etherUpTo n ∧ t.2.val = q.sharesUpTo n := by
  cases n with
  | zero =>
    cases h
    exact ⟨rfl, rfl⟩
  | succ n =>
    simp only [totalsBefore, bind_eq_ok, request_eq_ok_iff] at h
    obtain ⟨r, hr, h⟩ := h
    cases pure_eq_ok.1 h
    exact ⟨(etherUpTo_succ hr).symm, (sharesUpTo_succ hr).symm⟩

theorem exists_totalsBefore {n : Nat} (h : n ≤ q.length) : ∃ t, q.totalsBefore n = .ok t := by
  cases n with
  | zero => exact ⟨_, rfl⟩
  | succ n =>
    have hr : q.requests[n]? = some q.requests[n] := List.getElem?_eq_getElem h
    exact ⟨_, by rw [totalsBefore, request_eq_ok_iff.2 hr]; rfl⟩

theorem rangeTotals_eq_ok {first last : Nat} {t : Amount × Amount}
    (h : q.rangeTotals first last = .ok t) :
    last < q.length ∧ t.1.val + q.etherUpTo first = q.etherUpTo (last + 1) ∧
      t.2.val + q.sharesUpTo first = q.sharesUpTo (last + 1) := by
  simp only [rangeTotals, bind_eq_ok, request_eq_ok_iff] at h
  obtain ⟨r, hr, ⟨ether, shares⟩, hb, e, he, s, hs, h⟩ := h
  cases pure_eq_ok.1 h
  obtain ⟨hbe, hbs⟩ := totalsBefore_eq_ok hb
  have he := Bounded.sub_eq_ok_iff.1 he
  have hs := Bounded.sub_eq_ok_iff.1 hs
  rw [etherUpTo_succ hr, sharesUpTo_succ hr]
  simp only at hbe hbs he hs
  exact ⟨(List.getElem?_eq_some_iff.1 hr).1, by simp only; omega, by simp only; omega⟩

theorem exists_rangeTotals {first last : Nat} (hlast : last < q.length)
    (hfirst : first ≤ q.length) (he : q.etherUpTo first ≤ q.etherUpTo (last + 1))
    (hs : q.sharesUpTo first ≤ q.sharesUpTo (last + 1)) :
    ∃ t, q.rangeTotals first last = .ok t := by
  obtain ⟨⟨ether, shares⟩, ht⟩ := exists_totalsBefore hfirst
  obtain ⟨hte, hts⟩ := totalsBefore_eq_ok ht
  have hr : q.requests[last]? = some q.requests[last] := List.getElem?_eq_getElem hlast
  rw [etherUpTo_succ hr] at he
  rw [sharesUpTo_succ hr] at hs
  have hsubE : ether.val ≤ q.requests[last].cumulativeEther.val := hte.symm ▸ he
  have hsubS : shares.val ≤ q.requests[last].cumulativeShares.val := hts.symm ▸ hs
  unfold rangeTotals
  simp only [request_eq_ok_iff.2 hr, ht, ok_bind, Bounded.sub, if_pos hsubE, if_pos hsubS]
  exact ⟨_, rfl⟩

theorem nextId_eq_ok_iff {id : Count} :
    q.nextId = .ok id ↔ q.length + 1 < Bounded.bound 64 ∧ id.val = q.length := by
  unfold nextId
  split
  · next h =>
    constructor
    · intro e
      cases e
      exact ⟨h, rfl⟩
    · rintro ⟨-, hid⟩
      exact congrArg _ (Bounded.ext hid.symm)
  · next h => simp [h]

/-- An accepted request stands within the limits and continues the running totals. -/
theorem enqueue_eq_ok_iff {recipient : Address} {ether shares : Amount} {block id : Count} :
    q.enqueue recipient ether shares block = .ok (id, q') ↔
      q.limits.min.val < ether.val ∧ ether.val ≤ q.limits.max.val ∧
        q.length + 1 < Bounded.bound 64 ∧ id.val = q.length ∧
        ∃ cumulativeEther cumulativeShares : Amount,
          cumulativeEther.val = q.etherUpTo q.length + ether.val ∧
          cumulativeShares.val = q.sharesUpTo q.length + shares.val ∧
          q' = { q with requests := q.requests ++
            [⟨id, cumulativeEther, cumulativeShares, recipient, block, false⟩] } := by
  obtain ⟨hte, hts⟩ := q.tailTotals_eq
  unfold enqueue
  constructor
  · intro h
    split at h
    · cases h
    · next hmin =>
      split at h
      · cases h
      · next hmax =>
        simp only [bind_eq_ok, Bounded.add_eq_ok_iff, nextId_eq_ok_iff] at h
        obtain ⟨e, he, s, hs, i, ⟨hlen, hi⟩, h⟩ := h
        cases pure_eq_ok.1 h
        exact ⟨Nat.not_le.1 hmin, Nat.not_lt.1 hmax, hlen, hi, e, s, by rw [← hte, he],
          by rw [← hts, hs], rfl⟩
  · rintro ⟨hmin, hmax, hlen, hid, e, s, he, hs, rfl⟩
    have hadd : q.tailTotals.1.add ether = .ok e := Bounded.add_eq_ok_iff.2 (by rw [hte, he])
    have hadd' : q.tailTotals.2.add shares = .ok s := Bounded.add_eq_ok_iff.2 (by rw [hts, hs])
    rw [if_neg (Nat.not_le.2 hmin), if_neg (Nat.not_lt.2 hmax)]
    simp only [hadd, hadd', nextId_eq_ok_iff.2 ⟨hlen, hid⟩, ok_bind]
    rfl

theorem etherOf_enqueue {recipient : Address} {ether shares : Amount} {block id : Count}
    (h : q.enqueue recipient ether shares block = .ok (id, q')) :
    q'.etherOf id.val = ether.val := by
  obtain ⟨-, -, -, hid, e, s, he, -, hq⟩ := enqueue_eq_ok_iff.1 h
  have hreq : q'.requests = q.requests ++ [⟨id, e, s, recipient, block, false⟩] := by rw [hq]
  have hnew : q'.etherUpTo (q.length + 1) = e.val :=
    etherUpTo_succ (by rw [hreq]; exact List.getElem?_concat_length)
  have hold := (upTo_append (Nat.le_refl q.length) hreq).1
  rw [hid, etherOf, hnew, hold, he]
  exact Nat.add_sub_cancel_left ..

theorem checkRange_eq_ok_iff {last : Count} {u : Unit} :
    q.checkRange last = .ok u ↔ q.finalizedCount.val ≤ last.val ∧ last.val < q.length := by
  unfold checkRange
  split
  · next h =>
    simp only [reduceCtorEq, false_iff]
    omega
  · next h =>
    simp only [true_iff]
    omega

/-- The value of shares at a rate, capped by the ether asked for. -/
theorem discounted_eq_ok_iff {ether shares a : Amount} {rate : Rate}
    (hp : rate.poolValue < Bounded.bound 128) :
    discounted ether shares rate = .ok a ↔
      rate.shares ≠ 0 ∧ shares.val * rate.poolValue / rate.shares < Bounded.bound 128 ∧
        a.val = min ether.val (shares.val * rate.poolValue / rate.shares) := by
  have hprod : shares.val * rate.poolValue < productLimit :=
    Amount.mul_lt_productLimit shares ⟨rate.poolValue, hp⟩
  simp only [discounted, Rate.valueForShares, bind_eq_ok, mulDiv_down_eq_ok_iff,
    Bounded.narrow_eq_ok_iff, pure_eq_ok]
  constructor
  · rintro ⟨n, ⟨hs, -, hn⟩, value, hvalue, h⟩
    have hval : shares.val * rate.poolValue / rate.shares = value.val := by rw [← hn, hvalue]
    rw [hval]
    refine ⟨hs, value.isLt, ?_⟩
    rw [← h]
    split <;> omega
  · rintro ⟨hs, hlt, h⟩
    refine ⟨_, ⟨hs, hprod, rfl⟩, ⟨_, hlt⟩, rfl, Bounded.ext ?_⟩
    rw [h]
    split <;> simp only at * <;> omega

theorem settlement_eq_ok {last : Count} {poolValue shares : Amount} {s : Settlement}
    (h : q.settlement last poolValue shares = .ok s) :
    q.finalizedCount.val ≤ last.val ∧ last.val < q.length ∧ shares.val ≠ 0 ∧
      s.sharesToBurn.val + q.sharesUpTo q.finalizedCount.val = q.sharesUpTo (last.val + 1) ∧
      s.sharesToBurn.val * poolValue.val / shares.val < Bounded.bound 128 ∧
      ∃ ether, ether + q.etherUpTo q.finalizedCount.val = q.etherUpTo (last.val + 1) ∧
        s.etherToLock.val = min ether (s.sharesToBurn.val * poolValue.val / shares.val) := by
  simp only [settlement, bind_eq_ok, checkRange_eq_ok_iff] at h
  obtain ⟨-, ⟨hfin, hlen⟩, ⟨ether, burn⟩, ht, rate, hrate, lock, hlock, h⟩ := h
  cases pure_eq_ok.1 h
  obtain ⟨-, rfl⟩ := Rate.make_eq_ok_iff.1 hrate
  obtain ⟨-, he, hs⟩ := rangeTotals_eq_ok ht
  obtain ⟨hne, hlt, hval⟩ := (discounted_eq_ok_iff poolValue.isLt).1 hlock
  exact ⟨hfin, hlen, hne, hs, hlt, ether.val, he, hval⟩

theorem checkFinalize_eq_ok_iff {last : Count} {lock poolValue shares balance t : Amount} :
    q.checkFinalize last lock poolValue shares balance = .ok t ↔
      q.finalizedCount.val ≤ last.val ∧ last.val < q.length ∧
        t.val = q.totalLocked.val + lock.val ∧ t.val ≤ balance.val ∧ shares.val ≠ 0 := by
  simp only [checkFinalize, bind_eq_ok, checkRange_eq_ok_iff, Bounded.add_eq_ok_iff]
  constructor
  · rintro ⟨-, ⟨hfin, hlen⟩, total, htotal, h⟩
    split at h
    · cases h
    · next hle =>
      simp only [bind_eq_ok] at h
      obtain ⟨rate, hrate, price, hprice, h⟩ := h
      cases pure_eq_ok.1 h
      obtain ⟨-, rfl⟩ := Rate.make_eq_ok_iff.1 hrate
      exact ⟨hfin, hlen, htotal.symm, Nat.not_lt.1 hle, (mulDiv_down_eq_ok_iff.1 hprice).1⟩
  · rintro ⟨hfin, hlen, htotal, hle, hs⟩
    refine ⟨(), ⟨hfin, hlen⟩, t, htotal.symm, ?_⟩
    obtain ⟨n, hn⟩ := PriceRun.exists_price (r := ⟨poolValue, shares, last⟩) hs
    rw [PriceRun.price, PriceRun.rate_eq_ok hs, ok_bind] at hn
    rw [if_neg (Nat.not_lt.2 hle), Rate.ofAmounts_eq_ok hs, ok_bind]
    show (Rate.price (PriceRun.pair ⟨poolValue, shares, last⟩) >>= fun _ => pure t) = Except.ok t
    rw [hn]
    rfl

theorem finalize_eq_ok {last : Count} {lock poolValue shares balance : Amount}
    (h : q.finalize last lock poolValue shares balance = .ok q') :
    q.finalizedCount.val ≤ last.val ∧ last.val < q.length ∧ shares.val ≠ 0 ∧
      q'.requests = q.requests ∧ q'.limits = q.limits ∧
      q'.finalizedCount.val = last.val + 1 ∧
      q'.totalLocked.val = q.totalLocked.val + lock.val ∧
      q'.totalLocked.val ≤ balance.val ∧
      q.prices.record last poolValue shares = .ok q'.prices := by
  simp only [finalize, bind_eq_ok, lift_eq_ok, checkFinalize_eq_ok_iff,
    Bounded.next_eq_ok_iff] at h
  obtain ⟨locked, ⟨hfin, hlen, hlock, hle, hs⟩, prices, hprices, count, hcount, h⟩ := h
  cases pure_eq_ok.1 h
  exact ⟨hfin, hlen, hs, rfl, rfl, hcount.symm, hlock, hle, hprices⟩

theorem claim_eq_ok_iff {id : Count} {hint : Option Nat} {escrow escrow' : Escrow}
    {receipt : ClaimReceipt} :
    q.claim id hint escrow = .ok (receipt, q', escrow') ↔
      ∃ r index totalLocked amount, id.val < q.finalizedCount.val ∧
        q.requests[id.val]? = some r ∧ r.claimed = false ∧ q.priceIndex id hint = .ok index ∧
        q.payout id index = .ok amount ∧
        q.totalLocked.val = totalLocked.val + amount.val ∧
        escrow.transfer r.recipient amount = .ok escrow' ∧
        receipt = ⟨id, r.recipient, amount⟩ ∧
        q' = { q with requests := q.markClaimed id.val, totalLocked } := by
  unfold claim claimablePriceIndex
  constructor
  · intro h
    simp only [bind_eq_ok] at h
    obtain ⟨index, hindex, amount, hamount, r, hr, h⟩ := h
    have hr := request_eq_ok_iff.1 hr
    split at hindex
    · cases hindex
    · next hfin =>
      rw [request_eq_ok_iff.2 hr, ok_bind] at hindex
      split at hindex
      · cases hindex
      · next hclaimed =>
        split at h
        · cases h
        · next totalLocked hsub =>
          split at h
          · cases h
          · next e htransfer =>
            cases pure_eq_ok.1 h
            exact ⟨r, index, totalLocked, amount, Nat.not_le.1 hfin, hr,
              Bool.eq_false_iff.2 hclaimed, hindex, hamount, Bounded.sub_eq_ok_iff.1 hsub,
              htransfer, rfl, rfl⟩
  · rintro ⟨r, index, totalLocked, amount, hfin, hr, hclaimed, hindex, hamount, hsub, htransfer,
      rfl, rfl⟩
    have hnot : ¬ r.claimed = true := by simp [hclaimed]
    rw [if_neg (Nat.not_le.2 hfin), request_eq_ok_iff.2 hr, ok_bind, if_neg hnot, hindex, ok_bind,
      hamount, ok_bind, ok_bind]
    simp only [Bounded.sub_eq_ok_iff.2 hsub, htransfer]
    rfl

/-- A claim marks a request, which changes no place and no sum of the ledger. -/
theorem ledger_of_claim {id : Count} {hint : Option Nat} {escrow escrow' : Escrow}
    {receipt : ClaimReceipt} (h : q.claim id hint escrow = .ok (receipt, q', escrow')) :
    q'.finalizedCount = q.finalizedCount ∧ q'.length = q.length ∧
      ∀ n, q'.etherUpTo n = q.etherUpTo n ∧ q'.sharesUpTo n = q.sharesUpTo n := by
  obtain ⟨-, -, _, -, -, -, -, -, -, -, -, -, rfl⟩ := claim_eq_ok_iff.1 h
  exact ⟨rfl, length_markClaimed q id.val, upTo_markClaimed rfl⟩

theorem claimableEther_eq_ok_iff {id : Count} {hint : Option Nat} {a : Amount} :
    q.claimableEther id hint = .ok a ↔
      ∃ r index, id.val < q.finalizedCount.val ∧ q.requests[id.val]? = some r ∧
        r.claimed = false ∧ q.priceIndex id hint = .ok index ∧ q.payout id index = .ok a := by
  unfold claimableEther claimablePriceIndex
  constructor
  · intro h
    obtain ⟨index, hindex, ha⟩ := bind_eq_ok.1 h
    split at hindex
    · cases hindex
    · next hfin =>
      obtain ⟨r, hr, hindex⟩ := bind_eq_ok.1 hindex
      split at hindex
      · cases hindex
      · next hclaimed =>
        exact ⟨r, index, Nat.not_le.1 hfin, request_eq_ok_iff.1 hr, Bool.eq_false_iff.2 hclaimed,
          hindex, ha⟩
  · rintro ⟨r, index, hfin, hr, hclaimed, hindex, ha⟩
    have hnot : ¬ r.claimed = true := by simp [hclaimed]
    rw [if_neg (Nat.not_le.2 hfin), request_eq_ok_iff.2 hr, ok_bind, if_neg hnot, hindex, ok_bind,
      ha]

end WithdrawalQueue
end LiquidStaking

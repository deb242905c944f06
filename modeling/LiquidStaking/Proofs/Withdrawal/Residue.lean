/-
What stays locked when every finalized request is paid.

A batch locks one minimum: of the ether its requests asked for together and the value of their
shares together.  Each request is then paid a minimum of its own.  The two agree up to rounding as
long as no batch holds a request that is worth less than it asked for next to one that is worth
more; otherwise what one forgoes is locked against what the other gained, and nobody claims it.
-/
import LiquidStaking.Proofs.Withdrawal.Payments
import LiquidStaking.Proofs.Withdrawal.SolventRuns
import Mathlib.Algebra.BigOperators.Ring.Finset

namespace LiquidStaking

namespace WithdrawalQueue

open Finset

variable {q q' : WithdrawalQueue} {rate : Rate}

/-- The value of a request's shares at a rate, in whole wei. -/
def value (q : WithdrawalQueue) (id : Nat) (rate : Rate) : Nat :=
  q.sharesOf id * rate.poolValue / rate.shares

theorem sum_value_le (hs : rate.shares ≠ 0) (ids : Finset Nat) :
    ∑ i ∈ ids, q.value i rate ≤ (∑ i ∈ ids, q.sharesOf i) * rate.poolValue / rate.shares := by
  rw [Nat.le_div_iff_mul_le (Nat.pos_of_ne_zero hs), sum_mul, sum_mul]
  exact sum_le_sum (fun i _ => Nat.div_mul_le_self _ _)

theorem lt_sum_value (hs : rate.shares ≠ 0) {ids : Finset Nat} (hne : ids.Nonempty) :
    (∑ i ∈ ids, q.sharesOf i) * rate.poolValue / rate.shares <
      ∑ i ∈ ids, q.value i rate + ids.card := by
  have hpos : 0 < rate.shares := Nat.pos_of_ne_zero hs
  rw [Nat.div_lt_iff_lt_mul hpos, card_eq_sum_ones, ← sum_add_distrib, sum_mul, sum_mul]
  refine sum_lt_sum_of_nonempty hne (fun i _ => ?_)
  show q.sharesOf i * rate.poolValue < (q.sharesOf i * rate.poolValue / rate.shares + 1) * _
  exact Nat.lt_mul_of_div_lt (Nat.lt_succ_self _) hpos

end WithdrawalQueue

/-- The requests from `first` up to and without `next`, and the rate they settled at. -/
structure SettledBatch where
  first : Nat
  next : Nat
  rate : Rate

namespace SettledBatch

open Finset

def requests (b : SettledBatch) : Finset Nat := Ico b.first b.next

def lock (b : SettledBatch) (q : WithdrawalQueue) : Nat :=
  min (∑ i ∈ b.requests, q.etherOf i)
    ((∑ i ∈ b.requests, q.sharesOf i) * b.rate.poolValue / b.rate.shares)

/-- The ether asked for by requests whose shares are worth less. -/
def forgone (b : SettledBatch) (q : WithdrawalQueue) : Nat :=
  ∑ i ∈ b.requests, (q.etherOf i - q.value i b.rate)

/-- The value of shares whose requests asked for less. -/
def gained (b : SettledBatch) (q : WithdrawalQueue) : Nat :=
  ∑ i ∈ b.requests, (q.value i b.rate - q.etherOf i)

/-- What the batch locks because it mixes requests that forgo ether with requests that gained. -/
def mixed (b : SettledBatch) (q : WithdrawalQueue) : Nat := min (b.forgone q) (b.gained q)

/-- Whether no request forgoes ether while another gained, at the rate of the batch. -/
def OneSided (b : SettledBatch) (q : WithdrawalQueue) : Prop :=
  (∀ i ∈ b.requests, q.etherOf i ≤ q.value i b.rate) ∨
    ∀ i ∈ b.requests, q.value i b.rate ≤ q.etherOf i

variable {b : SettledBatch} {q q' : WithdrawalQueue}

theorem mixed_eq_zero_iff : b.mixed q = 0 ↔ b.OneSided q := by
  rw [mixed, Nat.min_eq_zero_iff, forgone, gained, sum_eq_zero_iff, sum_eq_zero_iff]
  simp only [Nat.sub_eq_zero_iff_le]
  exact Iff.rfl

theorem lock_bounds (hs : b.rate.shares ≠ 0) (hne : b.requests.Nonempty) :
    b.mixed q + ∑ i ∈ b.requests, q.worth i b.rate ≤ b.lock q ∧
      b.lock q < b.mixed q + ∑ i ∈ b.requests, q.worth i b.rate + b.requests.card := by
  have hether : ∑ i ∈ b.requests, q.worth i b.rate + b.forgone q =
      ∑ i ∈ b.requests, q.etherOf i := by
    rw [forgone, ← sum_add_distrib]
    refine sum_congr rfl (fun i _ => ?_)
    show min (q.etherOf i) (q.value i b.rate) + _ = _
    omega
  have hvalue : ∑ i ∈ b.requests, q.worth i b.rate + b.gained q =
      ∑ i ∈ b.requests, q.value i b.rate := by
    rw [gained, ← sum_add_distrib]
    refine sum_congr rfl (fun i _ => ?_)
    show min (q.etherOf i) (q.value i b.rate) + _ = _
    omega
  have hfloor := q.sum_value_le hs b.requests
  have hdust := q.lt_sum_value hs hne
  have hcard := hne.card_pos
  unfold mixed lock
  omega

theorem lock_congr (h : ∀ i < b.next, q'.etherOf i = q.etherOf i ∧ q'.sharesOf i = q.sharesOf i) :
    b.lock q' = b.lock q := by
  have hmem : ∀ i ∈ b.requests, i < b.next := fun i hi => (mem_Ico.1 hi).2
  rw [lock, lock, sum_congr rfl (fun i hi => (h i (hmem i hi)).1),
    sum_congr rfl (fun i hi => (h i (hmem i hi)).2)]

end SettledBatch

namespace WithdrawalQueue

open Finset

variable {q q' : WithdrawalQueue}

theorem lock_of_settlement (hv : q.Valid) {last : Count} {poolValue shares : Amount}
    {s : Settlement} (hs : q.settlement last poolValue shares = .ok s) :
    SettledBatch.lock ⟨q.finalizedCount.val, last.val + 1, ⟨poolValue.val, shares.val⟩⟩ q =
      s.etherToLock.val := by
  obtain ⟨hfirst, hlast, -, hburn, -, ether, hether, hamount⟩ := settlement_eq_ok hs
  have hle : q.finalizedCount.val ≤ last.val + 1 := Nat.le_succ_of_le hfirst
  have hethers := sum_etherOf hv hle hlast
  have hshares := sum_sharesOf hv hle hlast
  have hburnt : ∑ i ∈ Ico q.finalizedCount.val (last.val + 1), q.sharesOf i =
      s.sharesToBurn.val := by omega
  have hasked : ∑ i ∈ Ico q.finalizedCount.val (last.val + 1), q.etherOf i = ether := by omega
  rw [hamount, ← hburnt, ← hasked]
  rfl

/-- Queues that runs can reach, and the batches they finalized on the way, the latest first.  Every
batch locks what its settlement asks for. -/
inductive Settled (limits : WithdrawalLimits) : List SettledBatch → WithdrawalQueue → Prop
  | create : Settled limits [] (create limits)
  | enqueue {bs : List SettledBatch} {q q' : WithdrawalQueue} {recipient : Address}
      {ether shares : Amount} {block id : Count} (run : Settled limits bs q)
      (h : q.enqueue recipient ether shares block = .ok (id, q')) : Settled limits bs q'
  | finalize {bs : List SettledBatch} {q q' : WithdrawalQueue} {last : Count}
      {poolValue shares balance : Amount} {s : Settlement} (run : Settled limits bs q)
      (hs : q.settlement last poolValue shares = .ok s)
      (h : q.finalize last s.etherToLock poolValue shares balance = .ok q') :
      Settled limits
        (⟨q.finalizedCount.val, last.val + 1, ⟨poolValue.val, shares.val⟩⟩ :: bs) q'
  | claim {bs : List SettledBatch} {q q' : WithdrawalQueue} {id : Count} {hint : Option Nat}
      {escrow escrow' : Escrow} {receipt : ClaimReceipt} (run : Settled limits bs q)
      (h : q.claim id hint escrow = .ok (receipt, q', escrow')) : Settled limits bs q'

theorem reached_iff_settled {limits : WithdrawalLimits} :
    Reached (fun _ _ => True) limits q ↔ ∃ bs, Settled limits bs q := by
  constructor
  · intro h
    induction h with
    | refl => exact ⟨[], .create⟩
    | tail _ step ih =>
      obtain ⟨bs, run⟩ := ih
      cases step with
      | enqueue h => exact ⟨bs, run.enqueue h⟩
      | finalize hs _ h => exact ⟨_, run.finalize hs h⟩
      | claim h => exact ⟨bs, run.claim h⟩
  · rintro ⟨bs, run⟩
    induction run with
    | create => exact .refl
    | enqueue _ h ih => exact .tail ih (.enqueue h)
    | finalize _ hs h ih => exact .tail ih (.finalize hs (fun _ _ _ => trivial) h)
    | claim _ h ih => exact .tail ih (.claim h)

/-- What is locked and what was paid are together what the batches locked. -/
structure Accounted (bs : List SettledBatch) (q : WithdrawalQueue) : Prop where
  valid : q.Valid
  proper : ∀ b ∈ bs, b.requests.Nonempty ∧ b.next ≤ q.finalizedCount.val ∧ b.rate.shares ≠ 0
  tiles : ∀ f : Nat → Nat,
    (bs.map (fun b => ∑ i ∈ b.requests, f i)).sum = ∑ i ∈ range q.finalizedCount.val, f i
  locked : q.totalLocked.val + q.payments = (bs.map (fun b => b.lock q)).sum

namespace Accounted

variable {bs : List SettledBatch}

theorem locks_eq (ha : Accounted bs q) (h : q.Changes q') :
    bs.map (fun b => b.lock q') = bs.map (fun b => b.lock q) := by
  refine List.map_congr_left (fun b hb => SettledBatch.lock_congr (fun i hi => h.of_eq ?_))
  exact Nat.lt_of_lt_of_le hi (Nat.le_trans (ha.proper b hb).2.1 ha.valid.reached)

theorem enqueue (ha : Accounted bs q) {recipient : Address} {ether shares : Amount}
    {block id : Count} (h : q.enqueue recipient ether shares block = .ok (id, q')) :
    Accounted bs q' := by
  have hv := ha.valid
  have hlocks := ha.locks_eq (.enqueue h)
  have hpayments := payments_enqueue hv h
  have hlocked := ha.locked
  have hv' := hv.enqueue h
  obtain ⟨-, -, -, -, e, s, -, -, rfl⟩ := enqueue_eq_ok_iff.1 h
  exact ⟨hv', ha.proper, ha.tiles, by rw [hlocks, hpayments]; exact hlocked⟩

theorem finalize (ha : Accounted bs q) {last : Count} {poolValue shares balance : Amount}
    {s : Settlement} (hs : q.settlement last poolValue shares = .ok s)
    (h : q.finalize last s.etherToLock poolValue shares balance = .ok q') :
    Accounted (⟨q.finalizedCount.val, last.val + 1, ⟨poolValue.val, shares.val⟩⟩ :: bs) q' := by
  have hv := ha.valid
  have hchange : q.Changes q' := .finalize h
  obtain ⟨hfirst, hlast, hne, -, -, hcount, hlock, -, -⟩ := finalize_eq_ok h
  have hle : q.finalizedCount.val ≤ last.val + 1 := Nat.le_succ_of_le hfirst
  refine ⟨hv.finalize h, ?_, ?_, ?_⟩
  · intro b hb
    rcases List.mem_cons.1 hb with rfl | hb
    · exact ⟨⟨last.val, mem_Ico.2 ⟨hfirst, Nat.lt_succ_self _⟩⟩, Nat.le_of_eq hcount.symm, hne⟩
    · obtain ⟨hproper, hnext, hshares⟩ := ha.proper b hb
      exact ⟨hproper, by omega, hshares⟩
  · intro f
    rw [hcount, ← sum_range_add_sum_Ico f hle, ← ha.tiles f]
    exact Nat.add_comm _ _
  · have hbatch : SettledBatch.lock
        ⟨q.finalizedCount.val, last.val + 1, ⟨poolValue.val, shares.val⟩⟩ q' =
          s.etherToLock.val := by
      have hlt : ∀ i < last.val + 1, i < q.length := fun i hi => Nat.lt_of_lt_of_le hi hlast
      rw [SettledBatch.lock_congr (q := q) (fun i hi => hchange.of_eq (hlt i hi)),
        lock_of_settlement hv hs]
    have hlocked := ha.locked
    rw [List.map_cons, List.sum_cons, ha.locks_eq hchange, hbatch, payments_finalize hv h]
    omega

theorem claim (ha : Accounted bs q) {id : Count} {hint : Option Nat} {escrow escrow' : Escrow}
    {receipt : ClaimReceipt} (h : q.claim id hint escrow = .ok (receipt, q', escrow')) :
    Accounted bs q' := by
  have hlocks := ha.locks_eq (.claim h)
  have hpayments := payments_claim ha.valid h
  have hv' := ha.valid.claim h
  have hlocked := ha.locked
  obtain ⟨r, index, locked, amount, -, -, -, -, -, htotal, -, rfl, rfl⟩ := claim_eq_ok_iff.1 h
  refine ⟨hv', ha.proper, ha.tiles, ?_⟩
  rw [hlocks, hpayments]
  show locked.val + (q.payments + amount.val) = _
  omega

end Accounted

theorem Settled.accounted {limits : WithdrawalLimits} {bs : List SettledBatch}
    (run : Settled limits bs q) : Accounted bs q := by
  induction run with
  | create => exact ⟨create_valid limits, by simp, fun _ => rfl, rfl⟩
  | enqueue _ h ih => exact ih.enqueue h
  | finalize _ hs h ih => exact ih.finalize hs h
  | claim _ h ih => exact ih.claim h

/-- Whether every request of a batch is paid at the rate the batch settled at, or one equal to
it. -/
def PaysAt (q : WithdrawalQueue) (b : SettledBatch) : Prop :=
  ∀ i ∈ b.requests, ∃ rate, q.prices.rateFor i = some rate ∧ rate.shares ≠ 0 ∧
    rate.AtMost b.rate ∧ b.rate.AtMost rate

theorem PaysAt.payment_eq {b : SettledBatch} (h : q.PaysAt b) (hs : b.rate.shares ≠ 0) {i : Nat}
    (hi : i ∈ b.requests) : q.payment i = q.worth i b.rate := by
  obtain ⟨rate, hrate, hne, hle, hge⟩ := h i hi
  have hvalue := Nat.le_antisymm (Rate.value_le_of_atMost hle hs (q.sharesOf i))
    (Rate.value_le_of_atMost hge hne (q.sharesOf i))
  rw [payment, hrate, Option.elim_some, worth, worth, hvalue]

def mixed (q : WithdrawalQueue) (bs : List SettledBatch) : Nat := (bs.map (fun b => b.mixed q)).sum

theorem mixed_eq_zero {bs : List SettledBatch} (h : ∀ b ∈ bs, b.OneSided q) : q.mixed bs = 0 := by
  refine List.sum_eq_zero (fun n hn => ?_)
  obtain ⟨b, hb, rfl⟩ := List.mem_map.1 hn
  exact SettledBatch.mixed_eq_zero_iff.2 (h b hb)

namespace Accounted

variable {bs : List SettledBatch}

/-- The bounds of the batches together, each paid at its own rate. -/
theorem locks_bounds : ∀ (bs : List SettledBatch),
    (∀ b ∈ bs, b.requests.Nonempty ∧ b.rate.shares ≠ 0 ∧ q.PaysAt b) →
      q.mixed bs + (bs.map (fun b => ∑ i ∈ b.requests, q.payment i)).sum ≤
          (bs.map (fun b => b.lock q)).sum ∧
        (bs.map (fun b => b.lock q)).sum + bs.length ≤
          q.mixed bs + (bs.map (fun b => ∑ i ∈ b.requests, q.payment i)).sum +
            (bs.map (fun b => ∑ _i ∈ b.requests, 1)).sum
  | [], _ => by simp [mixed]
  | b :: bs, h => by
    obtain ⟨hlow, hhigh⟩ := locks_bounds bs (fun b hb => h b (List.mem_cons_of_mem _ hb))
    obtain ⟨hne, hs, hpays⟩ := h b List.mem_cons_self
    obtain ⟨hmin, hmax⟩ := b.lock_bounds (q := q) hs hne
    have hworth : ∑ i ∈ b.requests, q.payment i = ∑ i ∈ b.requests, q.worth i b.rate :=
      sum_congr rfl (fun i hi => hpays.payment_eq hs hi)
    unfold mixed at hlow hhigh ⊢
    simp only [List.map_cons, List.sum_cons, List.length_cons, hworth, ← card_eq_sum_ones] at *
    omega

end Accounted

/-- Once every finalized request is claimed, what stays locked is what the batches locked and did
not pay.  Where every request is paid at the rate of its batch, that is what the batches mixed and
less than a wei of rounding for each request; without mixed batches it is rounding alone. -/
theorem locked_up_to_mixing {limits : WithdrawalLimits} {bs : List SettledBatch}
    (run : Settled limits bs q) (hclaimed : ∀ i < q.finalizedCount.val, q.isClaimed i = true) :
    q.totalLocked.val + ∑ i ∈ range q.finalizedCount.val, q.payment i =
        (bs.map (fun b => b.lock q)).sum ∧
      ((∀ b ∈ bs, q.PaysAt b) → q.mixed bs ≤ q.totalLocked.val ∧
        (0 < q.finalizedCount.val →
          q.totalLocked.val < q.mixed bs + q.finalizedCount.val)) ∧
      ((∀ b ∈ bs, q.PaysAt b ∧ b.OneSided q) → 0 < q.finalizedCount.val →
        q.totalLocked.val < q.finalizedCount.val) := by
  have ha := run.accounted
  have hpaid : q.payments = ∑ i ∈ range q.finalizedCount.val, q.payment i := by
    refine sum_congr rfl (fun i hi => ?_)
    rw [paid, hclaimed i (mem_range.1 hi), if_pos rfl]
  have hlocked := ha.locked
  rw [hpaid] at hlocked
  have hbounds : (∀ b ∈ bs, q.PaysAt b) → q.mixed bs ≤ q.totalLocked.val ∧
      (0 < q.finalizedCount.val → q.totalLocked.val < q.mixed bs + q.finalizedCount.val) := by
    intro hpays
    obtain ⟨hlow, hhigh⟩ := Accounted.locks_bounds bs
      (fun b hb => ⟨(ha.proper b hb).1, (ha.proper b hb).2.2, hpays b hb⟩)
    have hsum := ha.tiles q.payment
    have hcount := ha.tiles (fun _ => 1)
    rw [← card_eq_sum_ones, card_range] at hcount
    refine ⟨by omega, fun hpos => ?_⟩
    have hsome : 0 < bs.length := by
      refine Nat.pos_of_ne_zero (fun hnil => ?_)
      rw [List.length_eq_zero_iff.1 hnil] at hcount
      exact Nat.ne_of_lt hpos hcount
    omega
  refine ⟨hlocked, hbounds, fun h hpos => ?_⟩
  have hlt := (hbounds (fun b hb => (h b hb).1)).2 hpos
  rw [mixed_eq_zero (fun b hb => (h b hb).2)] at hlt
  omega

/- A request for 100 wei with 100 shares and one for 200 wei with as many, in one batch at three
halves: the first forgoes nothing and gained 50, the second forgoes 50. -/

def hundredShares (claimed claimed' : Bool) : List WithdrawalRequest :=
  [⟨Bounded.zero, 100, 100, .zero, Bounded.zero, claimed⟩,
    ⟨1, 300, 200, .zero, Bounded.zero, claimed'⟩]

def unsettledPair (count : Nat) : WithdrawalQueue :=
  { create ⟨Bounded.zero, 1000⟩ with requests := (hundredShares false false).take count }

def settledPair (locked : Amount) (claimed claimed' : Bool) : WithdrawalQueue where
  requests := hundredShares claimed claimed'
  prices := ⟨[⟨3, 2, 1⟩]⟩
  finalizedCount := 2
  totalLocked := locked
  limits := ⟨Bounded.zero, 1000⟩

theorem settled_pair :
    Settled ⟨Bounded.zero, 1000⟩ [⟨0, 2, ⟨3, 2⟩⟩] (settledPair 50 true true) := by
  have hfirst : (create ⟨Bounded.zero, 1000⟩).enqueue .zero 100 100 Bounded.zero =
      .ok (Bounded.zero, unsettledPair 1) := by decide +kernel
  have hsecond : (unsettledPair 1).enqueue .zero 200 100 Bounded.zero =
      .ok (1, unsettledPair 2) := by decide +kernel
  have hsettle : (unsettledPair 2).settlement 1 3 2 = .ok ⟨300, 200⟩ := by decide +kernel
  have hfinal : (unsettledPair 2).finalize 1 300 3 2 300 =
      .ok (settledPair 300 false false) := by decide +kernel
  have hclaim : (settledPair 300 false false).claim Bounded.zero none (.ofBalance 300) =
      .ok (⟨Bounded.zero, .zero, 100⟩, settledPair 200 true false,
        ⟨200, AddressMap.empty.insert .zero 100, .empty⟩) := by decide +kernel
  have hclaim' : (settledPair 200 true false).claim 1 none (.ofBalance 200) =
      .ok (⟨1, .zero, 150⟩, settledPair 50 true true,
        ⟨50, AddressMap.empty.insert .zero 150, .empty⟩) := by decide +kernel
  exact ((((Settled.create.enqueue hfirst).enqueue hsecond).finalize hsettle hfinal).claim
    hclaim).claim hclaim'

theorem all_claimed_pair : ∀ i < (settledPair 50 true true).finalizedCount.val,
    (settledPair 50 true true).isClaimed i = true := by decide +kernel

theorem locked_up_to_mixing_pair :
    (settledPair 50 true true).mixed [⟨0, 2, ⟨3, 2⟩⟩] = 50 ∧
      50 ≤ (settledPair 50 true true).totalLocked.val ∧
      (settledPair 50 true true).totalLocked.val < 50 + 2 := by
  have hmixed : (settledPair 50 true true).mixed [⟨0, 2, ⟨3, 2⟩⟩] = 50 := by decide +kernel
  have hpays : ∀ b ∈ [(⟨0, 2, ⟨3, 2⟩⟩ : SettledBatch)], (settledPair 50 true true).PaysAt b := by
    intro b hb i hi
    rw [List.mem_singleton.1 hb] at hi ⊢
    obtain ⟨-, hi⟩ := Finset.mem_Ico.1 hi
    obtain rfl | rfl : i = 0 ∨ i = 1 := by simp only at hi; omega
    · exact ⟨⟨3, 2⟩, rfl, by decide, Nat.le_refl _, Nat.le_refl _⟩
    · exact ⟨⟨3, 2⟩, rfl, by decide, Nat.le_refl _, Nat.le_refl _⟩
  obtain ⟨-, h, -⟩ := locked_up_to_mixing settled_pair all_claimed_pair
  obtain ⟨hlow, hhigh⟩ := h hpays
  rw [hmixed] at hlow hhigh
  exact ⟨hmixed, hlow, hhigh (by decide)⟩

/-- Both requests are claimed, and 50 wei stay locked for nobody. -/
theorem mixed_batch_stays_locked :
    ∃ limits bs q, Settled limits bs q ∧ 0 < q.finalizedCount.val ∧
      (∀ i < q.finalizedCount.val, q.isClaimed i = true) ∧
      ¬ q.totalLocked.val < q.finalizedCount.val :=
  ⟨_, _, _, settled_pair, by decide, all_claimed_pair, by decide⟩

end WithdrawalQueue
end LiquidStaking

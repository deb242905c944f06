/-
Runs of a queue, and when they stay solvent.

A batch whose integer price agrees with that of the last run joins the run and is paid at the run's
rate.  Two rates of one integer price may still differ, and a batch that joins a run of a greater
rate is owed more than it locked.  Without such joins the locked ether covers every debt.
-/
import LiquidStaking.Proofs.Withdrawal.Solvency
import Mathlib.Logic.Relation

namespace LiquidStaking
namespace WithdrawalQueue

/-- A step of a queue whose batches lock what their settlement asks for, as those of a report do.
`joins` says at which rates a batch may join the last run. -/
inductive Step (joins : Rate → Rate → Prop) : WithdrawalQueue → WithdrawalQueue → Prop
  | enqueue {q q' : WithdrawalQueue} {recipient : Address} {ether shares : Amount}
      {block id : Count} (h : q.enqueue recipient ether shares block = .ok (id, q')) :
      Step joins q q'
  | finalize {q q' : WithdrawalQueue} {last : Count} {poolValue shares balance : Amount}
      {s : Settlement} (hs : q.settlement last poolValue shares = .ok s)
      (hjoin : ∀ run ∈ q.prices.runs.getLast?,
        run.price = PriceRun.price ⟨poolValue, shares, last⟩ →
          joins run.pair ⟨poolValue.val, shares.val⟩)
      (h : q.finalize last s.etherToLock poolValue shares balance = .ok q') : Step joins q q'
  | claim {q q' : WithdrawalQueue} {id : Count} {hint : Option Nat} {escrow escrow' : Escrow}
      {receipt : ClaimReceipt} (h : q.claim id hint escrow = .ok (receipt, q', escrow')) :
      Step joins q q'

/-- The queues that runs under some limits can reach. -/
def Reached (joins : Rate → Rate → Prop) (limits : WithdrawalLimits) (q : WithdrawalQueue) :
    Prop :=
  Relation.ReflTransGen (Step joins) (create limits) q

variable {joins : Rate → Rate → Prop} {limits : WithdrawalLimits} {q q' : WithdrawalQueue}

theorem Valid.step (hv : q.Valid) (h : Step joins q q') : q'.Valid := by
  cases h with
  | enqueue h => exact hv.enqueue h
  | finalize _ _ h => exact hv.finalize h
  | claim h => exact hv.claim h

theorem Backed.step (hjoins : ∀ a b, joins a b → a.AtMost b) (hb : q.Backed)
    (h : Step joins q q') : q'.Backed := by
  cases h with
  | enqueue h => exact hb.enqueue h
  | finalize hs hjoin h => exact hb.finalize hs (fun run hr hp => hjoins _ _ (hjoin run hr hp)) h
  | claim h => exact hb.claim h

theorem Reached.valid (h : Reached joins limits q) : q.Valid := by
  induction h with
  | refl => exact create_valid limits
  | tail _ step ih => exact ih.step step

theorem Reached.backed (hjoins : ∀ a b, joins a b → a.AtMost b) (h : Reached joins limits q) :
    q.Backed := by
  induction h with
  | refl => exact create_backed limits
  | tail _ step ih => exact ih.step hjoins step

/- The condition on joins cannot be dropped: any join of a batch to a run of a greater rate leaves
some queue owing more than it locked.  The run's own batch is one request of a wei without shares;
the joining batch is one request for the whole value of the run. -/

theorem Valid.exists_finalize (hv : q.Valid) (last : Count) (poolValue : Amount) {shares : Amount}
    (hfirst : q.finalizedCount.val ≤ last.val) (hlast : last.val < q.length)
    (hs : shares.val ≠ 0)
    (hfits : q.totalLocked.val + (q.sharesUpTo (last.val + 1) -
      q.sharesUpTo q.finalizedCount.val) * poolValue.val / shares.val < Bounded.bound 128) :
    ∃ s balance q', q.settlement last poolValue shares = .ok s ∧
      q.finalize last s.etherToLock poolValue shares balance = .ok q' := by
  obtain ⟨s, hsettle⟩ := hv.exists_settlement hfirst hlast hs
    (Nat.lt_of_le_of_lt (Nat.le_add_left _ _) hfits)
  obtain ⟨-, -, -, hburn, -, ether, -, hlock⟩ := settlement_eq_ok hsettle
  have hshares : q.sharesUpTo (last.val + 1) - q.sharesUpTo q.finalizedCount.val =
      s.sharesToBurn.val := by omega
  rw [hshares] at hfits
  have hlocked : q.totalLocked.val + s.etherToLock.val < Bounded.bound 128 := by omega
  obtain ⟨q', hfinal⟩ :=
    hv.exists_finalize_of_balance hsettle (Nat.le_refl (⟨_, hlocked⟩ : Amount).val)
  exact ⟨s, _, q', hsettle, hfinal⟩

/-- A request of one wei without shares. -/
def oneRequest (ether : Amount) : WithdrawalQueue :=
  { create ⟨Bounded.zero, ether⟩ with
    requests := [⟨Bounded.zero, 1, Bounded.zero, .zero, Bounded.zero, false⟩] }

/-- A request of one wei without shares, and after it one of `ether` with `shares`. -/
def twoRequests (ether shares total : Amount) : WithdrawalQueue :=
  { oneRequest ether with
    requests := (oneRequest ether).requests ++
      [⟨1, total, shares, .zero, Bounded.zero, false⟩] }

theorem twoRequests_reached (joins : Rate → Rate → Prop) {ether shares total : Amount}
    (hpos : 0 < ether.val) (htotal : total.val = ether.val + 1) :
    Reached joins ⟨Bounded.zero, ether⟩ (twoRequests ether shares total) := by
  have hroom : 0 + 1 < Bounded.bound 64 := by decide
  have hroom' : 1 + 1 < Bounded.bound 64 := by decide
  have hsum : total.val = 1 + ether.val := by omega
  have hfirst : (create ⟨Bounded.zero, ether⟩).enqueue .zero 1 Bounded.zero
      Bounded.zero = .ok (Bounded.zero, oneRequest ether) :=
    enqueue_eq_ok_iff.2 ⟨Nat.one_pos, hpos, hroom, rfl, 1, Bounded.zero, rfl, rfl,
      rfl⟩
  have hsecond : (oneRequest ether).enqueue .zero ether shares Bounded.zero =
      .ok (1, twoRequests ether shares total) :=
    enqueue_eq_ok_iff.2 ⟨hpos, Nat.le_refl _, hroom', rfl, total, shares, hsum,
      (Nat.zero_add _).symm, rfl⟩
  exact .tail (.tail .refl (.enqueue hfirst)) (.enqueue hsecond)

/-- A batch of the same price as the only run takes the run to its own end. -/
theorem runs_of_join {h h' : PriceHistory} {run : PriceRun} (hruns : h.runs = [run])
    {last : Count} {poolValue shares : Amount} (e : h.record last poolValue shares = .ok h')
    (hprice : run.price = PriceRun.price ⟨poolValue, shares, last⟩) :
    h'.runs = [{ run with last }] := by
  obtain ⟨-, -, ⟨-, hdiffer⟩ | ⟨rs, before, hold, hnew, -⟩⟩ := PriceHistory.record_eq_ok e
  · exact absurd hprice (hdiffer run (by rw [hruns]; rfl))
  · have hold : rs ++ [before] = [] ++ [run] := hold.symm.trans hruns
    obtain ⟨rfl, hbefore⟩ := List.append_inj' hold rfl
    rw [hnew, (List.cons.inj hbefore).1]
    rfl

theorem runs_of_first {h h' : PriceHistory} (hruns : h.runs = []) {last : Count}
    {poolValue shares : Amount} (e : h.record last poolValue shares = .ok h') :
    h'.runs = [⟨poolValue, shares, last⟩] := by
  obtain ⟨-, -, ⟨hnew, -⟩ | ⟨rs, before, hold, -, -⟩⟩ := PriceHistory.record_eq_ok e
  · rw [hnew, hruns]
    rfl
  · rw [hruns] at hold
    exact absurd hold.symm (List.append_ne_nil_of_right_ne_nil _ (List.cons_ne_nil _ _))

theorem exists_first_batch (joins : Rate → Rate → Prop) {run : PriceRun}
    (hrun : run.shares.val ≠ 0) (hpos : 0 < run.poolValue.val) (total : Amount)
    (htotal : total.val = run.poolValue.val + 1) :
    ∃ q, Reached joins ⟨Bounded.zero, run.poolValue⟩ q ∧
      q.requests = (twoRequests run.poolValue run.shares total).requests ∧
      q.finalizedCount.val = 1 ∧ q.totalLocked.val = 0 ∧
      q.prices.runs = [{ run with last := Bounded.zero }] := by
  obtain ⟨q, hq⟩ : ∃ q, q = twoRequests run.poolValue run.shares total := ⟨_, rfl⟩
  have hreached : Reached joins ⟨Bounded.zero, run.poolValue⟩ q :=
    hq ▸ twoRequests_reached joins hpos htotal
  have hshares : q.sharesUpTo (0 + 1) - q.sharesUpTo q.finalizedCount.val = 0 := by rw [hq]; rfl
  have hlocked : q.totalLocked.val = 0 := by rw [hq]; rfl
  obtain ⟨s, balance, q', hs, h⟩ := hreached.valid.exists_finalize Bounded.zero run.poolValue
    (by rw [hq]; exact Nat.le_refl _)
    (by rw [hq]; exact Nat.two_pos) hrun (by
      show _ + (q.sharesUpTo (0 + 1) - _) * _ / _ < _
      rw [hshares, hlocked, Nat.zero_mul, Nat.zero_div]
      exact Bounded.bound_pos 128)
  obtain ⟨-, -, -, hreq, -, hcount, hlock, -, hprices⟩ := finalize_eq_ok h
  obtain ⟨-, -, -, hburn, -, ether, -, hamount⟩ := settlement_eq_ok hs
  have hnone : s.sharesToBurn.val = 0 := by
    simp only [Bounded.val_zero] at hburn
    omega
  rw [hnone, Nat.zero_mul, Nat.zero_div] at hamount
  have hempty : q.prices.runs = [] := by rw [hq]; rfl
  refine ⟨q', .tail hreached (.finalize hs ?_ h), by rw [hreq, hq], hcount, by omega,
    runs_of_first hempty hprices⟩
  rw [hempty]
  simp

theorem second_of_twoRequests {ether shares total : Amount}
    (hreq : q.requests = (twoRequests ether shares total).requests)
    (htotal : total.val = ether.val + 1) :
    q.etherOf 1 = ether.val ∧ q.sharesOf 1 = shares.val := by
  obtain ⟨hether, hshares⟩ := etherOf_sharesOf_of_requests hreq 1
  rw [hether, hshares]
  show total.val - 1 = ether.val ∧ shares.val - 0 = shares.val
  omega

/-- Once its batch has joined the run, the second request is paid all the ether it asked for. -/
theorem claimableAt_of_join {run : PriceRun} (hrun : run.shares.val ≠ 0) {total : Amount}
    (htotal : total.val = run.poolValue.val + 1) (hv : q.Valid)
    (hreq : q.requests = (twoRequests run.poolValue run.shares total).requests)
    (hcount : q.finalizedCount.val = 2)
    (hruns : q.prices.runs = [{ run with last := 1 }]) :
    q.claimableAt 1 = run.poolValue.val := by
  obtain ⟨hether, hshares⟩ := second_of_twoRequests hreq htotal
  have hrate : q.prices.rateFor 1 = some run.pair := by
    rw [PriceHistory.rateFor, hruns]
    rfl
  have hfull : q.sharesOf 1 * run.pair.poolValue / run.pair.shares = run.poolValue.val := by
    rw [hshares]
    exact Nat.mul_div_cancel_left _ (Nat.pos_of_ne_zero hrun)
  have hworth : run.poolValue.val = q.worth 1 run.pair := by
    rw [worth, hfull, hether, Nat.min_self]
  have hsecond : q.requests[1]? =
      some ⟨1, total, run.shares, .zero, Bounded.zero, false⟩ := by
    rw [hreq]
    rfl
  have hclaim : q.claimableEther 1 none = .ok run.poolValue := by
    refine hv.claimableEther_eq_ok_iff.2 ⟨?_, ⟨_, hsecond, rfl⟩, run.pair, hrate,
      hfull ▸ run.poolValue.isLt, hworth⟩
    rw [hcount]
    exact Nat.one_lt_two
  rw [claimableAt, hsecond, Option.bind_some, hclaim]
  rfl

theorem exists_shortfall {run batch : PriceRun} (hrun : run.shares.val ≠ 0)
    (hbatch : batch.shares.val ≠ 0) (hprice : run.price = batch.price)
    (hroom : run.poolValue.val + 1 < Bounded.bound 128)
    (hless : ¬ run.pair.AtMost batch.pair) (hjoin : joins run.pair batch.pair) :
    ∃ limits q, Reached joins limits q ∧ q.totalLocked.val < q.owed := by
  have hless : batch.poolValue.val * run.shares.val < run.poolValue.val * batch.shares.val :=
    Nat.not_le.1 hless
  have hpos : 0 < run.poolValue.val :=
    Nat.pos_of_mul_pos_right (Nat.lt_of_le_of_lt (Nat.zero_le _) hless)
  -- What the batch locks for the run's shares is less than what they are worth to the run.
  have hvalue : run.shares.val * batch.poolValue.val / batch.shares.val < run.poolValue.val := by
    rw [Nat.div_lt_iff_lt_mul (Nat.pos_of_ne_zero hbatch), Nat.mul_comm run.shares.val]
    exact hless
  obtain ⟨q, hreached, hreq, hcount, hlocked, hruns⟩ :=
    exists_first_batch joins hrun hpos ⟨_, hroom⟩ rfl
  have hshares : q.sharesUpTo 2 - q.sharesUpTo 1 = run.shares.val :=
    (second_of_twoRequests hreq rfl).2
  have hlen : q.length = 2 := congrArg List.length hreq
  obtain ⟨s, balance, q', hs, h⟩ := hreached.valid.exists_finalize 1
    batch.poolValue (Nat.le_of_eq hcount)
    (by rw [hlen]; exact Nat.one_lt_two) hbatch (by
      show _ + (q.sharesUpTo 2 - _) * _ / _ < _
      rw [hcount, hshares, hlocked, Nat.zero_add]
      exact Nat.lt_trans hvalue run.poolValue.isLt)
  obtain ⟨-, -, -, hreq', -, hcount', hlock, -, hprices⟩ := finalize_eq_ok h
  obtain ⟨-, -, -, hburn, -, asked, -, hamount⟩ := settlement_eq_ok hs
  have hrunsize : s.sharesToBurn.val = run.shares.val := by
    have hburn : s.sharesToBurn.val + q.sharesUpTo 1 = q.sharesUpTo 2 := hcount ▸ hburn
    omega
  rw [hrunsize] at hamount
  have hstep : Step joins q q' := by
    refine .finalize hs (fun r hr hp => ?_) h
    rw [hruns] at hr
    cases hr
    exact hjoin
  have hreached' : Reached joins ⟨Bounded.zero, run.poolValue⟩ q' := .tail hreached hstep
  have hone : q'.claimableAt 1 = run.poolValue.val :=
    claimableAt_of_join hrun rfl hreached'.valid (hreq'.trans hreq) hcount'
      (runs_of_join hruns hprices hprice)
  refine ⟨_, q', hreached', ?_⟩
  have hmem : 1 ∈ Finset.range q'.length := by
    rw [length, hreq', hreq]
    exact Finset.mem_range.2 Nat.one_lt_two
  calc q'.totalLocked.val
    _ = s.etherToLock.val := by rw [hlock, hlocked, Nat.zero_add]
    _ ≤ run.shares.val * batch.poolValue.val / batch.shares.val := by omega
    _ < run.poolValue.val := hvalue
    _ = q'.claimableAt 1 := hone.symm
    _ ≤ q'.owed := by
      rw [owed_eq_sum]
      exact Finset.single_le_sum (fun _ _ => Nat.zero_le _) hmem

/-- Queues whose batches never join a run of a greater rate stay solvent, and the condition is
exact: one join to a greater rate is enough for a queue that owes more than it locked. -/
theorem solvent_without_undercutting (joins : Rate → Rate → Prop) :
    ((∀ run batch, joins run batch → run.AtMost batch) →
      ∀ limits q, Reached joins limits q → q.Solvent) ∧
    ∀ run batch : PriceRun, run.shares.val ≠ 0 → batch.shares.val ≠ 0 →
      run.price = batch.price → run.poolValue.val + 1 < Bounded.bound 128 →
        joins run.pair batch.pair → ¬ run.pair.AtMost batch.pair →
          ∃ limits q, Reached joins limits q ∧ q.totalLocked.val < q.owed := by
  refine ⟨fun hjoins limits q h => (h.backed hjoins).solvent, ?_⟩
  intro run batch hrun hbatch hprice hroom hjoin hless
  exact exists_shortfall hrun hbatch hprice hroom hless hjoin

/- Two requests for 100 wei with 300 shares each.  A third is their full price; the rate just below
it has the same integer price. -/

def twoHundreds (runs : List PriceRun) (finalized : Count) (locked : Amount) (claimed : Bool) :
    WithdrawalQueue where
  requests :=
    [⟨Bounded.zero, 100, 300, .zero, Bounded.zero, claimed⟩,
      ⟨1, 200, 600, .zero, Bounded.zero, false⟩]
  prices := ⟨runs⟩
  finalizedCount := finalized
  totalLocked := locked
  limits := ⟨Bounded.zero, 1000⟩

def oneHundred : WithdrawalQueue :=
  { twoHundreds [] Bounded.zero Bounded.zero false with
    requests :=
      [⟨Bounded.zero, 100, 300, .zero, Bounded.zero, false⟩] }

def third (last : Count) : PriceRun := ⟨1, 3, last⟩

def belowThird (last : Count) : PriceRun :=
  ⟨333333333333333333333333333, 1000000000000000000000000000, last⟩

theorem first_third_reached (joins : Rate → Rate → Prop) :
    Reached joins ⟨Bounded.zero, 1000⟩ (twoHundreds [third Bounded.zero] 1 100 false) := by
  have hfirst : (create ⟨Bounded.zero, 1000⟩).enqueue .zero 100 300 Bounded.zero =
      .ok (Bounded.zero, oneHundred) := by decide +kernel
  have hsecond : oneHundred.enqueue .zero 100 300 Bounded.zero =
      .ok (1, twoHundreds [] Bounded.zero Bounded.zero false) := by decide +kernel
  have hsettle : (twoHundreds [] Bounded.zero Bounded.zero false).settlement Bounded.zero 1 3 =
      .ok ⟨100, 300⟩ := by decide +kernel
  have hfinal : (twoHundreds [] Bounded.zero Bounded.zero false).finalize Bounded.zero 100 1 3
      199 = .ok (twoHundreds [third Bounded.zero] 1 100 false) := by decide +kernel
  exact .tail (.tail (.tail .refl (.enqueue hfirst)) (.enqueue hsecond))
    (.finalize hsettle (fun _ h => nomatch h) hfinal)

theorem solvent_without_undercutting_third :
    (Reached Rate.AtMost ⟨Bounded.zero, 1000⟩ (twoHundreds [third 1] 2 200 false) ∧
      (twoHundreds [third 1] 2 200 false).Solvent) ∧
    (third Bounded.zero).price = (belowThird Bounded.zero).price ∧
      ¬ (third Bounded.zero).pair.AtMost (belowThird Bounded.zero).pair ∧
      ∃ limits q, Reached (fun _ _ => True) limits q ∧ q.totalLocked.val < q.owed := by
  have hsettle : (twoHundreds [third Bounded.zero] 1 100 false).settlement 1 2 6 =
      .ok ⟨100, 300⟩ := by decide +kernel
  have hfinal : (twoHundreds [third Bounded.zero] 1 100 false).finalize 1 100 2 6 200 =
      .ok (twoHundreds [third 1] 2 200 false) := by decide +kernel
  have hreached := Relation.ReflTransGen.tail (first_third_reached Rate.AtMost)
    (Step.finalize hsettle (fun run h _ => by cases h; decide) hfinal)
  have hprice : (third Bounded.zero).price = (belowThird Bounded.zero).price := by decide +kernel
  have hless : ¬ (third Bounded.zero).pair.AtMost (belowThird Bounded.zero).pair := by
    unfold Rate.AtMost
    decide
  refine ⟨⟨hreached, (solvent_without_undercutting _).1 (fun _ _ h => h) _ _ hreached⟩, hprice,
    hless, ?_⟩
  exact (solvent_without_undercutting _).2 (third Bounded.zero) (belowThird Bounded.zero)
    (by decide) (by decide) hprice (by decide) trivial hless

/-- The second request was settled at the lower rate and is paid at a third: once the first is
paid, one wei is missing. -/
theorem joined_batch_unpaid :
    ∃ q q' receipt escrow escrow', Reached (fun _ _ => True) ⟨Bounded.zero, 1000⟩ q ∧
      escrow.Ready q.totalLocked.val ∧ q.totalLocked.val = 199 ∧ q.owed = 200 ∧
      q.claim Bounded.zero none escrow = .ok (receipt, q', escrow') ∧
      q'.claim 1 none escrow' = .error (.insufficientEscrow 100 99) := by
  have hsettle : (twoHundreds [third Bounded.zero] 1 100 false).settlement 1
      (belowThird Bounded.zero).poolValue (belowThird Bounded.zero).shares = .ok ⟨99, 300⟩ := by
    decide +kernel
  have hfinal : (twoHundreds [third Bounded.zero] 1 100 false).finalize 1 99
      (belowThird Bounded.zero).poolValue (belowThird Bounded.zero).shares 199 =
        .ok (twoHundreds [third 1] 2 199 false) := by decide +kernel
  have hreached := Relation.ReflTransGen.tail (first_third_reached (fun _ _ => True))
    (Step.finalize hsettle (fun _ _ _ => trivial) hfinal)
  have hready : (Escrow.ofBalance 199).Ready 199 :=
    ⟨Nat.le_refl _, fun _ => rfl, fun _ => (by decide : 0 + 199 < Bounded.bound 128)⟩
  have hclaim : (twoHundreds [third 1] 2 199 false).claim Bounded.zero none
      (Escrow.ofBalance 199) = .ok (⟨Bounded.zero, .zero, 100⟩,
        twoHundreds [third 1] 2 99 true, ⟨99, AddressMap.empty.insert .zero 100, .empty⟩) := by
    decide +kernel
  refine ⟨_, _, _, _, _, hreached, hready, rfl, ?_, hclaim, ?_⟩
  · decide +kernel
  · decide +kernel

end WithdrawalQueue
end LiquidStaking

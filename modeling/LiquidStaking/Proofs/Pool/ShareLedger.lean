/-
The share ledger.

Every share of the supply belongs to an account, waits in the queue, or is to be burned.  A report
moves shares between all three at once: the batch's shares leave the queue, a part of them is
burned and the rest joins the pending burn, and fees are credited to accounts that may coincide.
-/
import LiquidStaking.Proofs.AddressMap
import LiquidStaking.Proofs.Fee.Mint
import LiquidStaking.Proofs.Pool.Runs

namespace LiquidStaking

/- Shares that wait in the queue. -/

namespace WithdrawalQueue

/-- The shares of the requests that are not finalized. -/
def waitingShares (q : WithdrawalQueue) : Nat :=
  q.sharesUpTo q.length - q.sharesUpTo q.finalizedCount.val

variable {q q' : WithdrawalQueue}

theorem waitingShares_claim {id : Count} {hint : Option Nat}
    {escrow escrow' : Escrow} {receipt : ClaimReceipt}
    (h : q.claim id hint escrow = .ok (receipt, q', escrow')) :
    q'.waitingShares = q.waitingShares := by
  obtain ⟨hcount, hlen, hsums⟩ := ledger_of_claim h
  rw [waitingShares, waitingShares, hlen, hcount, (hsums _).2, (hsums _).2]

namespace Valid

theorem unfinalizedShares_eq (hv : q.Valid) {a : Amount} (ha : a.val = q.waitingShares) :
    q.unfinalizedShares = .ok a := by
  obtain ⟨t, ht, -, hs⟩ := hv.unfinalizedTotals_eq
  rw [unfinalizedShares, ht, ok_bind]
  exact congrArg Except.ok (Bounded.ext (hs.trans ha.symm))

theorem waitingShares_enqueue (hv : q.Valid) {recipient : Address} {ether shares : Amount}
    {block id : Count} (h : q.enqueue recipient ether shares block = .ok (id, q')) :
    q'.waitingShares = q.waitingShares + shares.val := by
  obtain ⟨-, -, -, -, e, s, -, hs, hq⟩ := enqueue_eq_ok_iff.1 h
  have hreq : q'.requests = q.requests ++ [⟨id, e, s, recipient, block, false⟩] := by rw [hq]
  have hcount : q'.finalizedCount = q.finalizedCount := by rw [hq]
  have hlen : q'.length = q.length + 1 := by simp [length, hreq]
  have hnew : q'.sharesUpTo (q.length + 1) = s.val :=
    sharesUpTo_succ (by rw [hreq]; exact List.getElem?_concat_length)
  have hold := (upTo_append hv.reached hreq).2
  have hmono := hv.sharesUpTo_mono hv.reached (Nat.le_refl _)
  rw [waitingShares, waitingShares, hlen, hcount, hnew, hold, hs]
  omega

theorem waitingShares_finalize (hv : q.Valid) {last : Count}
    {poolValue shares lock poolValue' shares' balance : Amount} {s : Settlement}
    (hs : q.settlement last poolValue shares = .ok s)
    (h : q.finalize last lock poolValue' shares' balance = .ok q') :
    q'.waitingShares + s.sharesToBurn.val = q.waitingShares := by
  obtain ⟨hfirst, hlast, -, hreq, -, hcount, -, -, -⟩ := finalize_eq_ok h
  obtain ⟨-, -, -, hburn, -⟩ := settlement_eq_ok hs
  have hsums : ∀ n, q'.sharesUpTo n = q.sharesUpTo n := fun n => (upTo_of_requests hreq n).2
  have hlen : q'.length = q.length := congrArg List.length hreq
  have hend := hv.sharesUpTo_mono hlast (Nat.le_refl _)
  have hstart := hv.sharesUpTo_mono (Nat.le_succ_of_le hfirst) hlast
  rw [waitingShares, waitingShares, hsums, hsums, hlen, hcount]
  simp only [Nat.succ_eq_add_one] at hend hstart
  omega

end Valid
end WithdrawalQueue

namespace Pool

variable {p : Pool}

/- Fees credited to accounts.  The credits are the new balances; over the old ones they form the
balances after the report, whether or not two payments go to one account. -/

/-- The balances with some credits put over them. -/
def credited (p : Pool) (credits : AddressMap Amount) : AddressMap Amount :=
  p.balances.insertAll credits.entries

/-- Whether no account is stored without shares. -/
def Held (balances : AddressMap Amount) : Prop :=
  ∀ a s, balances.get? a = some s → s.val ≠ 0

theorem held_insert {m : AddressMap Amount} {a : Address} {s : Amount} (hm : Held m)
    (hs : s.val ≠ 0) : Held (m.insert a s) := by
  intro b t ht
  rw [AddressMap.get?_insert] at ht
  by_cases hb : b = a
  · rw [if_pos hb] at ht
    cases ht
    exact hs
  · rw [if_neg hb] at ht
    exact hm b t ht

theorem held_erase {m : AddressMap Amount} {a : Address} (hm : Held m) : Held (m.erase a) := by
  intro b t ht
  rw [AddressMap.get?_erase] at ht
  by_cases hb : b = a
  · rw [if_pos hb] at ht
    cases ht
  · rw [if_neg hb] at ht
    exact hm b t ht

theorem addCredit_eq_ok {credits credits' : AddressMap Amount} {payment : Address × Amount}
    (h : p.addCredit credits payment = .ok credits') :
    payment.2.val = 0 ∧ credits' = credits ∨
      payment.2.val ≠ 0 ∧ ∃ held : Amount,
        held.val = (p.credited credits).amountAt payment.1 + payment.2.val ∧
        p.credited credits' = (p.credited credits).insert payment.1 held := by
  unfold addCredit at h
  split at h
  · next hzero =>
    cases h
    exact .inl ⟨hzero, rfl⟩
  · next hpos =>
    obtain ⟨held, hadd, h⟩ := bind_eq_ok.1 h
    cases pure_eq_ok.1 h
    have hbefore : (p.credited credits).amountAt payment.1 =
        ((credits.get? payment.1).getD (p.sharesOf payment.1)).val := by
      rw [AddressMap.amountAt, credited, AddressMap.get?_overlay]
      cases credits.get? payment.1 <;> rfl
    refine .inr ⟨hpos, held, ?_, AddressMap.overlay_insert _ _ _ _⟩
    rw [hbefore]
    exact (Bounded.add_eq_ok_iff.1 hadd).symm

theorem addCredit_credited {credits credits' : AddressMap Amount} {payment : Address × Amount}
    (h : p.addCredit credits payment = .ok credits') (hheld : Held (p.credited credits)) :
    Bounded.total (p.credited credits').values =
        Bounded.total (p.credited credits).values + payment.2.val ∧
      Held (p.credited credits') := by
  rcases addCredit_eq_ok h with ⟨hzero, rfl⟩ | ⟨hpos, held, hval, hover⟩
  · rw [hzero]
    exact ⟨rfl, hheld⟩
  · have htotal := AddressMap.total_insert (p.credited credits) payment.1 held
    rw [hover]
    exact ⟨by omega, held_insert hheld (by omega)⟩

theorem foldlM_addCredit : ∀ (payments : List (Address × Amount))
    {credits credits' : AddressMap Amount}, payments.foldlM p.addCredit credits = .ok credits' →
      Held (p.credited credits) →
        Bounded.total (p.credited credits').values =
            Bounded.total (p.credited credits).values + Bounded.total (payments.map (·.2)) ∧
          Held (p.credited credits')
  | [], credits, credits', h, hheld => by
    cases pure_eq_ok.1 h
    exact ⟨rfl, hheld⟩
  | payment :: rest, credits, credits', h, hheld => by
    rw [List.foldlM_cons, bind_eq_ok] at h
    obtain ⟨next, hnext, h⟩ := h
    obtain ⟨htotal, hheld⟩ := addCredit_credited hnext hheld
    obtain ⟨hrest, hheld⟩ := foldlM_addCredit rest h hheld
    refine ⟨?_, hheld⟩
    rw [hrest, htotal, List.map_cons, Bounded.total_cons, Nat.add_assoc]

theorem planFees_total {ms : List StakingModule} {t : PoolTotals} {d : Delta} {applied : Amount}
    {mint : FeeMint} (h : planFees ms t d applied = .ok mint) :
    FeeMint.moduleTotal mint.moduleShares + mint.treasuryShares.val = mint.totalShares.val := by
  unfold planFees at h
  obtain ⟨gain, -, h⟩ := bind_eq_ok.1 h
  split at h
  · cases pure_eq_ok.1 h
    rfl
  · obtain ⟨split, -, h⟩ := bind_eq_ok.1 h
    exact FeeMint.compute_total h

theorem total_feePayments (p : Pool) (mint : FeeMint) :
    Bounded.total ((p.feePayments mint).map (·.2)) =
      FeeMint.moduleTotal mint.moduleShares + mint.treasuryShares.val := by
  unfold feePayments FeeMint.moduleTotal
  rw [List.map_append, Bounded.total_append, List.map_map]
  rfl

theorem feeCredits_credited {mint : FeeMint} {credits : AddressMap Amount}
    (h : p.feeCredits mint = .ok credits) (hheld : Held p.balances)
    (hmint : FeeMint.moduleTotal mint.moduleShares + mint.treasuryShares.val =
      mint.totalShares.val) :
    Bounded.total (p.credited credits).values =
        Bounded.total p.balances.values + mint.totalShares.val ∧
      Held (p.credited credits) := by
  obtain ⟨htotal, hheld⟩ := foldlM_addCredit _ h hheld
  rw [total_feePayments, hmint] at htotal
  exact ⟨htotal, hheld⟩

/-- The shares of a pool: every one of them is accounted for. -/
structure Sound (p : Pool) : Prop where
  queue : p.queue.Valid
  supply : p.totals.totalShares.val = Bounded.total p.balances.values +
    p.totals.queuedShares.val + p.totals.pendingBurn.val
  queued : p.totals.queuedShares.val = p.queue.waitingShares
  held : Held p.balances

theorem create_sound {policy : PoolPolicy} (h : create policy = .ok p) : p.Sound := by
  obtain rfl := create_eq_ok h
  exact ⟨WithdrawalQueue.create_valid _, rfl, rfl, fun _ _ h => nomatch h⟩

theorem total_setBalance (p : Pool) (account : Address) (shares : Amount) :
    Bounded.total (p.setBalance account shares).values + (p.sharesOf account).val =
      Bounded.total p.balances.values + shares.val := by
  unfold setBalance
  split
  · next hzero =>
    rw [hzero]
    exact AddressMap.total_erase p.balances account
  · exact AddressMap.total_insert p.balances account shares

theorem held_setBalance (hp : Held p.balances) (account : Address) (shares : Amount) :
    Held (p.setBalance account shares) := by
  unfold setBalance
  split
  · exact held_erase hp
  · next hpos => exact held_insert hp hpos

/-- A report that is settled keeps every share accounted for, whatever queue its batch leaves. -/
theorem commit_sound (hp : p.Sound) {r : OracleReport} {balance : Amount} {plan : ReportPlan}
    {s : PlanSteps} (hs : s.Make p r balance plan) {queue : WithdrawalQueue}
    (hqueue : queue.Valid) (burn left : Nat)
    (hsupply : p.totals.totalShares.val = s.batched.totalShares.val + burn)
    (hqueued : p.totals.queuedShares.val = s.batched.queuedShares.val + (burn + left))
    (hpending : s.batched.pendingBurn.val = p.totals.pendingBurn.val + left)
    (hwaiting : queue.waitingShares + (burn + left) = p.queue.waitingShares) :
    (p.commit plan queue).Sound := by
  obtain ⟨htotal, hheld⟩ := feeCredits_credited hs.crediting hp.held (planFees_total hs.fees)
  have hbalances : (p.commit plan queue).balances = p.credited s.credits := by
    rw [commit, hs.credits]
    rfl
  have htotals : (p.commit plan queue).totals =
      { s.burnt with totalShares := s.totalShares } := hs.totals
  have hburn := hs.burning
  have hold := hp.supply
  have hwait := hp.queued
  have hmint := hs.minting
  refine ⟨hqueue, ?_, ?_, hbalances ▸ hheld⟩
  · rw [hbalances, htotals, htotal]
    show s.totalShares.val = _ + s.burnt.queuedShares.val + s.burnt.pendingBurn.val
    rw [hburn.queued, hmint]
    have h1 := hburn.supply
    have h2 := hburn.pending
    omega
  · rw [htotals]
    show s.burnt.queuedShares.val = queue.waitingShares
    rw [hburn.queued]
    omega

end Pool

open Pool in
theorem Books.Done.sound {b b' : Books} {op : Operation} {reply : Reply}
    (h : Books.Done b op reply b') (hp : b.pool.Sound) : b'.pool.Sound := by
  cases h with
  | @submit sender amount shares pool h =>
    obtain ⟨-, hne, buffered, total, balance, -, htotal, hbalance, rfl⟩ := submit_eq_ok h
    refine ⟨hp.queue, ?_, hp.queued, held_insert hp.held (by omega)⟩
    have hsum := AddressMap.total_insert b.pool.balances sender balance
    have hat : b.pool.balances.amountAt sender = (b.pool.sharesOf sender).val := rfl
    have hsupply := hp.supply
    show total.val = Bounded.total (b.pool.balances.insert sender balance).values +
      b.pool.totals.queuedShares.val + b.pool.totals.pendingBurn.val
    omega
  | @requestWithdrawal owner shares block id pool h =>
    obtain ⟨remaining, ether, queued, queue, hremaining, -, hqueued, hqueue, rfl⟩ :=
      requestWithdrawal_eq_ok h
    have hsum := total_setBalance b.pool owner remaining
    have hsupply := hp.supply
    refine ⟨hp.queue.enqueue hqueue, ?_, ?_, held_setBalance hp.held _ _⟩
    · show b.pool.totals.totalShares.val =
        Bounded.total (b.pool.setBalance owner remaining).values + queued.val +
          b.pool.totals.pendingBurn.val
      omega
    · show queued.val = queue.waitingShares
      rw [hp.queue.waitingShares_enqueue hqueue, hqueued, hp.queued]
  | claim h =>
    obtain ⟨queue, hclaim, rfl⟩ := claim_eq_ok h
    exact ⟨hp.queue.claim hclaim, hp.supply,
      hp.queued.trans (WithdrawalQueue.waitingShares_claim hclaim).symm, hp.held⟩
  | deposit h =>
    obtain ⟨buffered, staked, moved, registry, -, -, -, rfl⟩ := deposit_eq_ok h
    exact ⟨hp.queue, hp.supply, hp.queued, hp.held⟩
  | manage h =>
    obtain ⟨registry, rfl⟩ := manage_eq_ok h
    exact ⟨hp.queue, hp.supply, hp.queued, hp.held⟩
  | report _ hplan hbatch =>
    obtain ⟨s, hs⟩ := exists_planSteps hplan
    have hsame := hs.of_none hbatch
    refine commit_sound hp hs hp.queue 0 0 ?_ ?_ ?_ rfl
    all_goals
      rw [hsame]
      rfl
  | @reportBatch r plan batch escrow queue _ hplan hbatch _ hfinalize =>
    obtain ⟨s, hs⟩ := exists_planSteps hplan
    obtain ⟨burn, hb⟩ := hs.of_some hbatch
    have hburned := hp.queue.waitingShares_finalize hb.settled hfinalize
    have hneutral : burn.val ≤ batch.settlement.sharesToBurn.val := by
      rw [hb.neutral]
      exact Nat.min_le_right _ _
    have hqueued := hb.takes.queued
    have hpending := hb.takes.pending
    refine commit_sound hp hs (hp.queue.finalize hfinalize) burn.val
      (batch.settlement.sharesToBurn.val - burn.val) hb.takes.supply ?_ ?_ ?_
    · rw [Nat.add_sub_cancel' hneutral]
      exact hqueued
    · show s.batched.pendingBurn.val = (s.rebased b.pool.totals).pendingBurn.val + _
      omega
    · rw [Nat.add_sub_cancel' hneutral]
      exact hburned

namespace Pool

variable {policy : PoolPolicy}

theorem Reached.sound (h : Reached policy p) : p.Sound := by
  induction h with
  | create h => exact create_sound h
  | @run p _ escrow op ih =>
    rcases Books.run_cases (b := ⟨p, escrow⟩) ih.queue op with
      ⟨failure, hrun⟩ | ⟨reply, b', hrun, hdone⟩
    · rw [hrun]
      exact ih
    · rw [hrun]
      exact hdone.sound ih

/-- The supply is what the accounts hold, what waits in the queue and what is to be burned. -/
theorem shares_accounted (h : Reached policy p) :
    p.totals.totalShares.val =
        Bounded.total p.balances.values + p.totals.queuedShares.val + p.totals.pendingBurn.val ∧
      p.queue.unfinalizedShares = .ok p.totals.queuedShares ∧
      ∀ account, p.balances.get? account ≠ some Bounded.zero := by
  have hp := h.sound
  exact ⟨hp.supply, hp.queue.unfinalizedShares_eq hp.queued,
    fun account hzero => hp.held account _ hzero rfl⟩

/-- One account is the operator, the treasury and the only depositor; two withdrawals, and a report
that finalizes the first of them and mints fees. -/
def coincidingMoves : List Move :=
  [.run (.manage (.add ⟨1, "node", .zero, 10000, 500, 500, .active, 1, Bounded.zero,
      Bounded.zero⟩)),
    .run (.submit .zero 100000),
    .run (.requestWithdrawal .zero 40000 Bounded.zero),
    .run (.requestWithdrawal .zero 30000 Bounded.zero),
    .run (.report ⟨1, .ofInt 2000, Bounded.zero, some Bounded.zero, []⟩)]

theorem shares_accounted_coinciding :
    ∃ p, Reached .standard p ∧ p.totals.pendingBurn.val = 785 ∧
      p.totals.totalShares.val =
        Bounded.total p.balances.values + p.totals.queuedShares.val + p.totals.pendingBurn.val ∧
      p.queue.unfinalizedShares = .ok p.totals.queuedShares ∧
      ∀ account, p.balances.get? account ≠ some Bounded.zero := by
  have hcreate : Pool.create .standard = .ok (initial .standard) := rfl
  have hreached := Reached.after (b := Books.fresh (initial .standard)) coincidingMoves
    (.create hcreate)
  exact ⟨_, hreached, by decide +kernel, shares_accounted hreached⟩

end Pool
end LiquidStaking

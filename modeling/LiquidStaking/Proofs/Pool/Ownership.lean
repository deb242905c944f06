/-
Whether the value of a pool belongs to someone.

A batch leaves at the rate of the moment, so the last shares leave with the last ether.  Pending
shares that are burned afterwards carry no ether, and how many of them a report may burn is
measured against the supply before it: when its batch leaves no more than that, everything may be
burned, and the ether that stays waits for the next depositor.
-/
import LiquidStaking.Proofs.Pool.Dilution

namespace LiquidStaking
namespace Pool

/-- Whether a pool has shares if it has value. -/
def Owned (p : Pool) : Prop := 0 < p.poolValue.val → 0 < p.totals.totalShares.val

/-- Whether the shares of every deposit that the pool takes are worth no more than the deposit. -/
def FairDeposits (p : Pool) : Prop :=
  ∀ sender amount shares p', p.submit sender amount = .ok (shares, p') →
    shares.val * p'.poolValue.val ≤ amount.val * p'.totals.totalShares.val

/-- Whether the batch of a report leaves shares that no burn takes: they belong to accounts or to
requests, or there are more of them than the report may burn. -/
def Spares (b : Books) (o : ReportOutcome) (b' : Books) : Prop :=
  o.finalization = none ∨ 0 < Bounded.total b.pool.balances.values ∨
    0 < b'.pool.totals.queuedShares.val ∨
      b.pool.totals.totalShares.val * o.budgetLimit.val <
        afterBatch o b' * (rebaseBase + o.budgetLimit.val)

instance (b : Books) (o : ReportOutcome) (b' : Books) : Decidable (Spares b o b') :=
  inferInstanceAs (Decidable (_ ∨ _ ∨ _ ∨ _))

variable {p : Pool}

theorem poolValue_add_le {t t' : PoolTotals} {amount : Amount}
    (hbuffered : t'.bufferedEther.val = t.bufferedEther.val + amount.val)
    (hstaked : t'.stakedEther = t.stakedEther) :
    t'.poolValue.val ≤ t.poolValue.val + amount.val := by
  show min (t'.bufferedEther.val + t'.stakedEther.val) (Bounded.bound 128 - 1) ≤
    min (t.bufferedEther.val + t.stakedEther.val) (Bounded.bound 128 - 1) + amount.val
  rw [hbuffered, hstaked]
  omega

theorem sharesForDeposit_eq_ok {amount shares : Amount}
    (h : p.sharesForDeposit amount = .ok shares) :
    p.totals.totalShares.val = 0 ∧ shares = amount ∨
      shares.val = amount.val * p.totals.totalShares.val / p.poolValue.val := by
  unfold sharesForDeposit at h
  split at h
  · next hzero =>
    cases h
    exact .inl ⟨hzero, rfl⟩
  · simp only [bind_eq_ok, Rate.sharesForValue] at h
    obtain ⟨rate, hrate, n, hn, h⟩ := h
    obtain ⟨-, rfl⟩ := Rate.make_eq_ok_iff.1 hrate
    obtain ⟨-, -, hn⟩ := mulDiv_down_eq_ok_iff.1 hn
    exact .inr ((Bounded.narrow_eq_ok_iff.1 h).symm.trans hn)

/-- Where all value belongs to shares, no depositor gets a part of it for nothing. -/
theorem Owned.fairDeposits (hp : p.Owned) : p.FairDeposits := by
  intro sender amount shares p' h
  obtain ⟨hbought, -, buffered, total, balance, hbuffered, htotal, -, rfl⟩ := submit_eq_ok h
  have hvalue := @poolValue_add_le p.totals
    { p.totals with bufferedEther := buffered, totalShares := total } amount hbuffered rfl
  refine Nat.le_trans (Nat.mul_le_mul_left shares.val hvalue) ?_
  rw [Nat.mul_add, htotal, Nat.mul_add, Nat.mul_comm amount.val shares.val]
  refine Nat.add_le_add_right ?_ _
  rcases sharesForDeposit_eq_ok hbought with ⟨hzero, rfl⟩ | hbought
  · have hempty : p.poolValue.val = 0 :=
      Nat.eq_zero_of_not_pos (fun hpos => Nat.ne_of_gt (hp hpos) hzero)
    exact Nat.le_of_eq ((congrArg _ hempty).trans (congrArg _ hzero).symm)
  · rw [hbought]
    exact Nat.div_mul_le_self _ _

/- What a batch leaves, and what a burn takes of it. -/

variable {r : OracleReport} {balance : Amount} {plan : ReportPlan} {s : PlanSteps} {b b' : Books}

theorem PlanSteps.Make.left_accounted (hs : s.Make p r balance plan) (hp : p.Sound) :
    s.batched.totalShares.val = Bounded.total p.balances.values + s.batched.queuedShares.val +
      s.batched.pendingBurn.val := by
  have hsupply := hp.supply
  cases hbatch : plan.batch with
  | none =>
    rw [hs.of_none hbatch]
    exact hsupply
  | some batch =>
    obtain ⟨burn, hb⟩ := hs.of_some hbatch
    have hqueued : p.totals.queuedShares.val = _ := hb.takes.queued
    have hleft : p.totals.totalShares.val = _ := hb.takes.supply
    have hpending : _ = p.totals.pendingBurn.val + _ := hb.takes.pending
    omega

/-- Fees are minted only to a supply that the burn leaves. -/
theorem PlanSteps.Make.supply_pos_iff (hs : s.Make p r balance plan)
    (htotals : b'.pool.totals = plan.totals) :
    0 < b'.pool.totals.totalShares.val ↔ s.burned.val < s.batched.totalShares.val := by
  have hsupply := hs.burning.supply
  have hafter := hs.supply_after htotals
  rw [hs.feeMint] at hafter
  have hmint : s.burnt.totalShares.val = 0 → s.mint.totalShares.val = 0 := by
    intro hzero
    refine Nat.eq_zero_of_not_pos (fun hpos => ?_)
    obtain ⟨split, -, hpays⟩ := planFees_eq_ok hs.fees hpos
    have htotal := hpays.total
    rw [hzero, Nat.mul_zero, Nat.zero_div] at htotal
    exact Nat.ne_of_gt hpos htotal
  omega

theorem PlanSteps.Make.spares_iff (hs : s.Make b.pool r balance plan)
    (htotals : b'.pool.totals = plan.totals) :
    Spares b plan.outcome b' ↔
      plan.batch = none ∨ 0 < Bounded.total b.pool.balances.values ∨
        0 < s.batched.queuedShares.val ∨
          b.pool.totals.totalShares.val * s.left.limit.val <
            s.batched.totalShares.val * (rebaseBase + s.left.limit.val) := by
  have hqueued : b'.pool.totals.queuedShares = s.batched.queuedShares := by
    rw [htotals, hs.totals]
    exact hs.burning.queued
  rw [Spares, hs.finalization, Option.map_eq_none_iff, ← hs.batch, hqueued,
    hs.afterBatch_eq htotals, hs.budgetLimit]

/-- A burn leaves a part of the supply that it is measured against, and what is not pending. -/
theorem PlanSteps.Make.burned_lt_of_spares (hs : s.Make b.pool r balance plan)
    (hp : b.pool.Sound) (htotals : b'.pool.totals = plan.totals)
    (hsupply : 0 < b.pool.totals.totalShares.val) (h : Spares b plan.outcome b') :
    s.burned.val < s.batched.totalShares.val := by
  have haccounted := hs.left_accounted hp
  have hpending := hs.burning.pending
  rcases (hs.spares_iff htotals).1 h with hnone | hheld | hqueued | hroom
  · have hall : s.batched.totalShares = b.pool.totals.totalShares := by
      rw [hs.of_none hnone]
      rfl
    rw [hall]
    refine Nat.lt_of_mul_lt_mul_right (Nat.lt_of_le_of_lt hs.burned_le ?_)
    exact Nat.mul_lt_mul_of_pos_left (Nat.lt_add_of_pos_left (by decide)) hsupply
  · omega
  · omega
  · exact Nat.lt_of_mul_lt_mul_right (Nat.lt_of_le_of_lt hs.burned_le hroom)

theorem PlanSteps.Make.remaining_of_quiet (hs : s.Make p r balance plan) (hloss : r.delta.val ≤ 0)
    (hrewards : r.rewards.val = 0) : s.spent.remaining = s.left.limit.val := by
  obtain ⟨-, hused, -, -⟩ := applyDelta_of_no_gain hloss hs.delta
  have hspent : s.spent = s.widened := by
    have hnone := hs.rewards
    rw [applyRewards, if_pos hrewards] at hnone
    exact (congrArg Prod.snd (Except.ok.inj hnone)).symm
  rw [hs.burning.limit, hspent, RebaseBudget.remaining, hused, RebaseBudget.start_eq_ok hs.start]
  exact Nat.sub_zero _

theorem PlanSteps.Make.spares_of_burned_lt (hs : s.Make b.pool r balance plan)
    (hp : b.pool.Sound) (htotals : b'.pool.totals = plan.totals) (hloss : r.delta.val ≤ 0)
    (hrewards : r.rewards.val = 0) (h : s.burned.val < s.batched.totalShares.val) :
    Spares b plan.outcome b' := by
  have haccounted := hs.left_accounted hp
  refine (hs.spares_iff htotals).2 (.inr ?_)
  by_cases hheld : 0 < Bounded.total b.pool.balances.values
  · exact .inl hheld
  by_cases hqueued : 0 < s.batched.queuedShares.val
  · exact .inr (.inl hqueued)
  have hall : s.batched.totalShares.val = s.batched.pendingBurn.val := by omega
  rcases hs.burning.allowed with ⟨hzero, -⟩ | hdeduct
  · omega
  · have hroom := RebaseBudget.room_lt_of_deductShares hdeduct (hall ▸ h)
    rw [hs.remaining_of_quiet hloss hrewards, hs.sharesBefore_spent, ← hall] at hroom
    exact .inr (.inr hroom)

/-- Nothing comes into a pool without value, and nothing can be settled there. -/
theorem PlanSteps.Make.value_of_empty (hs : s.Make p r balance plan)
    (hempty : p.poolValue.val = 0) : plan.totals.poolValue.val = 0 := by
  have hether : p.totals.bufferedEther.val + p.totals.stakedEther.val = 0 := by
    have hclamp : min (p.totals.bufferedEther.val + p.totals.stakedEther.val)
      (Bounded.bound 128 - 1) = 0 := hempty
    have hwide : 1 < Bounded.bound 128 := by decide
    omega
  have hstart := RebaseBudget.start_eq_ok hs.start
  have hnodelta : r.delta.val = 0 := by
    have hdelta := hs.delta
    unfold applyDelta at hdelta
    split at hdelta
    · next hzero => exact hzero
    · obtain ⟨out, happlied, -⟩ := bind_eq_ok.1 hdelta
      refine absurd happlied (RebaseBudget.applyDelta_of_empty ?_ ?_ out)
      · rw [hstart]
        exact hempty
      · intro hused
        have hlimit := RebaseBudget.start_limit_pos hs.start
        rw [← hused, hstart] at hlimit
        exact Nat.lt_irrefl _ hlimit
  have hnorewards : s.applied.val = 0 := by
    obtain ⟨happlied, -⟩ := applyRewards_eq_ok hs.rewards
    have hbefore : s.widened.poolBefore = 0 := by
      rw [(applyDelta_keeps hs.delta).1, hstart]
      exact hempty
    rw [hbefore, Nat.mul_zero] at happlied
    exact (Nat.mul_eq_zero.1 (Nat.le_zero.1 happlied)).resolve_right (by decide)
  have hvalue : s.value = 0 := by
    have hvalue := hs.value_change
    omega
  have hbatched := hs.value_batched
  have hafter := hs.value_after
  omega

variable {o : ReportOutcome}

theorem Owned.report (howned : b.pool.Owned) (hp : b.pool.Sound)
    (h : b.report r = (.ok o, b')) (hspares : Spares b o b') : b'.pool.Owned := by
  obtain ⟨plan, s, hs, rfl, hpool⟩ := Books.exists_steps hp.queue h
  have htotals : b'.pool.totals = plan.totals := congrArg Pool.totals hpool
  intro hpos
  have hvalue : 0 < b.pool.poolValue.val := by
    refine Nat.pos_of_ne_zero (fun hempty => ?_)
    rw [poolValue, htotals, hs.value_of_empty hempty] at hpos
    exact Nat.lt_irrefl _ hpos
  exact (hs.supply_pos_iff htotals).2 (hs.burned_lt_of_spares hp htotals (howned hvalue) hspares)

theorem supply_pos_iff_spares (hp : b.pool.Sound) (h : b.report r = (.ok o, b'))
    (hsupply : 0 < b.pool.totals.totalShares.val) (hloss : r.delta.val ≤ 0)
    (hrewards : r.rewards.val = 0) :
    0 < b'.pool.totals.totalShares.val ↔ Spares b o b' := by
  obtain ⟨plan, s, hs, rfl, hpool⟩ := Books.exists_steps hp.queue h
  have htotals : b'.pool.totals = plan.totals := congrArg Pool.totals hpool
  rw [hs.supply_pos_iff htotals]
  exact ⟨hs.spares_of_burned_lt hp htotals hloss hrewards,
    hs.burned_lt_of_spares hp htotals hsupply⟩

end Pool

namespace Books

variable {b b' : Books}

theorem Done.owned {op : Operation} {reply : Reply} (h : Done b op reply b')
    (hop : ∀ r, op ≠ .report r) (howned : b.pool.Owned) : b'.pool.Owned := by
  cases h with
  | submit h =>
    obtain ⟨-, hne, buffered, total, balance, -, htotal, -, rfl⟩ := Pool.submit_eq_ok h
    intro _
    show 0 < total.val
    omega
  | requestWithdrawal h =>
    obtain ⟨remaining, ether, queued, queue, -, -, -, -, rfl⟩ := Pool.requestWithdrawal_eq_ok h
    exact howned
  | claim h =>
    obtain ⟨queue, -, rfl⟩ := Pool.claim_eq_ok h
    exact howned
  | deposit h =>
    obtain ⟨buffered, staked, moved, registry, hbuffered, hstaked, -, rfl⟩ := Pool.deposit_eq_ok h
    have hether : buffered.val + staked.val =
        b.pool.totals.bufferedEther.val + b.pool.totals.stakedEther.val := by omega
    intro hpos
    refine howned ?_
    rw [Pool.poolValue, PoolTotals.poolValue, ← hether]
    exact hpos
  | manage h =>
    obtain ⟨registry, rfl⟩ := Pool.manage_eq_ok h
    exact howned
  | report => exact absurd rfl (hop _)
  | reportBatch => exact absurd rfl (hop _)

/-- Whether a move is no report that is accepted, or one whose batch spares some shares. -/
def SparedBy (b : Books) : Move → Prop
  | .run (.report r) => ∀ o b', b.report r = (.ok o, b') → Pool.Spares b o b'
  | _ => True

def Spared : Books → List Move → Prop
  | _, [] => True
  | b, m :: rest => b.SparedBy m ∧ Spared (b.move m) rest

theorem move_owned (hp : b.pool.Sound) (howned : b.pool.Owned) {m : Move} (h : b.SparedBy m) :
    (b.move m).pool.Owned := by
  cases m with
  | reject recipient => exact howned
  | accept recipient => exact howned
  | run op =>
    show (b.run op).2.pool.Owned
    by_cases hop : ∃ r, op = .report r
    · obtain ⟨r, rfl⟩ := hop
      rcases report_cases hp.queue r with ⟨cause, hreport⟩ | ⟨o, b', hreport, -⟩
      · simp only [run, hreport]
        exact howned
      · simp only [run, hreport]
        exact howned.report hp hreport (h o b' hreport)
    · rcases run_cases hp.queue op with ⟨failure, hrun⟩ | ⟨reply, b', hrun, hdone⟩
      · rw [hrun]
        exact howned
      · rw [hrun]
        exact hdone.owned (fun r hr => hop ⟨r, hr⟩) howned

theorem after_owned {policy : PoolPolicy} : ∀ (moves : List Move) {b : Books},
    Pool.Reached policy b.pool → b.pool.Owned → b.Spared moves → (b.after moves).pool.Owned
  | [], _, _, howned, _ => howned
  | m :: rest, _, hb, howned, h =>
    after_owned rest (hb.after [m]) (move_owned hb.sound howned h.1) h.2

end Books

namespace Pool

variable {policy : PoolPolicy} {p : Pool}

theorem create_owned (h : create policy = .ok p) : p.Owned := by
  rw [create_eq_ok h]
  exact fun hpos => hpos

/-- As long as every batch spares some shares, a pool with value has shares, so that it has a rate,
and no depositor gets more than the deposit is worth.  A report that brings no gain leaves no
shares at all exactly if its batch spares none. -/
theorem owned_while_spared (h : create policy = .ok p) (moves : List Move) {b : Books}
    (hb : b = (Books.fresh p).after moves) :
    ((Books.fresh p).Spared moves →
      b.pool.Owned ∧ (∃ rate, b.pool.rate = .ok rate) ∧ b.pool.FairDeposits) ∧
    ∀ r o b', b.report r = (.ok o, b') → 0 < b.pool.totals.totalShares.val → r.delta.val ≤ 0 →
      r.rewards.val = 0 → (0 < b'.pool.totals.totalShares.val ↔ Spares b o b') := by
  subst hb
  have hreached : Reached policy (Books.fresh p).pool := .create h
  refine ⟨fun hspared => ?_, fun r o b' hreport hsupply hloss hrewards => ?_⟩
  · have howned := Books.after_owned moves hreached (create_owned h) hspared
    refine ⟨howned, ⟨_, Rate.make_eq_ok_iff.2 ⟨?_, rfl⟩⟩, howned.fairDeposits⟩
    rintro ⟨hzero, hpos⟩
    exact Nat.ne_of_gt (howned hpos) hzero
  · exact supply_pos_iff_spares (Reached.after moves hreached).sound hreport hsupply hloss hrewards

/- A deposit of which all shares are withdrawn, a gain, and the batch of the withdrawal: what was
gained stays in the pool, and the shares it is worth are to be burned. -/

def leavingMoves (gain : Int) : List Move :=
  [.run (.submit .zero 1000000),
    .run (.requestWithdrawal .zero 1000000 Bounded.zero),
    .run (.report ⟨1, .ofInt gain, Bounded.zero, none, []⟩),
    .run (.report ⟨2, Delta.zero, Bounded.zero, some Bounded.zero, []⟩)]

def left (gain : Int) : Books := (Books.fresh (initial .standard)).after (leavingMoves gain)

theorem sparedBy_of_accepts {b : Books} {r : OracleReport}
    (h : accepts b r (fun b o b' => decide (Spares b o b')) = true) :
    b.SparedBy (.run (.report r)) := by
  intro o b' hreport
  rw [accepts, hreport] at h
  exact of_decide_eq_true h

/-- Of a gain of one two-hundredth more shares are left than the report may burn. -/
theorem owned_while_spared_large :
    Bounded.total (left 5000).pool.balances.values = 0 ∧ (left 5000).pool.poolValue.val = 5000 ∧
      0 < (left 5000).pool.totals.totalShares.val ∧ (∃ rate, (left 5000).pool.rate = .ok rate) ∧
      (left 5000).pool.FairDeposits := by
  have hspared : (Books.fresh (initial .standard)).Spared (leavingMoves 5000) :=
    ⟨trivial, trivial, sparedBy_of_accepts (by decide +kernel),
      sparedBy_of_accepts (by decide +kernel), trivial⟩
  have hvalue : (left 5000).pool.poolValue.val = 5000 := by decide +kernel
  have hcreate : create .standard = .ok (initial .standard) := rfl
  obtain ⟨howned, hrate, hfair⟩ := (owned_while_spared hcreate (leavingMoves 5000) rfl).1 hspared
  exact ⟨by decide +kernel, hvalue, howned (hvalue ▸ by decide), hrate, hfair⟩

/-- Deposits as small as they get, and withdrawals as large. -/
def wholePolicy : PoolPolicy :=
  { PoolPolicy.standard with
    maxWithdrawal := Bounded.clamp (Bounded.bound 128)
    depositSize := 1 }

/-- All the ether there can be, one wei of it staked; with one wei of rewards the pool holds more
than its batch is settled at. -/
def wholeMoves : List Move :=
  [.run (.manage (.add ⟨1, "node", .zero, 10000, Bounded.zero, Bounded.zero, .active,
      Bounded.zero, 1, Bounded.zero⟩)),
    .run (.submit .zero (Bounded.clamp (Bounded.bound 128))),
    .run (.deposit 1 Bounded.zero),
    .run (.requestWithdrawal .zero (Bounded.clamp (Bounded.bound 128)) Bounded.zero),
    .run (.report ⟨1, Delta.zero, 1, some Bounded.zero, []⟩)]

theorem reached_of_moves {policy : PoolPolicy} (h : create policy = .ok (initial policy))
    (moves : List Move) : Reached policy ((Books.fresh (initial policy)).after moves).pool :=
  Reached.after (b := Books.fresh (initial policy)) moves (.create h)

/-- Of a gain of one two-thousandth all shares are burned: the pool keeps 500 wei and has no rate,
and whoever deposits 100 wei next owns 600.  With a batch that is settled at a value that does not
fit, one wei is left without any burn. -/
theorem value_without_shares :
    (Reached .standard (left 500).pool ∧ (left 500).pool.poolValue.val = 500 ∧
      (left 500).pool.totals.totalShares.val = 0 ∧ ¬ (left 500).pool.Owned ∧
      (left 500).pool.rate = .error (.zeroShares "500") ∧
      ((left 500).pool.submit (Address.ofCount 1) 100 >>= fun taken =>
        taken.2.valueOf (Address.ofCount 1)) = .ok 600) ∧
    ∃ p, Reached wholePolicy p ∧ p.poolValue.val = 1 ∧ p.totals.totalShares.val = 0 ∧
      ¬ p.Owned := by
  have hvalue : (left 500).pool.poolValue.val = 500 := by decide +kernel
  have hshares : (left 500).pool.totals.totalShares.val = 0 := by decide +kernel
  refine ⟨⟨reached_of_moves rfl _, hvalue, hshares, ?_, by decide +kernel, by decide +kernel⟩,
    _, reached_of_moves rfl wholeMoves, by decide +kernel, by decide +kernel, ?_⟩
  · exact fun howned => Nat.ne_of_gt (howned (hvalue ▸ by decide)) hshares
  · exact fun howned => Nat.ne_of_gt (howned (by decide +kernel)) (by decide +kernel)

end Pool
end LiquidStaking

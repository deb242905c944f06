/-
The steps of a report.

A plan is a chain of steps, each of which may refuse.  `PlanSteps` names the values between them,
so that a theorem about a report cites the steps it is about and no others.
-/
import LiquidStaking.Pool.Report
import LiquidStaking.Proofs.Fee.Mint
import LiquidStaking.Proofs.Rebase.Budget
import LiquidStaking.Proofs.Withdrawal.Validity

namespace LiquidStaking

/-- The ether the batch of a plan locks, nothing without a batch. -/
def ReportPlan.locked (plan : ReportPlan) : Nat :=
  plan.batch.elim 0 (·.settlement.etherToLock.val)

namespace Pool

variable {p : Pool}

theorem neutralBurn_eq_ok {poolValue shares burn : Amount} {s : Settlement}
    (h : neutralBurn poolValue shares s = .ok burn) :
    poolValue.val ≠ 0 ∧
      burn.val = min (s.etherToLock.val * shares.val / poolValue.val) s.sharesToBurn.val := by
  simp only [neutralBurn, bind_eq_ok, Rate.sharesForValue, mulDiv_down_eq_ok_iff,
    Bounded.narrow_eq_ok_iff] at h
  obtain ⟨rate, hrate, n, ⟨hne, -, hn⟩, worth, hworth, h⟩ := h
  obtain ⟨-, rfl⟩ := Rate.make_eq_ok_iff.1 hrate
  have h := pure_eq_ok.1 h
  refine ⟨hne, ?_⟩
  rw [← h]
  simp only at hn
  split <;> omega

/-- How taking a batch changes the totals. -/
structure TakesBatch (t t' : PoolTotals) (s : Settlement) (burn : Amount) : Prop where
  buffered : t.bufferedEther.val = t'.bufferedEther.val + s.etherToLock.val
  staked : t'.stakedEther = t.stakedEther
  queued : t.queuedShares.val = t'.queuedShares.val + s.sharesToBurn.val
  supply : t.totalShares.val = t'.totalShares.val + burn.val
  pending : t'.pendingBurn.val + burn.val = t.pendingBurn.val + s.sharesToBurn.val

/-- A batch that is settled at given totals, burns `burn` at once, and passes every check of the
queue for an escrow that holds `balance` and the batch's ether. -/
structure PlansBatch (p : Pool) (t t' : PoolTotals) (last : Count) (balance burn : Amount)
    (b : Batch) : Prop where
  ends : b.last = last
  priced : b.poolValue = t.poolValue ∧ b.shares = t.totalShares
  settled : p.queue.settlement last t.poolValue t.totalShares = .ok b.settlement
  valued : t.poolValue.val ≠ 0
  neutral : burn.val = min (b.settlement.etherToLock.val * t.totalShares.val / t.poolValue.val)
    b.settlement.sharesToBurn.val
  checked : ∃ funded locked, funded.val = balance.val + b.settlement.etherToLock.val ∧
    p.queue.checkFinalize last b.settlement.etherToLock t.poolValue t.totalShares funded =
      .ok locked
  takes : TakesBatch t t' b.settlement burn

theorem PlansBatch.lock_mul_le {t t' : PoolTotals} {last : Count} {balance burn : Amount}
    {b : Batch} (hb : p.PlansBatch t t' last balance burn b) :
    b.settlement.etherToLock.val * t.totalShares.val ≤
      b.settlement.sharesToBurn.val * t.poolValue.val := by
  obtain ⟨-, -, -, -, -, ether, -, hlock⟩ := WithdrawalQueue.settlement_eq_ok hb.settled
  calc b.settlement.etherToLock.val * t.totalShares.val
    _ ≤ b.settlement.sharesToBurn.val * t.poolValue.val / t.totalShares.val *
        t.totalShares.val := Nat.mul_le_mul_right _ (hlock ▸ Nat.min_le_right _ _)
    _ ≤ b.settlement.sharesToBurn.val * t.poolValue.val := Nat.div_mul_le_self _ _

theorem PlansBatch.burn_eq {t t' : PoolTotals} {last : Count} {balance burn : Amount} {b : Batch}
    (hb : p.PlansBatch t t' last balance burn b) :
    burn.val = b.settlement.etherToLock.val * t.totalShares.val / t.poolValue.val := by
  rw [hb.neutral]
  exact Nat.min_eq_left (Nat.div_le_of_le_mul (Nat.mul_comm _ t.poolValue.val ▸ hb.lock_mul_le))

theorem planBatch_eq_ok {t t' : PoolTotals} {last : Count} {balance : Amount} {b : Batch}
    (h : p.planBatch t last balance = .ok (b, t')) :
    ∃ burn, p.PlansBatch t t' last balance burn b := by
  unfold planBatch at h
  obtain ⟨s, hs, h⟩ := bind_eq_ok.1 h
  split at h
  · cases h
  · simp only [bind_eq_ok, takeBatch, Bounded.add_eq_ok_iff, Bounded.sub_eq_ok_iff] at h
    obtain ⟨burn, hburn, discount, hdiscount, funded, hfunded, locked, hcheck, t₁,
      ⟨buffered, hb, queued, hq, total, ht, pending, hp, htotals⟩, h⟩ := h
    cases pure_eq_ok.1 htotals
    cases pure_eq_ok.1 h
    obtain ⟨hvalued, hneutral⟩ := neutralBurn_eq_ok hburn
    refine ⟨burn, rfl, ⟨rfl, rfl⟩, hs, hvalued, hneutral, ⟨funded, locked, hfunded.symm, hcheck⟩,
      hb, rfl, hq, ht, ?_⟩
    show pending.val + burn.val = t.pendingBurn.val + s.sharesToBurn.val
    omega

theorem planBatch?_eq_ok {t t' : PoolTotals} {last : Option Count} {balance : Amount}
    {batch : Option Batch} (h : p.planBatch? t last balance = .ok (batch, t')) :
    batch = none ∧ t' = t ∨
      ∃ b id burn, batch = some b ∧ p.PlansBatch t t' id balance burn b := by
  unfold planBatch? at h
  split at h
  · cases h
    exact .inl ⟨rfl, rfl⟩
  · next id =>
    obtain ⟨⟨b, t₁⟩, hplan, h⟩ := bind_eq_ok.1 h
    cases pure_eq_ok.1 h
    obtain ⟨burn, hb⟩ := planBatch_eq_ok hplan
    exact .inr ⟨b, id, burn, rfl, hb⟩

/-- How burning pending shares changes the totals, and what it may burn. -/
structure BurnsPending (t t' : PoolTotals) (budget budget' : RebaseBudget) (burned : Amount) :
    Prop where
  buffered : t'.bufferedEther = t.bufferedEther
  staked : t'.stakedEther = t.stakedEther
  queued : t'.queuedShares = t.queuedShares
  supply : t.totalShares.val = t'.totalShares.val + burned.val
  pending : t.pendingBurn.val = t'.pendingBurn.val + burned.val
  allowed : t.pendingBurn.val = 0 ∧ burned.val = 0 ∨
    budget.deductShares t.pendingBurn.val = .ok (burned.val, budget')
  limit : budget'.limit = budget.limit

theorem burnPending_eq_ok {t t' : PoolTotals} {budget budget' : RebaseBudget} {burned : Amount}
    (h : burnPending t budget = .ok (burned, t', budget')) :
    BurnsPending t t' budget budget' burned := by
  unfold burnPending at h
  split at h
  · next hzero =>
    cases h
    exact ⟨rfl, rfl, rfl, rfl, rfl, .inl ⟨hzero, rfl⟩, rfl⟩
  · obtain ⟨⟨allowed, left⟩, hdeduct, h⟩ := bind_eq_ok.1 h
    simp only [bind_eq_ok, Bounded.narrow_eq_ok_iff, Bounded.sub_eq_ok_iff] at h
    obtain ⟨n, hn, pending, hp, total, ht, h⟩ := h
    cases pure_eq_ok.1 h
    obtain ⟨-, -, hscale⟩ := RebaseBudget.deductShares_eq_ok hdeduct
    exact ⟨rfl, rfl, rfl, ht, hp, .inr (hn ▸ hdeduct), hscale.limit⟩

theorem netGain_eq_ok {d : Delta} {applied gain : Amount} (h : netGain d applied = .ok gain) :
    gain.val = (d.val + applied.val).toNat := by
  simp only [netGain, bind_eq_ok, Delta.fit_eq_ok_iff] at h
  obtain ⟨rewards, hrewards, net, hnet, h⟩ := h
  have hfits : net.val.toNat ≤ Bounded.bound 128 - 1 := by
    have hupper := net.upper
    have hwider : Bounded.bound 127 ≤ Bounded.bound 128 - 1 := by decide
    omega
  rw [← pure_eq_ok.1 h, Bounded.val_clamp, Nat.min_eq_left hfits, hrewards, hnet]

theorem planFees_eq_ok {ms : List StakingModule} {t : PoolTotals} {d : Delta} {applied : Amount}
    {mint : FeeMint} (h : planFees ms t d applied = .ok mint) (hmint : 0 < mint.totalShares.val) :
    ∃ split, FeeSplit.ofModules ms = .ok split ∧
      mint.Pays ((d.val + applied.val).toNat * split.totalFee.val)
        (t.poolValue.val * split.precision.val) t.totalShares.val := by
  unfold planFees at h
  obtain ⟨gain, hgain, h⟩ := bind_eq_ok.1 h
  split at h
  · cases pure_eq_ok.1 h
    cases hmint
  · obtain ⟨split, hsplit, h⟩ := bind_eq_ok.1 h
    exact ⟨split, hsplit, netGain_eq_ok hgain ▸ FeeMint.pays_of_compute h hmint⟩

/-- The values between the steps of a plan. -/
structure PlanSteps where
  registry : Registry
  started : RebaseBudget
  /-- The budget after the balance change. -/
  widened : RebaseBudget
  /-- The budget after the rewards. -/
  spent : RebaseBudget
  left : RebaseBudget
  stakedEther : Amount
  bufferedEther : Amount
  applied : Amount
  batch : Option Batch
  /-- The totals without the batch. -/
  batched : PoolTotals
  burned : Amount
  /-- The totals without the burned shares. -/
  burnt : PoolTotals
  mint : FeeMint
  credits : AddressMap Amount
  totalShares : Amount

/-- The totals with the balance change and the rewards. -/
def PlanSteps.rebased (s : PlanSteps) (t : PoolTotals) : PoolTotals :=
  { t with stakedEther := s.stakedEther, bufferedEther := s.bufferedEther }

/-- The ether in the pool when its batch is settled. -/
def PlanSteps.value (s : PlanSteps) : Nat := s.bufferedEther.val + s.stakedEther.val

/-- Whether a plan takes some steps. -/
structure PlanSteps.Make (s : PlanSteps) (p : Pool) (r : OracleReport) (balance : Amount)
    (plan : ReportPlan) : Prop where
  keys : r.moduleKeys.foldlM applyKeyUpdate p.registry = .ok s.registry
  start : RebaseBudget.start p.policy.maxRebase p.poolValue.val p.totals.totalShares.val =
    .ok s.started
  delta : applyDelta s.started r.delta = .ok s.widened
  staked : p.totals.stakedEther.applyDelta r.delta = .ok s.stakedEther
  rewards : applyRewards s.widened r.rewards = .ok (s.applied, s.spent)
  buffered : s.bufferedEther.val = p.totals.bufferedEther.val + s.applied.val
  batching : p.planBatch? (s.rebased p.totals) r.finalizeUpTo balance = .ok (s.batch, s.batched)
  burning : BurnsPending s.batched s.burnt s.spent s.left s.burned
  fees : planFees s.registry.modules s.burnt r.delta s.applied = .ok s.mint
  crediting : p.feeCredits s.mint = .ok s.credits
  minting : s.totalShares.val = s.burnt.totalShares.val + s.mint.totalShares.val
  totals : plan.totals = { s.burnt with totalShares := s.totalShares }
  batch : plan.batch = s.batch
  credits : plan.credits = s.credits
  registry : plan.registry = s.registry
  block : plan.outcome.block = r.block
  outcomeDelta : plan.outcome.delta = r.delta
  rewardsApplied : plan.outcome.rewardsApplied = s.applied
  finalization : plan.outcome.finalization = s.batch.map (·.settlement)
  sharesBurned : plan.outcome.sharesBurned = s.burned
  feeMint : plan.outcome.feeMint = s.mint
  budgetLimit : plan.outcome.budgetLimit = s.left.limit

theorem exists_planSteps {r : OracleReport} {balance : Amount} {plan : ReportPlan}
    (h : p.plan r balance = .ok plan) : ∃ s : PlanSteps, s.Make p r balance plan := by
  simp only [Pool.plan, bind_eq_ok, Bounded.add_eq_ok_iff] at h
  obtain ⟨registry, hkeys, started, hstart, widened, hdelta, staked, hstaked, ⟨applied, spent⟩,
    hrewards, buffered, hbuffered, ⟨batch, batched⟩, hbatch, ⟨burned, burnt, left⟩, hburn, mint,
    hfees, credits, hcredits, total, htotal, h⟩ := h
  cases pure_eq_ok.1 h
  exact ⟨⟨registry, started, widened, spent, left, staked, buffered, applied, batch, batched,
      burned, burnt, mint, credits, total⟩,
    hkeys, hstart, hdelta, hstaked, hrewards, hbuffered.symm, hbatch, burnPending_eq_ok hburn,
    hfees, hcredits, htotal.symm, rfl, rfl, rfl, rfl, rfl, rfl, rfl, rfl, rfl,
    rfl, rfl⟩

namespace PlanSteps.Make

variable {s : PlanSteps} {r : OracleReport} {balance : Amount} {plan : ReportPlan}

theorem of_none (hs : s.Make p r balance plan) (h : plan.batch = none) :
    s.batched = s.rebased p.totals := by
  rw [hs.batch] at h
  rcases planBatch?_eq_ok hs.batching with ⟨-, hsame⟩ | ⟨b, id, burn, hsome, -⟩
  · exact hsame
  · rw [hsome] at h
    cases h

theorem of_some (hs : s.Make p r balance plan) {b : Batch} (h : plan.batch = some b) :
    ∃ burn, p.PlansBatch (s.rebased p.totals) s.batched b.last balance burn b := by
  rw [hs.batch] at h
  rcases planBatch?_eq_ok hs.batching with ⟨hnone, -⟩ | ⟨b', id, burn, hsome, hb⟩
  · rw [hnone] at h
    cases h
  · rw [hsome] at h
    cases h
    exact ⟨burn, hb.ends ▸ hb⟩

/-- When the batch is settled, the balance change and the rewards have come in. -/
theorem value_change (hs : s.Make p r balance plan) :
    (s.value : Int) = p.totals.bufferedEther.val + p.totals.stakedEther.val + r.delta.val +
      s.applied.val := by
  have hbuffered := hs.buffered
  have hstaked := Amount.applyDelta_eq_ok hs.staked
  rw [PlanSteps.value]
  omega

theorem value_batched (hs : s.Make p r balance plan) :
    s.batched.bufferedEther.val + s.batched.stakedEther.val + plan.locked = s.value := by
  cases hbatch : plan.batch with
  | none =>
    rw [hs.of_none hbatch, ReportPlan.locked, hbatch]
    rfl
  | some b =>
    obtain ⟨burn, hb⟩ := hs.of_some hbatch
    have hbuffered : s.bufferedEther.val =
        s.batched.bufferedEther.val + b.settlement.etherToLock.val := hb.takes.buffered
    have hstaked : s.batched.stakedEther = s.stakedEther := hb.takes.staked
    rw [hstaked, ReportPlan.locked, hbatch, Option.elim_some, PlanSteps.value]
    omega

end PlanSteps.Make

/-- A report brings in its balance change and its rewards, and takes out what its batch locks. -/
theorem plan_ether {r : OracleReport} {balance : Amount} {plan : ReportPlan}
    (h : p.plan r balance = .ok plan) :
    (plan.totals.bufferedEther.val : Int) + plan.totals.stakedEther.val + plan.locked =
      p.totals.bufferedEther.val + p.totals.stakedEther.val + r.delta.val +
        plan.outcome.rewardsApplied.val := by
  obtain ⟨s, hs⟩ := exists_planSteps h
  have hvalue := hs.value_change
  have hbatched := hs.value_batched
  rw [hs.rewardsApplied, hs.totals]
  simp only [hs.burning.buffered, hs.burning.staked]
  omega

end Pool
end LiquidStaking

/-
When the fees of a report refuse it.

Fees are minted out of what the batch of a report leaves, while the gain they are taken of came in
before the batch.  A fee that reaches what is left cannot be paid, and refuses the report.  That
takes a batch that locks more than the whole pool was worth before the report, and leaves no more
of the supply than the part that the fee is of the gain.
-/
import LiquidStaking.Proofs.Fee.Worth
import LiquidStaking.Proofs.Pool.Refusals
import LiquidStaking.Proofs.Pool.Runs

namespace LiquidStaking

/-- The faults of a difference below zero and of a quotient by zero. -/
def Fault.isUnpayable (f : Fault) : Prop := f = .underflow ∨ f = .divisionByZero

/-- Whether a computation is refused for one of them. -/
def Unpayable {α : Type} (x : Except Fault α) : Prop :=
  ∃ cause, x = .error cause ∧ cause.isUnpayable

/-- Whether a computation is never refused for one of them. -/
abbrev AlwaysPayable {α : Type} (x : Except Fault α) : Prop :=
  FailsOnly (fun f => ¬ f.isUnpayable) x

theorem unpayable_bind {α β : Type} {x : Except Fault α} {f : α → Except Fault β}
    (hx : AlwaysPayable x) : Unpayable (x >>= f) ↔ ∃ a, x = .ok a ∧ Unpayable (f a) := by
  cases x with
  | error cause =>
    refine ⟨?_, fun ⟨a, ha, _⟩ => nomatch ha⟩
    rintro ⟨cause', hcause, hunpayable⟩
    cases hcause
    exact absurd hunpayable (hx cause rfl)
  | ok a => exact ⟨fun h => ⟨a, rfl, h⟩, fun ⟨b, hb, h⟩ => by cases hb; exact h⟩

theorem not_unpayable_ok {α : Type} (a : α) : ¬ Unpayable (.ok a) :=
  fun ⟨_, h, _⟩ => nomatch h

namespace FeeSplit

theorem addModule_payable {keys : Nat} (hkeys : keys ≠ 0) (s : FeeSplit) (m : StakingModule) :
    AlwaysPayable (addModule keys s m) := by
  have hquotient : ∀ a b d, d ≠ 0 → AlwaysPayable (mulDivAmount a b d .down) := by
    intro a b d hd
    exact mulDivAmount_fails (fun hzero => absurd hzero hd) nofun nofun
  have hadd : ∀ a b : Amount, AlwaysPayable (a.add b) := fun a b => Bounded.fit_fails nofun _
  refine (hquotient _ _ _ hkeys).bind (fun weight _ => ?_)
  refine (hquotient _ _ _ (by decide)).bind (fun fee _ => ?_)
  refine (hquotient _ _ _ (by decide)).bind (fun treasuryFee _ => ?_)
  refine (hadd _ _).bind (fun both _ => ?_)
  exact (hadd _ _).bind (fun totalFee _ => .pure _)

theorem ofModules_payable (ms : List StakingModule) : AlwaysPayable (ofModules ms) := by
  show AlwaysPayable ((working ms).foldlM (addModule (keysOf (working ms))) empty >>= _)
  refine FailsOnly.bind ?_ (fun split _ => ?_)
  · by_cases hnone : working ms = []
    · rw [hnone]
      exact .pure _
    · exact FailsOnly.foldlM (addModule_payable (keysOf_working_ne_zero hnone)) _ _
  · split
    · exact .error nofun
    · exact .pure _

end FeeSplit

namespace FeeMint

/-- The number of shares is refused for a fee that is not below what the pool is worth. -/
theorem shareCount_unpayable_iff {rewards totalFee precision poolValue shares : Amount} :
    Unpayable (shareCount rewards.val totalFee.val precision.val poolValue.val shares.val) ↔
      poolValue.val * precision.val ≤ rewards.val * totalFee.val := by
  have hfee := Amount.mul_lt_productLimit rewards totalFee
  have hscaled := Amount.mul_lt_productLimit poolValue precision
  unfold shareCount
  simp only
  rw [if_neg (Nat.not_le.2 hfee), if_neg (Nat.not_le.2 hscaled)]
  split
  · next hlt => exact ⟨fun _ => Nat.le_of_lt hlt, fun _ => ⟨_, rfl, .inl rfl⟩⟩
  · next hge =>
    by_cases hzero : poolValue.val * precision.val - rewards.val * totalFee.val = 0
    · rw [hzero]
      exact ⟨fun _ => by omega, fun _ => ⟨_, rfl, .inr rfl⟩⟩
    · refine ⟨fun ⟨cause, hcause, hunpayable⟩ => absurd hunpayable ?_, fun hle => by omega⟩
      exact mulDivAmount_fails (P := fun f => ¬ f.isUnpayable) (fun h => absurd h hzero) nofun nofun
        cause hcause

theorem compute_unpayable_iff {keys : Nat} {ms : List StakingModule} {split : FeeSplit}
    (hsplit : FeeSplit.Lists keys ms split) {rewards : Amount} (hrewards : 0 < rewards.val)
    (poolValue shares : Amount) :
    Unpayable (compute rewards split poolValue shares) ↔
      0 < rewards.val * split.totalFee.val ∧
        poolValue.val * split.precision.val ≤ rewards.val * split.totalFee.val := by
  rcases Nat.eq_zero_or_pos split.totalFee.val with hzero | hfee
  · rw [compute, if_pos (.inr hzero), hzero, Nat.mul_zero]
    exact ⟨fun h => absurd h (not_unpayable_ok _), fun h => absurd h.1 (Nat.lt_irrefl 0)⟩
  · rw [and_iff_right (Nat.mul_pos hrewards hfee), ← shareCount_unpayable_iff]
    rcases compute_cases hsplit hrewards hfee poolValue shares with
      ⟨cause, hmint, hcount⟩ | ⟨mint, hmint, -, hcount⟩
    · rw [hmint, hcount]
      exact ⟨fun ⟨_, h, hf⟩ => ⟨_, by cases h; rfl, hf⟩, fun ⟨_, h, hf⟩ => ⟨_, by cases h; rfl, hf⟩⟩
    · rw [hmint, hcount]
      exact iff_of_false (not_unpayable_ok _) (not_unpayable_ok _)

end FeeMint

namespace Pool

variable {p : Pool} {r : OracleReport} {balance : Amount}

/-- What a report comes to before its fees. -/
structure Unminted where
  registry : Registry
  applied : Amount
  batch : Option Batch
  burned : Amount
  totals : PoolTotals
  budget : RebaseBudget

/-- The steps of a plan before its fees. -/
def planUnminted (p : Pool) (r : OracleReport) (balance : Amount) : Except Fault Unminted := do
  let registry ← r.moduleKeys.foldlM applyKeyUpdate p.registry
  let budget ← RebaseBudget.start p.policy.maxRebase p.poolValue.val p.totals.totalShares.val
  let budget ← applyDelta budget r.delta
  let stakedEther ← p.totals.stakedEther.applyDelta r.delta
  let (applied, budget) ← applyRewards budget r.rewards
  let bufferedEther ← p.totals.bufferedEther.add applied
  let totals := { p.totals with stakedEther, bufferedEther }
  let (batch, totals) ← p.planBatch? totals r.finalizeUpTo balance
  let (burned, totals, budget) ← burnPending totals budget
  return ⟨registry, applied, batch, burned, totals, budget⟩

/-- The fees of a report. -/
def Unminted.fees (u : Unminted) (d : Delta) : Except Fault FeeMint :=
  planFees u.registry.modules u.totals d u.applied

/-- The steps of a plan from its fees on. -/
def planMinted (p : Pool) (r : OracleReport) (u : Unminted) : Except Fault ReportPlan := do
  let feeMint ← u.fees r.delta
  let credits ← p.feeCredits feeMint
  let totalShares ← u.totals.totalShares.add feeMint.totalShares
  let totals := { u.totals with totalShares }
  return {
    registry := u.registry
    totals
    batch := u.batch
    credits
    outcome := {
      block := r.block
      delta := r.delta
      rewardsApplied := u.applied
      rewardsDeferred := ⟨r.rewards.val - u.applied.val,
        Nat.lt_of_le_of_lt (Nat.sub_le ..) r.rewards.isLt⟩
      finalization := u.batch.map (·.settlement)
      sharesBurned := u.burned
      pendingBurn := totals.pendingBurn
      feeMint
      budgetUsed := u.budget.used
      budgetLimit := u.budget.limit
      poolValue := totals.poolValue
      totalShares := totals.totalShares } }

theorem plan_eq (p : Pool) (r : OracleReport) (balance : Amount) :
    p.plan r balance = p.planUnminted r balance >>= p.planMinted r := by
  simp only [plan, planUnminted, bind_assoc, pure_bind]
  rfl

theorem planUnminted_ether {u : Unminted} (h : p.planUnminted r balance = .ok u) :
    ∃ bufferedEther stakedEther batched, ∃ t : PoolTotals,
      t = { p.totals with bufferedEther, stakedEther } ∧
      p.planBatch? t r.finalizeUpTo balance = .ok (u.batch, batched) ∧
      (bufferedEther.val : Int) + stakedEther.val =
        p.totals.bufferedEther.val + p.totals.stakedEther.val + r.delta.val + u.applied.val ∧
      u.totals.bufferedEther = batched.bufferedEther ∧
      u.totals.stakedEther = batched.stakedEther := by
  simp only [planUnminted, bind_eq_ok, Bounded.add_eq_ok_iff] at h
  obtain ⟨registry, hkeys, started, hstart, widened, hdelta, staked, hstaked, ⟨applied, spent⟩,
    hrewards, buffered, hbuffered, ⟨batch, batched⟩, hbatch, ⟨burned, burnt, left⟩, hburn, h⟩ := h
  cases pure_eq_ok.1 h
  have hburning := burnPending_eq_ok hburn
  have hstaked := Amount.applyDelta_eq_ok hstaked
  refine ⟨buffered, staked, batched, _, rfl, hbatch, ?_, hburning.buffered, hburning.staked⟩
  simp only at hbuffered ⊢
  omega

/-- A fee that is due and reaches what the report left: `gain` came in, and fees are taken under
`split`. -/
structure FeeOutweighs (r : OracleReport) (u : Unminted) (gain : Amount) (split : FeeSplit) :
    Prop where
  net : netGain r.delta u.applied = .ok gain
  distributed : FeeSplit.ofModules u.registry.modules = .ok split
  due : 0 < gain.val * split.totalFee.val
  reaches : u.totals.poolValue.val * split.precision.val ≤ gain.val * split.totalFee.val

theorem netGain_payable (d : Delta) (applied : Amount) : AlwaysPayable (netGain d applied) := by
  have hfit : ∀ fault i, ¬ fault.isUnpayable → AlwaysPayable (Delta.fit fault i) := by
    intro fault i hfault
    unfold Delta.fit
    cases Delta.ofInt? i with
    | some d => exact .ok d
    | none => exact .error hfault
  refine (hfit .conversion _ nofun).bind (fun gain _ => ?_)
  exact (hfit .overflow _ nofun).bind (fun net _ => .pure _)

/-- Fees are refused exactly where one is due and reaches what the report left. -/
theorem fees_unpayable_iff {u : Unminted} :
    Unpayable (u.fees r.delta) ↔ ∃ gain split, FeeOutweighs r u gain split := by
  unfold Unminted.fees planFees
  rw [unpayable_bind (netGain_payable _ _)]
  constructor
  · rintro ⟨gain, hgain, h⟩
    split at h
    · exact absurd h (not_unpayable_ok _)
    · next hne =>
      obtain ⟨split, hsplit, h⟩ := (unpayable_bind (FeeSplit.ofModules_payable _)).1 h
      obtain ⟨hdue, hreaches⟩ := (FeeMint.compute_unpayable_iff
        (FeeSplit.lists_of_ofModules hsplit) (Nat.pos_of_ne_zero hne) _ _).1 h
      exact ⟨gain, split, hgain, hsplit, hdue, hreaches⟩
  · rintro ⟨gain, split, hf⟩
    have hpos : 0 < gain.val := Nat.pos_of_mul_pos_right hf.due
    refine ⟨gain, hf.net, ?_⟩
    rw [if_neg (Nat.ne_of_gt hpos), unpayable_bind (FeeSplit.ofModules_payable _)]
    exact ⟨split, hf.distributed, (FeeMint.compute_unpayable_iff
      (FeeSplit.lists_of_ofModules hf.distributed) hpos _ _).2 ⟨hf.due, hf.reaches⟩⟩

/-- A batch that leaves less than the fee of a gain takes all but the fee's part of the supply. -/
theorem supply_of_outweighed {value left locked gain fee precision supply batch : Nat}
    (hether : left + locked = value) (hgain : 0 < gain) (hle : gain ≤ value)
    (hreaches : left * precision ≤ gain * fee) (hlock : locked * supply ≤ batch * value) :
    precision * supply ≤ fee * supply + precision * batch := by
  refine Nat.le_of_mul_le_mul_left ?_ (Nat.lt_of_lt_of_le hgain hle)
  calc value * (precision * supply)
    _ = left * precision * supply + precision * (locked * supply) := by rw [← hether]; ring
    _ ≤ value * fee * supply + precision * (batch * value) :=
      Nat.add_le_add (Nat.mul_le_mul_right _ (Nat.le_trans hreaches (Nat.mul_le_mul_right _ hle)))
        (Nat.mul_le_mul_left _ hlock)
    _ = value * (fee * supply + precision * batch) := by ring

theorem FeeOutweighs.left_lt {u : Unminted} {gain : Amount} {split : FeeSplit}
    (hf : FeeOutweighs r u gain split) :
    u.totals.poolValue.val = u.totals.bufferedEther.val + u.totals.stakedEther.val ∧
      u.totals.bufferedEther.val + u.totals.stakedEther.val < gain.val := by
  have hless : u.totals.poolValue.val < gain.val := by
    refine Nat.lt_of_mul_lt_mul_right (Nat.lt_of_le_of_lt hf.reaches ?_)
    exact Nat.mul_lt_mul_of_pos_left (FeeSplit.totalFee_lt hf.distributed)
      (Nat.pos_of_mul_pos_right hf.due)
  have hclamp : u.totals.poolValue.val =
    min (u.totals.bufferedEther.val + u.totals.stakedEther.val) (Bounded.bound 128 - 1) := rfl
  have hfits := gain.isLt
  omega

/-- The fee of a gain reaches what a report left only if its batch took more than there was before,
and as much of the supply. -/
theorem FeeOutweighs.batch {u : Unminted} (h : p.planUnminted r balance = .ok u) {gain : Amount}
    {split : FeeSplit} (hf : FeeOutweighs r u gain split) :
    ∃ batch, u.batch = some batch ∧ p.poolValue.val < batch.settlement.etherToLock.val ∧
      batch.settlement.etherToLock.val + p.queue.etherUpTo p.queue.finalizedCount.val ≤
        p.queue.etherUpTo (batch.last.val + 1) ∧
      split.precision.val * p.totals.totalShares.val ≤
        split.totalFee.val * p.totals.totalShares.val +
          split.precision.val * batch.settlement.sharesToBurn.val := by
  obtain ⟨buffered, staked, batched, t, rfl, hbatch, hether, hb, hs⟩ := planUnminted_ether h
  have hgain := netGain_eq_ok hf.net
  have hpos : 0 < gain.val := Nat.pos_of_mul_pos_right hf.due
  have hreaches := hf.reaches
  obtain ⟨hvalue, hleft⟩ := hf.left_lt
  rw [hvalue, hb, hs] at hreaches
  rw [hb, hs] at hleft
  rcases planBatch?_eq_ok hbatch with ⟨-, rfl⟩ | ⟨batch, last, burn, hsome, hplan⟩
  · simp only at hleft
    omega
  · have hbuffered : buffered.val = batched.bufferedEther.val + _ := hplan.takes.buffered
    have hstaked : batched.stakedEther = staked := hplan.takes.staked
    rw [hstaked] at hleft hreaches
    refine ⟨batch, hsome, ?_, ?_, ?_⟩
    · refine Nat.lt_of_le_of_lt (Nat.min_le_left _ _) ?_
      omega
    · obtain ⟨-, -, -, -, -, ether, hasked, hlock⟩ := WithdrawalQueue.settlement_eq_ok hplan.settled
      rw [hplan.ends]
      omega
    · have hether : batched.bufferedEther.val + staked.val + batch.settlement.etherToLock.val =
          buffered.val + staked.val := by omega
      refine supply_of_outweighed hether hpos (by omega) hreaches
        (Nat.le_trans hplan.lock_mul_le (Nat.mul_le_mul_left _ ?_))
      exact Nat.min_le_left _ _

/-- The fees of a report are refused, and the report with them, exactly where a fee is due and
reaches what the report left.  Then there is a batch; it locks more than the pool was worth before
the report, as its requests asked for, and leaves at most the part of the supply that the fee is of
the gain. -/
theorem fees_refused_iff {u : Unminted} (h : p.planUnminted r balance = .ok u) :
    (Unpayable (u.fees r.delta) ↔ ∃ gain split, FeeOutweighs r u gain split) ∧
    (∀ cause, u.fees r.delta = .error cause → p.plan r balance = .error cause) ∧
    ∀ gain split, FeeOutweighs r u gain split →
      ∃ batch, u.batch = some batch ∧ p.poolValue.val < batch.settlement.etherToLock.val ∧
        batch.settlement.etherToLock.val + p.queue.etherUpTo p.queue.finalizedCount.val ≤
          p.queue.etherUpTo (batch.last.val + 1) ∧
        split.precision.val * p.totals.totalShares.val ≤
          split.totalFee.val * p.totals.totalShares.val +
            split.precision.val * batch.settlement.sharesToBurn.val := by
  refine ⟨fees_unpayable_iff, fun cause hcause => ?_, fun gain split hf => hf.batch h⟩
  rw [plan_eq, h, ok_bind, planMinted, hcause, error_bind]

/-- Whether the books of a reachable pool refuse a report without a loss for its fees alone, though
all ether fits before and after. -/
structure RefusedForFees (b : Books) (r : OracleReport) (cause : Fault) : Prop where
  reached : ∃ policy, Reached policy b.pool
  fits : b.pool.totals.bufferedEther.val + b.pool.totals.stakedEther.val < Bounded.bound 128
  noLoss : 0 ≤ r.delta.val
  fees : ∃ u, b.pool.planUnminted r b.escrow.balance = .ok u ∧
    u.totals.bufferedEther.val + u.totals.stakedEther.val < Bounded.bound 128 ∧
    u.fees r.delta = .error cause
  refused : b.report r = (.error (.refused cause), b)

theorem report_of_fees {b : Books} {u : Unminted} {cause : Fault}
    (hnewer : b.pool.checkNewer r = .ok ())
    (h : b.pool.planUnminted r b.escrow.balance = .ok u) (hfees : u.fees r.delta = .error cause) :
    b.report r = (.error (.refused cause), b) := by
  have hplan := (fees_refused_iff h).2.1 cause hfees
  simp only [Books.report, hnewer, hplan]

/- A pool that doubles, of which `shares` are withdrawn, and that loses its gain again: the requests
ask for twice of what there is. -/

def doubledMoves (shares : Amount) : List Move :=
  [.run (.manage (.add ⟨1, "node", .zero, 10000, 500, 500, .active, Bounded.zero, Bounded.zero,
      Bounded.zero⟩)),
    .run (.submit .zero 1000000),
    .run (.report ⟨1, .ofInt 1000000, Bounded.zero, none, []⟩),
    .run (.requestWithdrawal .zero shares Bounded.zero),
    .run (.report ⟨2, .ofInt (-1000000), Bounded.zero, none, []⟩)]

def doubled (shares : Amount) : Books :=
  (Books.fresh (initial .standard)).after (doubledMoves shares)

/-- Rewards of 100 wei that a tenth is due of, and the batch of the requests. -/
def leavingReport : OracleReport := ⟨3, Delta.zero, 100, some Bounded.zero, [⟨1, 1⟩]⟩

theorem refusedForFees_doubled {shares : Amount} {cause : Fault}
    (hnewer : (doubled shares).pool.checkNewer leavingReport = .ok ())
    (hcheck : ((doubled shares).pool.planUnminted leavingReport
      (doubled shares).escrow.balance).toOption.any (fun u =>
        decide (u.totals.bufferedEther.val + u.totals.stakedEther.val < Bounded.bound 128 ∧
          u.fees leavingReport.delta = .error cause)) = true)
    (hfits : (doubled shares).pool.totals.bufferedEther.val +
      (doubled shares).pool.totals.stakedEther.val < Bounded.bound 128) :
    RefusedForFees (doubled shares) leavingReport cause := by
  obtain ⟨u, hu, hcheck⟩ := exists_ok_of_any _ _ hcheck
  obtain ⟨hleft, hfees⟩ := of_decide_eq_true hcheck
  have hcreate : create .standard = .ok (initial .standard) := rfl
  refine ⟨⟨.standard, ?_⟩, hfits, Int.le_refl 0, ⟨u, hu, hleft, hfees⟩,
    report_of_fees hnewer hu hfees⟩
  exact Reached.after (b := Books.fresh (initial .standard)) (doubledMoves shares) (.create hcreate)

/-- Where all shares leave, nothing is left for a fee of ten wei; where all but nine leave, it is
just those ten wei. -/
theorem fees_refuse_leaving_report :
    RefusedForFees (doubled 1000000) leavingReport .underflow ∧
      RefusedForFees (doubled 999991) leavingReport .divisionByZero :=
  ⟨refusedForFees_doubled (by decide +kernel) (by decide +kernel) (by decide +kernel),
    refusedForFees_doubled (by decide +kernel) (by decide +kernel) (by decide +kernel)⟩

/-- With all but nine shares the batch locks 1000090 wei of a pool that was worth 1000000.  With
half of them a fee is due as well, and is paid. -/
theorem fees_refused_iff_leaving :
    (∃ u gain split batch, (doubled 999991).pool.planUnminted leavingReport
        (doubled 999991).escrow.balance = .ok u ∧ FeeOutweighs leavingReport u gain split ∧
      u.batch = some batch ∧ (doubled 999991).pool.poolValue.val = 1000000 ∧
      batch.settlement.etherToLock.val = 1000090) ∧
    ∃ u, (doubled 500000).pool.planUnminted leavingReport (doubled 500000).escrow.balance = .ok u ∧
      (∃ mint, u.fees leavingReport.delta = .ok mint ∧ 0 < mint.totalShares.val) ∧
      ¬ ∃ gain split, FeeOutweighs leavingReport u gain split := by
  obtain ⟨u, hu, hcheck⟩ := exists_ok_of_any ((doubled 999991).pool.planUnminted leavingReport
    (doubled 999991).escrow.balance) (fun u => decide (u.fees leavingReport.delta =
      .error .divisionByZero ∧ u.batch.all (·.settlement.etherToLock.val = 1000090)))
    (by decide +kernel)
  obtain ⟨hfees, hlock⟩ := of_decide_eq_true hcheck
  obtain ⟨hiff, -, hbatch⟩ := fees_refused_iff hu
  obtain ⟨gain, split, hf⟩ := hiff.1 ⟨_, hfees, .inr rfl⟩
  obtain ⟨batch, hsome, -⟩ := hbatch gain split hf
  rw [hsome] at hlock
  obtain ⟨v, hv, hcheck⟩ := exists_ok_of_any ((doubled 500000).pool.planUnminted leavingReport
    (doubled 500000).escrow.balance) (fun u => (u.fees leavingReport.delta).toOption.any
      (fun mint : FeeMint => decide (0 < mint.totalShares.val))) (by decide +kernel)
  obtain ⟨mint, hmint, hpos⟩ := exists_ok_of_any _ _ hcheck
  refine ⟨⟨u, gain, split, batch, hu, hf, hsome, by decide +kernel, of_decide_eq_true hlock⟩,
    v, hv, ⟨mint, hmint, of_decide_eq_true hpos⟩, fun hrefused => ?_⟩
  have hunpayable := (fees_refused_iff hv).1.2 hrefused
  rw [hmint] at hunpayable
  exact not_unpayable_ok _ hunpayable

end Pool

end LiquidStaking

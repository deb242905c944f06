/-
How far a report may raise the rate.

The rebase budget is measured against the pool before the report.  Rewards and pending burns are
each within it, but a burn that comes after rewards or after a batch acts on another pool than the
one it was measured against, and then the two effects multiply.
-/
import LiquidStaking.Proofs.Pool.ShareLedger
import LiquidStaking.Proofs.Rebase.Budget
import Mathlib.Algebra.Order.Floor.Div

namespace LiquidStaking
namespace Pool

/-- Whether a pool value and a supply are worth no more per share than the pool with its cap. -/
def RisesAtMost (p : Pool) (poolValue shares : Nat) : Prop :=
  poolValue * p.totals.totalShares.val * rebaseBase ≤
    p.poolValue.val * shares * (rebaseBase + p.policy.maxRebase.val)

instance (p : Pool) (poolValue shares : Nat) : Decidable (p.RisesAtMost poolValue shares) :=
  inferInstanceAs (Decidable (_ ≤ _))

/-- The fewest shares that a value within the cap may be spread over. -/
def leastSupply (p : Pool) (poolValue : Nat) : Nat :=
  poolValue * p.totals.totalShares.val * rebaseBase ⌈/⌉
    (p.poolValue.val * (rebaseBase + p.policy.maxRebase.val))

theorem risesAtMost_iff {p : Pool} (hvalue : 0 < p.poolValue.val) (poolValue shares : Nat) :
    p.RisesAtMost poolValue shares ↔ p.leastSupply poolValue ≤ shares := by
  have hpositive : 0 < p.poolValue.val * (rebaseBase + p.policy.maxRebase.val) :=
    Nat.mul_pos hvalue (Nat.add_pos_left (by decide) _)
  rw [leastSupply, ceilDiv_le_iff_le_mul hpositive, RisesAtMost,
    Nat.mul_right_comm p.poolValue.val]

/-- A report without a gain of the validators that books of a reachable pool accept. -/
structure Rebased (b : Books) (r : OracleReport) (o : ReportOutcome) (b' : Books) : Prop where
  reached : ∃ policy, Reached policy b.pool
  fits : b.pool.totals.bufferedEther.val + b.pool.totals.stakedEther.val < Bounded.bound 128
  value : 0 < b.pool.poolValue.val
  supply : 0 < b.pool.totals.totalShares.val
  loss : r.delta.val ≤ 0
  accepted : b.report r = (.ok o, b')

/-- Whether a report that settles a batch settles it at a value that fits. -/
def SettlesInRange (p : Pool) (r : OracleReport) (o : ReportOutcome) : Prop :=
  o.finalization = none ∨
    (p.totals.bufferedEther.val : Int) + p.totals.stakedEther.val + r.delta.val +
      o.rewardsApplied.val < Bounded.bound 128

instance (p : Pool) (r : OracleReport) (o : ReportOutcome) : Decidable (p.SettlesInRange r o) :=
  inferInstanceAs (Decidable (_ ∨ _))

variable {p : Pool} {r : OracleReport} {balance : Amount} {plan : ReportPlan} {s : PlanSteps}

theorem poolValue_of_fits {t : PoolTotals}
    (h : t.bufferedEther.val + t.stakedEther.val < Bounded.bound 128) :
    t.poolValue.val = t.bufferedEther.val + t.stakedEther.val := by
  show min (t.bufferedEther.val + t.stakedEther.val) (Bounded.bound 128 - 1) = _
  omega

theorem poolValue_le (t : PoolTotals) :
    t.poolValue.val ≤ t.bufferedEther.val + t.stakedEther.val :=
  Nat.min_le_left _ _

/-- The budget after a balance change that is no gain: its limit exceeds the cap by no more than
the fraction lost. -/
theorem applyDelta_of_no_gain {budget budget' : RebaseBudget} {d : Delta} (hd : d.val ≤ 0)
    (h : applyDelta budget d = .ok budget') :
    budget'.limit.val * budget.poolBefore ≤
        budget.limit.val * budget.poolBefore + d.val.natAbs * rebaseBase ∧
      budget'.used = budget.used ∧ budget'.poolBefore = budget.poolBefore ∧
      budget'.sharesBefore = budget.sharesBefore := by
  unfold applyDelta at h
  split at h
  · cases h
    exact ⟨Nat.le_add_right _ _, rfl, rfl, rfl⟩
  · next hne =>
    obtain ⟨⟨allowed, left⟩, hleft, h⟩ := bind_eq_ok.1 h
    cases pure_eq_ok.1 h
    exact RebaseBudget.applyDelta_of_loss (by omega) hleft

theorem applyDelta_keeps {budget budget' : RebaseBudget} {d : Delta}
    (h : applyDelta budget d = .ok budget') :
    budget'.poolBefore = budget.poolBefore ∧ budget'.sharesBefore = budget.sharesBefore ∧
      (budget.used.val ≤ budget.limit.val → budget'.used.val ≤ budget'.limit.val) := by
  unfold applyDelta at h
  split at h
  · cases h
    exact ⟨rfl, rfl, id⟩
  · obtain ⟨⟨allowed, left⟩, hleft, h⟩ := bind_eq_ok.1 h
    cases pure_eq_ok.1 h
    exact RebaseBudget.applyDelta_keeps hleft

theorem applyRewards_eq_ok {budget budget' : RebaseBudget} {rewards applied : Amount}
    (h : applyRewards budget rewards = .ok (applied, budget')) :
    applied.val * rebaseBase ≤ budget.remaining * budget.poolBefore ∧
      applied.val ≤ rewards.val ∧ budget.SameScale budget' := by
  unfold applyRewards at h
  split at h
  · cases h
    exact ⟨by simp, Nat.zero_le _, .refl budget⟩
  · obtain ⟨⟨allowed, left⟩, happend, h⟩ := bind_eq_ok.1 h
    obtain ⟨n, hn, h⟩ := bind_eq_ok.1 h
    cases pure_eq_ok.1 h
    rw [← Bounded.narrow_eq_ok_iff.1 hn]
    exact RebaseBudget.appendEther_eq_ok happend

theorem value_within_cap {value loss applied limit cap base : Nat} (hloss : loss ≤ value)
    (happlied : applied * base ≤ limit * value)
    (hlimit : limit * value ≤ cap * value + loss * base) :
    (value - loss + applied) * base ≤ value * (base + cap) := by
  have hsplit : (value - loss) * base + loss * base = value * base := by
    rw [← Nat.add_mul, Nat.sub_add_cancel hloss]
  rw [Nat.add_mul, Nat.mul_add, Nat.mul_comm value cap]
  omega

theorem batch_within_cap {value mid after supply left locked burn shares factor base : Nat}
    (hcap : mid * base ≤ value * factor) (hlocked : after + locked = mid)
    (hburn : left + burn = supply) (hneutral : burn * mid ≤ locked * supply)
    (hshares : left ≤ shares) : after * supply * base ≤ value * shares * factor := by
  have hbatch : after * supply ≤ mid * left := by
    have hmid : mid * supply = mid * left + burn * mid := by
      rw [← hburn, Nat.mul_add, Nat.mul_comm burn mid]
    have hsplit : after * supply + locked * supply = mid * supply := by
      rw [← Nat.add_mul, hlocked]
    omega
  calc after * supply * base
    _ ≤ mid * left * base := Nat.mul_le_mul_right _ hbatch
    _ = mid * base * left := Nat.mul_right_comm ..
    _ ≤ value * factor * left := Nat.mul_le_mul_right _ hcap
    _ ≤ value * factor * shares := Nat.mul_le_mul_left _ hshares
    _ = value * shares * factor := Nat.mul_right_comm ..

/-- A burn by itself is within the cap: the loss makes room for what it widens the budget by. -/
theorem burn_within_cap {value loss supply shares burned limit cap base : Nat}
    (hloss : loss ≤ value) (hburned : burned * (base + limit) ≤ supply * limit)
    (hlimit : limit * value ≤ cap * value + loss * base)
    (hshares : supply ≤ shares + burned) :
    (value - loss) * supply * base ≤ value * shares * (base + cap) := by
  have hsupply : supply * base ≤ shares * (base + limit) := by
    have hle : supply * (base + limit) ≤ (shares + burned) * (base + limit) :=
      Nat.mul_le_mul_right _ hshares
    rw [Nat.add_mul shares burned, Nat.mul_add supply] at hle
    omega
  have hvalue : (value - loss) * (base + limit) ≤ value * (base + cap) := by
    have hrise : (value - loss) * limit ≤ limit * value := by
      rw [Nat.mul_comm limit]
      exact Nat.mul_le_mul_right _ (Nat.sub_le _ _)
    have hsplit : (value - loss) * base + loss * base = value * base := by
      rw [← Nat.add_mul, Nat.sub_add_cancel hloss]
    rw [Nat.mul_add, Nat.mul_add, Nat.mul_comm value cap]
    omega
  calc (value - loss) * supply * base
    _ = (value - loss) * (supply * base) := Nat.mul_assoc ..
    _ ≤ (value - loss) * (shares * (base + limit)) := Nat.mul_le_mul_left _ hsupply
    _ = (value - loss) * (base + limit) * shares := by
      rw [Nat.mul_comm shares, Nat.mul_assoc]
    _ ≤ value * (base + cap) * shares := Nat.mul_le_mul_right _ hvalue
    _ = value * shares * (base + cap) := Nat.mul_right_comm ..

theorem burn_mono {burned supply rest limit base : Nat} (hbase : 0 < base)
    (hburned : burned * (base + rest) ≤ supply * rest) (hrest : rest ≤ limit) :
    burned * (base + limit) ≤ supply * limit := by
  have hle : burned ≤ supply := by
    refine Nat.le_of_mul_le_mul_right (Nat.le_trans hburned ?_) (Nat.add_pos_left hbase rest)
    exact Nat.mul_le_mul_left _ (Nat.le_add_left _ _)
  obtain ⟨others, rfl⟩ := Nat.exists_eq_add_of_le hle
  have hothers : others * rest ≤ others * limit := Nat.mul_le_mul_left _ hrest
  rw [Nat.mul_add, Nat.add_mul] at hburned ⊢
  omega

theorem PlanSteps.Make.fits (hs : s.Make p r balance plan)
    (h : SettlesInRange p r plan.outcome) : plan.batch = none ∨ s.value < Bounded.bound 128 := by
  refine h.imp (fun hnone => ?_) (fun hlt => ?_)
  · rw [hs.finalization, Option.map_eq_none_iff] at hnone
    rw [hs.batch, hnone]
  · rw [hs.rewardsApplied] at hlt
    have hvalue := hs.value_change
    omega

/-- A batch takes its ether at the rate of the moment, as long as the pool's value fits. -/
theorem PlanSteps.Make.batch_effect (hs : s.Make p r balance plan)
    (hfits : plan.batch = none ∨ s.value < Bounded.bound 128) :
    ∃ burn, s.batched.totalShares.val + burn = p.totals.totalShares.val ∧
      burn * s.value ≤ plan.locked * p.totals.totalShares.val := by
  cases hbatch : plan.batch with
  | none =>
    refine ⟨0, ?_, ?_⟩
    · rw [hs.of_none hbatch]
      rfl
    · simp
  | some b =>
    obtain ⟨burn, hb⟩ := hs.of_some hbatch
    have hlocked : plan.locked = b.settlement.etherToLock.val := by
      simp only [ReportPlan.locked, hbatch, Option.elim_some]
    have hvalue : (s.rebased p.totals).poolValue.val = s.value := by
      rcases hfits with hnone | hfits
      · rw [hnone] at hbatch
        cases hbatch
      · exact poolValue_of_fits hfits
    refine ⟨burn.val, hb.takes.supply.symm, ?_⟩
    rw [hlocked, ← hvalue, hb.burn_eq]
    exact Nat.div_mul_le_self _ _

theorem PlanSteps.Make.sharesBefore_spent (hs : s.Make p r balance plan) :
    s.spent.sharesBefore = p.totals.totalShares.val := by
  obtain ⟨-, -, hscale⟩ := applyRewards_eq_ok hs.rewards
  rw [hscale.sharesBefore, (applyDelta_keeps hs.delta).2.1, RebaseBudget.start_eq_ok hs.start]

theorem PlanSteps.Make.burned_le (hs : s.Make p r balance plan) :
    s.burned.val * (rebaseBase + s.left.limit.val) ≤
      p.totals.totalShares.val * s.left.limit.val := by
  rcases hs.burning.allowed with ⟨-, hzero⟩ | hdeduct
  · rw [hzero, Nat.zero_mul]
    exact Nat.zero_le _
  · obtain ⟨hburned, -, -⟩ := RebaseBudget.deductShares_eq_ok hdeduct
    rw [hs.sharesBefore_spent] at hburned
    refine burn_mono (by decide) hburned ?_
    rw [RebaseBudget.remaining, hs.burning.limit]
    exact Nat.sub_le _ _

/-- The budget of a report, in terms of the pool before it. -/
structure Budgeted (p : Pool) (r : OracleReport) (s : PlanSteps) : Prop where
  lost : r.delta.val.natAbs ≤ p.poolValue.val
  value : s.value = p.poolValue.val - r.delta.val.natAbs + s.applied.val
  applied : s.applied.val * rebaseBase ≤ s.left.limit.val * p.poolValue.val
  limit : s.left.limit.val * p.poolValue.val ≤
    p.policy.maxRebase.val * p.poolValue.val + r.delta.val.natAbs * rebaseBase
  burned : s.burned.val * (rebaseBase + s.left.limit.val) ≤
    p.totals.totalShares.val * s.left.limit.val

theorem PlanSteps.Make.budgeted (hs : s.Make p r balance plan)
    (hfits : p.totals.bufferedEther.val + p.totals.stakedEther.val < Bounded.bound 128)
    (hloss : r.delta.val ≤ 0) : Budgeted p r s := by
  have hvalue : p.poolValue.val = p.totals.bufferedEther.val + p.totals.stakedEther.val :=
    poolValue_of_fits hfits
  have hstaked := Amount.applyDelta_eq_ok hs.staked
  have hbuffered := hs.buffered
  have hstart := RebaseBudget.start_eq_ok hs.start
  obtain ⟨hlimit, hused, hpool, -⟩ := applyDelta_of_no_gain hloss hs.delta
  obtain ⟨happlied, -, hscale⟩ := applyRewards_eq_ok hs.rewards
  have hremaining : s.widened.remaining = s.widened.limit.val := by
    rw [RebaseBudget.remaining, hused, hstart]
    exact Nat.sub_zero _
  have hleft : s.left.limit = s.widened.limit := hs.burning.limit.trans hscale.limit
  rw [hremaining, hpool, hstart, ← hleft] at happlied
  rw [hstart, ← hleft] at hlimit
  refine ⟨by omega, ?_, happlied, hlimit, hs.burned_le⟩
  rw [hvalue, PlanSteps.value]
  omega

theorem PlanSteps.Make.value_after (hs : s.Make p r balance plan) :
    plan.totals.poolValue.val ≤ s.batched.bufferedEther.val + s.batched.stakedEther.val := by
  have hle := poolValue_le plan.totals
  have hbuffered : plan.totals.bufferedEther = s.batched.bufferedEther := by
    rw [hs.totals]
    exact hs.burning.buffered
  have hstaked : plan.totals.stakedEther = s.batched.stakedEther := by
    rw [hs.totals]
    exact hs.burning.staked
  rw [hbuffered, hstaked] at hle
  exact hle

theorem PlanSteps.Make.rise_of_batch (hs : s.Make p r balance plan) (hb : Budgeted p r s)
    (hfits : plan.batch = none ∨ s.value < Bounded.bound 128) {shares : Nat}
    (hshares : s.batched.totalShares.val ≤ shares) :
    p.RisesAtMost plan.totals.poolValue.val shares := by
  have hcap := value_within_cap hb.lost hb.applied hb.limit
  rw [← hb.value] at hcap
  obtain ⟨burn, hburn, hneutral⟩ := hs.batch_effect hfits
  refine Nat.le_trans ?_ (batch_within_cap hcap hs.value_batched hburn hneutral hshares)
  exact Nat.mul_le_mul_right _ (Nat.mul_le_mul_right _ hs.value_after)

theorem PlanSteps.Make.rise_of_burn (hs : s.Make p r balance plan) (hb : Budgeted p r s)
    (happlied : s.applied.val = 0) (hnone : plan.batch = none) {shares : Nat}
    (hshares : s.burnt.totalShares.val ≤ shares) :
    p.RisesAtMost plan.totals.poolValue.val shares := by
  have hall : s.batched.totalShares = p.totals.totalShares := by
    rw [hs.of_none hnone]
    rfl
  have hsupply := hs.burning.supply
  rw [hall] at hsupply
  have hbound := burn_within_cap hb.lost hb.burned hb.limit
    (Nat.le_trans (Nat.le_of_eq hsupply) (Nat.add_le_add_right hshares _))
  have hvalue := hs.value_after
  rw [hs.of_none hnone] at hvalue
  have hmid : s.bufferedEther.val + s.stakedEther.val = s.value := rfl
  have hloss := hb.value
  refine Nat.le_trans (Nat.mul_le_mul_right _ (Nat.mul_le_mul_right _ ?_)) hbound
  simp only [PlanSteps.rebased] at hvalue
  omega

/-- Whether the rate of the books after a report is within the cap of the books before it. -/
def WithinCap (b b' : Books) : Prop :=
  b.pool.RisesAtMost b'.pool.poolValue.val b'.pool.totals.totalShares.val

instance (b b' : Books) : Decidable (WithinCap b b') := inferInstanceAs (Decidable (RisesAtMost ..))

/-- The supply after a report if it had burned no pending shares. -/
def unburned (o : ReportOutcome) (b' : Books) : Nat :=
  b'.pool.totals.totalShares.val + o.sharesBurned.val

theorem withinCap_iff {b b' : Books} {o : ReportOutcome} (hvalue : 0 < b.pool.poolValue.val) :
    WithinCap b b' ↔
      o.sharesBurned.val + b.pool.leastSupply b'.pool.poolValue.val ≤ unburned o b' := by
  rw [WithinCap, risesAtMost_iff hvalue, unburned]
  omega

theorem Rebased.exists_steps {b b' : Books} {o : ReportOutcome} (h : Rebased b r o b') :
    ∃ plan s, PlanSteps.Make s b.pool r b.escrow.balance plan ∧ Budgeted b.pool r s ∧
      o = plan.outcome ∧ b'.pool.totals = plan.totals := by
  obtain ⟨policy, hreached⟩ := h.reached
  obtain ⟨plan, s, hs, houtcome, hpool⟩ := Books.exists_steps hreached.sound.queue h.accepted
  exact ⟨plan, s, hs, hs.budgeted h.fits h.loss, houtcome, congrArg Pool.totals hpool⟩

theorem Rebased.unburned_rise {b b' : Books} {o : ReportOutcome} (h : Rebased b r o b')
    (hrange : SettlesInRange b.pool r o) :
    b.pool.RisesAtMost b'.pool.poolValue.val (unburned o b') := by
  obtain ⟨plan, s, hs, hb, rfl, htotals⟩ := h.exists_steps
  have hvalue : b'.pool.poolValue = plan.totals.poolValue := congrArg _ htotals
  have hsupply := hs.burning.supply
  rw [hvalue, unburned, htotals, hs.sharesBurned, hs.totals, hs.minting]
  rw [← hs.totals]
  exact hs.rise_of_batch hb (hs.fits hrange) (by omega)

/-- A report with no burn, or with nothing else, is within the cap. -/
theorem Rebased.withinCap {b b' : Books} {o : ReportOutcome} (h : Rebased b r o b')
    (hrange : SettlesInRange b.pool r o)
    (hone : o.sharesBurned.val = 0 ∨ o.rewardsApplied.val = 0 ∧ o.finalization = none) :
    WithinCap b b' := by
  rcases hone with hzero | ⟨hzero, hnone⟩
  · have hrise := h.unburned_rise hrange
    rw [unburned, hzero] at hrise
    exact hrise
  · obtain ⟨plan, s, hs, hb, rfl, htotals⟩ := h.exists_steps
    have hvalue : b'.pool.poolValue = plan.totals.poolValue := congrArg _ htotals
    have hbatch : plan.batch = none := by
      rw [hs.finalization, Option.map_eq_none_iff] at hnone
      rw [hs.batch, hnone]
    have hsupply : b'.pool.totals.totalShares.val =
        s.burnt.totalShares.val + s.mint.totalShares.val := by
      rw [htotals, hs.totals]
      exact hs.minting
    rw [hs.rewardsApplied] at hzero
    rw [WithinCap, hvalue]
    exact hs.rise_of_burn hb hzero hbatch (by omega)

/-- A report burns pending shares as far as the supply before it has room, and is within the cap
exactly when the burn leaves the least supply that the value after it may be spread over.  As long
as a batch is settled at a value that fits, there is enough supply before the burn, and a report
that burns nothing or does nothing else is within the cap. -/
theorem rate_rise_capped {b b' : Books} {o : ReportOutcome} (h : Rebased b r o b') :
    o.sharesBurned.val * (rebaseBase + o.budgetLimit.val) ≤
      b.pool.totals.totalShares.val * o.budgetLimit.val ∧
    (WithinCap b b' ↔
      o.sharesBurned.val + b.pool.leastSupply b'.pool.poolValue.val ≤ unburned o b') ∧
    (SettlesInRange b.pool r o →
      b.pool.leastSupply b'.pool.poolValue.val ≤ unburned o b' ∧
        (o.sharesBurned.val = 0 ∨ o.rewardsApplied.val = 0 ∧ o.finalization = none →
          WithinCap b b')) := by
  refine ⟨?_, withinCap_iff h.value, fun hrange => ⟨?_, h.withinCap hrange⟩⟩
  · obtain ⟨plan, s, hs, hb, rfl, -⟩ := h.exists_steps
    rw [hs.sharesBurned, hs.budgetLimit]
    exact hb.burned
  · exact (risesAtMost_iff h.value _ _).1 (h.unburned_rise hrange)

/- Runs that end in a report which some check accepts. -/

/-- Whether some books accept a report and a check accepts what it did. -/
def accepts (b : Books) (r : OracleReport) (check : Books → ReportOutcome → Books → Bool) : Bool :=
  match b.report r with
  | (.ok o, b') => check b o b'
  | (.error _, _) => false

/-- Whether the value of a pool fits, and both it and the supply are positive. -/
def isOpen (p : Pool) : Bool :=
  decide (p.totals.bufferedEther.val + p.totals.stakedEther.val < Bounded.bound 128) &&
    decide (0 < p.poolValue.val) && decide (0 < p.totals.totalShares.val)

theorem exists_accepted {policy : PoolPolicy} (hcreate : create policy = .ok (initial policy))
    (moves : List Move) {r : OracleReport} {check : Books → ReportOutcome → Books → Bool}
    (hcheck : accepts ((Books.fresh (initial policy)).after moves) r check = true) :
    ∃ o b', Reached policy ((Books.fresh (initial policy)).after moves).pool ∧
      ((Books.fresh (initial policy)).after moves).report r = (.ok o, b') ∧
      check ((Books.fresh (initial policy)).after moves) o b' = true := by
  have hreached := Reached.after (b := Books.fresh (initial policy)) moves (.create hcreate)
  unfold accepts at hcheck
  split at hcheck
  · next o b' haccepted => exact ⟨o, b', hreached, haccepted, hcheck⟩
  · cases hcheck

theorem exists_rebased {policy : PoolPolicy} (hcreate : create policy = .ok (initial policy))
    (moves : List Move) (r : OracleReport) (hloss : r.delta.val ≤ 0)
    (check : Books → ReportOutcome → Books → Bool)
    (hopen : ((Books.fresh (initial policy)).after moves).pool.isOpen = true)
    (hcheck : accepts ((Books.fresh (initial policy)).after moves) r check = true) :
    ∃ b o b', Rebased b r o b' ∧ check b o b' = true := by
  obtain ⟨o, b', hreached, haccepted, hcheck⟩ := exists_accepted hcreate moves hcheck
  simp only [isOpen, Bool.and_eq_true, decide_eq_true_eq] at hopen
  obtain ⟨⟨hfits, hvalue⟩, hsupply⟩ := hopen
  exact ⟨_, o, b', ⟨⟨policy, hreached⟩, hfits, hvalue, hsupply, hloss, haccepted⟩, hcheck⟩

/-- The standard policy with a cap of one hundredth. -/
def cappedPolicy : PoolPolicy := { PoolPolicy.standard with maxRebase := 10000000 }

theorem create_cappedPolicy : create cappedPolicy = .ok (initial cappedPolicy) := rfl

/-- A deposit of a thousand wei, a withdrawal of half of it, and a gain. -/
def batchMoves : List Move :=
  [.run (.submit .zero 1000),
    .run (.requestWithdrawal .zero 500 Bounded.zero),
    .run (.report ⟨1, .ofInt 20, Bounded.zero, none, []⟩)]

def batchReport : OracleReport :=
  ⟨2, Delta.zero, Bounded.zero, some Bounded.zero, []⟩

def nextReport : OracleReport := ⟨3, Delta.zero, Bounded.zero, none, []⟩

/-- The report after the batch burns the last pending share and nothing else. -/
theorem rate_rise_capped_next :
    ∃ b o b', Rebased b nextReport o b' ∧ o.sharesBurned.val = 1 ∧
      o.rewardsApplied.val = 0 ∧ o.finalization = none ∧ WithinCap b b' := by
  obtain ⟨b, o, b', hrebased, hcheck⟩ := exists_rebased create_cappedPolicy
    (batchMoves ++ [.run (.report batchReport)]) nextReport (Int.le_refl 0)
    (fun _ o _ => decide (o.sharesBurned.val = 1 ∧ o.rewardsApplied.val = 0 ∧
      o.finalization = none))
    (by decide +kernel) (by decide +kernel)
  obtain ⟨hburned, hrewards, hnone⟩ := of_decide_eq_true hcheck
  exact ⟨b, o, b', hrebased, hburned, hrewards, hnone,
    ((rate_rise_capped hrebased).2.2 (.inl hnone)).2 (.inr ⟨hrewards, hnone⟩)⟩

/-- Half of the supply is finalized, and what may be burned is measured against all of it. -/
theorem exists_rise_of_batch :
    ∃ b o b', Rebased b batchReport o b' ∧ b.pool.SettlesInRange batchReport o ∧
      o.rewardsApplied.val = 0 ∧
      b.pool.poolValue.val = 1020 ∧ b.pool.totals.totalShares.val = 1000 ∧
      o.sharesBurned.val = 9 ∧ b'.pool.poolValue.val = 520 ∧
      b'.pool.totals.totalShares.val = 501 ∧ ¬ WithinCap b b' := by
  obtain ⟨b, o, b', hrebased, hcheck⟩ := exists_rebased create_cappedPolicy batchMoves batchReport
    (Int.le_refl 0)
    (fun b o b' => decide (b.pool.SettlesInRange batchReport o ∧
      o.rewardsApplied.val = 0 ∧ b.pool.poolValue.val = 1020 ∧
      b.pool.totals.totalShares.val = 1000 ∧ o.sharesBurned.val = 9 ∧
      b'.pool.poolValue.val = 520 ∧ b'.pool.totals.totalShares.val = 501 ∧ ¬ WithinCap b b'))
    (by decide +kernel) (by decide +kernel)
  exact ⟨b, o, b', hrebased, of_decide_eq_true hcheck⟩

def rewardMoves : List Move :=
  [.run (.submit .zero 1000000),
    .run (.requestWithdrawal .zero 500000 Bounded.zero),
    .run (.report ⟨1, .ofInt 4000000, Bounded.zero, none, []⟩),
    .run (.report ⟨2, Delta.zero, Bounded.zero, some Bounded.zero, []⟩)]

def rewardReport : OracleReport := ⟨3, Delta.zero, 22500, none, []⟩

/-- Rewards take half of the budget and a burn the other half, and their effects multiply. -/
theorem exists_rise_of_rewards :
    ∃ b o b', Rebased b rewardReport o b' ∧ o.finalization = none ∧ ¬ WithinCap b b' := by
  obtain ⟨b, o, b', hrebased, hcheck⟩ := exists_rebased create_cappedPolicy rewardMoves
    rewardReport (Int.le_refl 0)
    (fun b o b' => decide (o.finalization = none ∧ ¬ WithinCap b b'))
    (by decide +kernel) (by decide +kernel)
  exact ⟨b, o, b', hrebased, of_decide_eq_true hcheck⟩

/-- A policy for amounts near the end of their width. -/
def widePolicy : PoolPolicy :=
  { PoolPolicy.standard with
    maxRebase := 500000000
    maxWithdrawal := Bounded.clamp (Bounded.bound 128)
    depositSize := Bounded.clamp (Bounded.bound 127) }

def wideMoves : List Move :=
  [.run (.manage (.add ⟨1, "node", .zero, 10000, Bounded.zero, Bounded.zero, .active,
      Bounded.zero, 1, Bounded.zero⟩)),
    .run (.submit .zero (Bounded.clamp (Bounded.bound 128))),
    .run (.deposit 1 Bounded.zero),
    .run (.requestWithdrawal .zero (Bounded.clamp (Bounded.bound 127 - 1)) Bounded.zero)]

def wideReport : OracleReport :=
  ⟨1, Delta.zero, Bounded.clamp (Bounded.bound 127 - 1), some Bounded.zero, []⟩

theorem create_widePolicy : create widePolicy = .ok (initial widePolicy) := rfl

/-- With rewards on top the pool holds more than an amount can say, and the batch is settled as if
it held less. -/
theorem exists_rise_of_overflow :
    ∃ b o b', Rebased b wideReport o b' ∧ o.sharesBurned.val = 0 ∧ ¬ WithinCap b b' := by
  obtain ⟨b, o, b', hrebased, hcheck⟩ := exists_rebased create_widePolicy wideMoves
    wideReport (Int.le_refl 0)
    (fun b o b' => decide (o.sharesBurned.val = 0 ∧ ¬ WithinCap b b'))
    (by decide +kernel) (by decide +kernel)
  exact ⟨b, o, b', hrebased, of_decide_eq_true hcheck⟩

/-- A report without a gain can raise the rate beyond the cap: with a batch, from 1020 wei over 1000
shares to 520 over 501, where 505 shares are the least within one hundredth; with rewards; and
without any burn, when its batch is settled at a value that does not fit. -/
theorem rise_above_cap :
    (∃ b o b', Rebased b batchReport o b' ∧ b.pool.SettlesInRange batchReport o ∧
      o.rewardsApplied.val = 0 ∧
      b.pool.poolValue.val = 1020 ∧ b.pool.totals.totalShares.val = 1000 ∧
      o.sharesBurned.val = 9 ∧ b'.pool.poolValue.val = 520 ∧
      b'.pool.totals.totalShares.val = 501 ∧ ¬ WithinCap b b') ∧
    (∃ b o b', Rebased b rewardReport o b' ∧ o.finalization = none ∧ ¬ WithinCap b b') ∧
    ∃ b o b', Rebased b wideReport o b' ∧ o.sharesBurned.val = 0 ∧ ¬ WithinCap b b' :=
  ⟨exists_rise_of_batch, exists_rise_of_rewards, exists_rise_of_overflow⟩

end Pool
end LiquidStaking

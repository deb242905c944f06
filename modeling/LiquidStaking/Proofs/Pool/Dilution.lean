/-
Whether a report without a loss dilutes the holders.

A batch leaves at the rate of the moment and a burn only raises it, so up to the rounding of one
share the rate is kept until fees are minted.  The fee is a part of the whole gain, but it is paid
by the pool that the batch leaves: when most of the supply leaves with a batch, those who stay pay
the fee on what the others gained as well.
-/
import LiquidStaking.Proofs.Pool.RateCap
import Mathlib.Tactic.GCongr
import Mathlib.Tactic.Ring

namespace LiquidStaking
namespace Pool

/-- A report whose balance change and rewards are no loss together, that books of a reachable pool
accept. -/
structure Gains (b : Books) (r : OracleReport) (o : ReportOutcome) (b' : Books) : Prop where
  reached : ∃ policy, Reached policy b.pool
  fits : b.pool.totals.bufferedEther.val + b.pool.totals.stakedEther.val < Bounded.bound 128
  fitsAfter : b'.pool.totals.bufferedEther.val + b'.pool.totals.stakedEther.val <
    Bounded.bound 128
  supply : 0 < b.pool.totals.totalShares.val
  noLoss : 0 ≤ r.delta.val + o.rewardsApplied.val
  accepted : b.report r = (.ok o, b')

def gain (r : OracleReport) (o : ReportOutcome) : Nat := (r.delta.val + o.rewardsApplied.val).toNat

/-- The supply after a report, without the fees it minted. -/
def unminted (o : ReportOutcome) (b' : Books) : Nat :=
  b'.pool.totals.totalShares.val - o.feeMint.totalShares.val

/-- The supply that the batch of a report left, before pending shares were burned. -/
def afterBatch (o : ReportOutcome) (b' : Books) : Nat := unminted o b' + o.sharesBurned.val

/-- Whether the value of some books bears a supply at the rate of the books before, up to the
rounding of one share. -/
def Bears (b b' : Books) (shares : Nat) : Prop :=
  b.pool.poolValue.val * shares ≤
    b'.pool.poolValue.val * b.pool.totals.totalShares.val + b.pool.poolValue.val

/-- Whether the rate does not fall beyond the rounding of one share. -/
def Undiluted (b b' : Books) : Prop := Bears b b' b'.pool.totals.totalShares.val

instance (b b' : Books) (shares : Nat) : Decidable (Bears b b' shares) :=
  inferInstanceAs (Decidable (_ ≤ _))

instance (b b' : Books) : Decidable (Undiluted b b') := inferInstanceAs (Decidable (Bears ..))

def mostShares (b b' : Books) : Nat :=
  b'.pool.poolValue.val * b.pool.totals.totalShares.val / b.pool.poolValue.val + 1

theorem bears_iff {b b' : Books} (hvalue : 0 < b.pool.poolValue.val) (shares : Nat) :
    Bears b b' shares ↔ shares ≤ mostShares b b' := by
  rw [Bears, mostShares, ← Nat.add_div_right _ hvalue, Nat.le_div_iff_mul_le hvalue,
    Nat.mul_comm shares]

/- The steps of a report, over numbers. -/

/-- A batch that burns the shares worth its ether leaves a supply no greater, by the rounding of one
share, than the value it leaves bears. -/
theorem left_of_batch {value settled after supply left locked burn : Nat}
    (hsettled : settled ≤ value) (hpositive : 0 < settled)
    (hburn : burn = locked * supply / settled) (hlocked : after + locked = value)
    (hleft : left + burn = supply) : value * left < after * supply + value := by
  have hworth : locked * supply < value * burn + value :=
    calc locked * supply
      _ < settled * (burn + 1) := hburn ▸ Nat.lt_mul_div_succ _ hpositive
      _ ≤ value * (burn + 1) := Nat.mul_le_mul_right _ hsettled
      _ = value * burn + value := Nat.mul_succ ..
  have hall : value * left + value * burn = after * supply + locked * supply := by
    rw [← Nat.mul_add, hleft, ← Nat.add_mul, hlocked]
  omega

theorem kept_of_le {value greater after supply left : Nat} (hle : value ≤ greater)
    (h : greater * left ≤ after * supply + greater) : value * left ≤ after * supply + value := by
  cases left with
  | zero => exact Nat.zero_le _
  | succ n =>
    have hmul : value * n ≤ greater * n := Nat.mul_le_mul_right n hle
    rw [Nat.mul_succ] at h ⊢
    omega

theorem spread_of_mint {fee scaled supply mint : Nat} (hfee : fee ≤ scaled)
    (hmint : mint = fee * supply / (scaled - fee)) :
    (supply + mint) * (scaled - fee) ≤ supply * scaled := by
  have hworth : mint * (scaled - fee) ≤ fee * supply := hmint ▸ Nat.div_mul_le_self _ _
  calc (supply + mint) * (scaled - fee)
    _ = supply * (scaled - fee) + mint * (scaled - fee) := Nat.add_mul ..
    _ ≤ supply * (scaled - fee) + fee * supply := Nat.add_le_add_left hworth _
    _ = supply * scaled := by rw [Nat.mul_comm fee, ← Nat.mul_add, Nat.sub_add_cancel hfee]

/-- A fee that is part of a gain leaves the rate before the gain, as long as no batch leaves. -/
theorem kept_of_gain {value gain fee precision supply left mint : Nat} (hprecision : 0 < precision)
    (hfee : fee ≤ gain * precision) (hleft : left ≤ supply)
    (hspread : (left + mint) * ((value + gain) * precision - fee) ≤
      left * ((value + gain) * precision)) :
    value * (left + mint) ≤ (value + gain) * supply := by
  have hrest : value * precision ≤ (value + gain) * precision - fee := by
    rw [Nat.add_mul]
    omega
  refine Nat.le_of_mul_le_mul_right ?_ hprecision
  calc value * (left + mint) * precision
    _ = (left + mint) * (value * precision) := by ring
    _ ≤ (left + mint) * ((value + gain) * precision - fee) := Nat.mul_le_mul_left _ hrest
    _ ≤ left * ((value + gain) * precision) := hspread
    _ ≤ supply * ((value + gain) * precision) := Nat.mul_le_mul_right _ hleft
    _ = (value + gain) * supply * precision := by ring

theorem mint_within_iff {fee scaled supply mint most : Nat} (hfee : fee < scaled)
    (hmint : mint = fee * supply / (scaled - fee)) (hsupply : supply ≤ most) :
    supply + mint ≤ most ↔ fee * (most + 1) < scaled * (most + 1 - supply) := by
  obtain ⟨room, rfl⟩ := Nat.exists_eq_add_of_le hsupply
  obtain ⟨rest, rfl⟩ := Nat.exists_eq_add_of_le (Nat.le_of_lt hfee)
  have hrest : 0 < fee + rest - fee := Nat.sub_pos_of_lt hfee
  have hroom : supply + room + 1 - supply = room + 1 := by omega
  have hmost : fee * (supply + room + 1) = fee * supply + fee * (room + 1) := by ring
  have hscaled : (fee + rest) * (room + 1) = (room + 1) * rest + fee * (room + 1) := by ring
  have hmint_lt : supply + mint ≤ supply + room ↔ mint < room + 1 := by omega
  rw [hmint_lt, hmint, Nat.div_lt_iff_lt_mul hrest, Nat.add_sub_cancel_left, hroom, hmost, hscaled]
  omega

theorem room_of_left {value gain after supply left fee precision : Nat} (hsupply : 0 < supply)
    (hbatch : (value + gain) * left < after * supply + (value + gain))
    (hleft : fee * supply + 2 * precision ≤ precision * left) :
    value * left * (after * precision) ≤
      (after * supply + value) * (after * precision - gain * fee) := by
  cases left with
  | zero =>
    rw [Nat.mul_zero, Nat.zero_mul]
    exact Nat.zero_le _
  | succ n =>
    have hkept : (value + gain) * n ≤ after * supply := by
      rw [Nat.mul_succ] at hbatch
      omega
    have hroom : fee * supply + precision ≤ precision * n := by
      rw [Nat.mul_succ] at hleft
      omega
    -- The value before bears its own fee.
    have hfee : value * fee ≤ after * precision := by
      refine Nat.le_of_mul_le_mul_right ?_ hsupply
      calc value * fee * supply
        _ = value * (fee * supply) := Nat.mul_assoc ..
        _ ≤ value * (precision * n) := Nat.mul_le_mul_left _ (by omega)
        _ = value * n * precision := by ring
        _ ≤ (value + gain) * n * precision := by gcongr; omega
        _ ≤ after * supply * precision := Nat.mul_le_mul_right _ hkept
        _ = after * precision * supply := Nat.mul_right_comm ..
    rw [Nat.mul_sub]
    refine Nat.le_sub_of_add_le ?_
    calc value * (n + 1) * (after * precision) + (after * supply + value) * (gain * fee)
      _ = value * (n + 1) * (after * precision) + gain * after * (fee * supply) +
          gain * (value * fee) := by ring
      _ ≤ value * (n + 1) * (after * precision) + gain * after * (fee * supply) +
          gain * (after * precision) := Nat.add_le_add_left (Nat.mul_le_mul_left _ hfee) _
      _ = value * (n + 1) * (after * precision) + gain * after * (fee * supply + precision) := by
          ring
      _ ≤ value * (n + 1) * (after * precision) + gain * after * (precision * n) :=
          Nat.add_le_add_left (Nat.mul_le_mul_left _ hroom) _
      _ = ((value + gain) * n + value) * (after * precision) := by ring
      _ ≤ (after * supply + value) * (after * precision) :=
          Nat.mul_le_mul_right _ (Nat.add_le_add_right hkept _)

/- What a report leaves. -/

variable {b b' : Books} {r : OracleReport} {o : ReportOutcome}

/-- The supply and the value that a report leaves, step by step. -/
structure Leaves (b : Books) (r : OracleReport) (o : ReportOutcome) (b' : Books) : Prop where
  supply : b'.pool.totals.totalShares.val = unminted o b' + o.feeMint.totalShares.val
  whole : o.finalization = none →
    b'.pool.poolValue.val = b.pool.poolValue.val + gain r o ∧
      afterBatch o b' = b.pool.totals.totalShares.val
  batch : o.finalization ≠ none →
    (b.pool.poolValue.val + gain r o) * afterBatch o b' <
      b'.pool.poolValue.val * b.pool.totals.totalShares.val + (b.pool.poolValue.val + gain r o)
  mint : o.feeMint.totalShares.val = 0 ∨
    ∃ split, FeeSplit.ofModules b'.pool.registry.modules = .ok split ∧
      o.feeMint.Pays (gain r o * split.totalFee.val)
        (b'.pool.poolValue.val * split.precision.val) (unminted o b')

variable {p : Pool} {balance : Amount} {plan : ReportPlan} {s : PlanSteps}

theorem PlanSteps.Make.supply_after (hs : s.Make p r balance plan)
    (htotals : b'.pool.totals = plan.totals) :
    b'.pool.totals.totalShares.val =
      s.burnt.totalShares.val + plan.outcome.feeMint.totalShares.val := by
  rw [htotals, hs.totals, hs.feeMint]
  exact hs.minting

theorem PlanSteps.Make.unminted_eq (hs : s.Make p r balance plan)
    (htotals : b'.pool.totals = plan.totals) :
    unminted plan.outcome b' = s.burnt.totalShares.val := by
  rw [unminted, hs.supply_after htotals, Nat.add_sub_cancel]

theorem PlanSteps.Make.afterBatch_eq (hs : s.Make p r balance plan)
    (htotals : b'.pool.totals = plan.totals) :
    afterBatch plan.outcome b' = s.batched.totalShares.val := by
  rw [afterBatch, hs.unminted_eq htotals, hs.sharesBurned]
  exact hs.burning.supply.symm

theorem PlanSteps.Make.value_eq (hs : s.Make p r balance plan)
    (hfits : p.totals.bufferedEther.val + p.totals.stakedEther.val < Bounded.bound 128)
    (hnoLoss : 0 ≤ r.delta.val + plan.outcome.rewardsApplied.val) :
    s.value = p.poolValue.val + gain r plan.outcome := by
  have hvalue := hs.value_change
  have hbefore : p.poolValue.val = _ := poolValue_of_fits hfits
  rw [hbefore, gain]
  rw [hs.rewardsApplied] at hnoLoss ⊢
  omega

/-- What the batch leaves of the value is what the books are worth afterwards. -/
theorem PlanSteps.Make.poolValue_after (hs : s.Make p r balance plan)
    (htotals : b'.pool.totals = plan.totals)
    (hfits : b'.pool.totals.bufferedEther.val + b'.pool.totals.stakedEther.val <
      Bounded.bound 128) : b'.pool.poolValue.val + plan.locked = s.value := by
  rw [htotals, hs.totals] at hfits
  rw [poolValue, htotals, hs.totals, poolValue_of_fits hfits, ← hs.value_batched,
    hs.burning.buffered, hs.burning.staked]

theorem Gains.leaves (h : Gains b r o b') : Leaves b r o b' := by
  obtain ⟨policy, hreached⟩ := h.reached
  obtain ⟨plan, s, hs, rfl, hpool⟩ := Books.exists_steps hreached.sound.queue h.accepted
  have htotals : b'.pool.totals = plan.totals := congrArg Pool.totals hpool
  have hregistry : b'.pool.registry = plan.registry := congrArg Pool.registry hpool
  have hvalue := hs.value_eq h.fits h.noLoss
  have hafter := hs.poolValue_after htotals h.fitsAfter
  refine ⟨?_, fun hnone => ?_, fun hsome => ?_, ?_⟩
  · rw [hs.unminted_eq htotals, hs.supply_after htotals]
  · rw [hs.finalization, Option.map_eq_none_iff, ← hs.batch] at hnone
    refine ⟨?_, ?_⟩
    · rw [← hvalue, ← hafter, ReportPlan.locked, hnone]
      rfl
    · rw [hs.afterBatch_eq htotals, hs.of_none hnone]
      rfl
  · rw [hs.finalization, ← hs.batch, Ne, Option.map_eq_none_iff] at hsome
    obtain ⟨batch, hbatch⟩ := Option.ne_none_iff_exists'.1 hsome
    obtain ⟨burn, hb⟩ := hs.of_some hbatch
    rw [ReportPlan.locked, hbatch] at hafter
    rw [hs.afterBatch_eq htotals, ← hvalue]
    exact left_of_batch (poolValue_le _) (Nat.pos_of_ne_zero hb.valued) hb.burn_eq hafter
      hb.takes.supply.symm
  · rcases Nat.eq_zero_or_pos plan.outcome.feeMint.totalShares.val with hzero | hpos
    · exact .inl hzero
    · refine .inr ?_
      rw [hs.feeMint] at hpos
      obtain ⟨split, hsplit, hpays⟩ := planFees_eq_ok hs.fees hpos
      have hburnt : b'.pool.poolValue = s.burnt.poolValue := by
        rw [poolValue, htotals, hs.totals]
        rfl
      rw [hregistry, hs.registry, hs.unminted_eq htotals, hs.feeMint, gain, hs.rewardsApplied,
        hburnt]
      exact ⟨split, hsplit, hpays⟩

theorem Leaves.unminted_borne (h : Leaves b r o b') : Bears b b' (unminted o b') := by
  have hall : Bears b b' (afterBatch o b') := by
    by_cases hnone : o.finalization = none
    · obtain ⟨hvalue, hafter⟩ := h.whole hnone
      rw [Bears, hvalue, hafter, Nat.add_mul]
      omega
    · exact kept_of_le (Nat.le_add_right _ _) (Nat.le_of_lt (h.batch hnone))
  refine Nat.le_trans (Nat.mul_le_mul_left _ ?_) hall
  exact Nat.le_add_right _ _

theorem Leaves.undiluted_of_no_mint (h : Leaves b r o b')
    (hmint : o.feeMint.totalShares.val = 0) : Undiluted b b' := by
  have hsupply := h.supply
  rw [hmint, Nat.add_zero] at hsupply
  rw [Undiluted, hsupply]
  exact h.unminted_borne

theorem Leaves.undiluted_of_no_batch (h : Leaves b r o b') (hnone : o.finalization = none) :
    Undiluted b b' := by
  rcases h.mint with hzero | ⟨split, hsplit, hpays⟩
  · exact h.undiluted_of_no_mint hzero
  · obtain ⟨hvalue, hafter⟩ := h.whole hnone
    have hpart := FeeSplit.totalFee_lt hsplit
    have hfee : gain r o * split.totalFee.val ≤ gain r o * split.precision.val :=
      Nat.mul_le_mul_left _ (Nat.le_of_lt hpart)
    have hleft : unminted o b' ≤ b.pool.totals.totalShares.val :=
      hafter ▸ Nat.le_add_right _ _
    have hspread := spread_of_mint (Nat.le_of_lt hpays.lt) hpays.total
    rw [hvalue] at hspread
    have hkept := kept_of_gain (Nat.zero_lt_of_lt hpart) hfee hleft hspread
    rw [Undiluted, Bears, h.supply, hvalue]
    exact Nat.le_trans hkept (Nat.le_add_right _ _)

theorem Leaves.undiluted_of_left (h : Leaves b r o b')
    (hsupply : 0 < b.pool.totals.totalShares.val) {split : FeeSplit}
    (hpays : o.feeMint.Pays (gain r o * split.totalFee.val)
      (b'.pool.poolValue.val * split.precision.val) (unminted o b'))
    (hleft : split.totalFee.val * b.pool.totals.totalShares.val + 2 * split.precision.val ≤
      split.precision.val * afterBatch o b') : Undiluted b b' := by
  by_cases hnone : o.finalization = none
  · exact h.undiluted_of_no_batch hnone
  · have hroom := room_of_left hsupply (h.batch hnone) hleft
    have hspread := spread_of_mint (Nat.le_of_lt hpays.lt) hpays.total
    have hburned : unminted o b' ≤ afterBatch o b' := Nat.le_add_right _ _
    rw [Undiluted, Bears, h.supply]
    refine Nat.le_of_mul_le_mul_right ?_ (Nat.sub_pos_of_lt hpays.lt)
    rw [Nat.mul_assoc]
    refine Nat.le_trans (Nat.mul_le_mul_left _ hspread) (Nat.le_trans ?_ hroom)
    rw [Nat.mul_assoc]
    exact Nat.mul_le_mul_left _ (Nat.mul_le_mul_right _ hburned)

/-- A mint dilutes unless its fee is within the part of the value that the supply leaves free. -/
theorem Leaves.undiluted_iff (h : Leaves b r o b') (hvalue : 0 < b.pool.poolValue.val)
    {fee scaled : Nat} (hpays : o.feeMint.Pays fee scaled (unminted o b')) :
    Undiluted b b' ↔
      fee * (mostShares b b' + 1) < scaled * (mostShares b b' + 1 - unminted o b') := by
  rw [Undiluted, bears_iff hvalue, h.supply]
  exact mint_within_iff hpays.lt hpays.total ((bears_iff hvalue _).1 h.unminted_borne)

/-- A report without a loss keeps the rate, up to the rounding of one share, until its fees are
minted, and keeps it altogether if it has no batch or mints nothing.  The fee of a gain keeps it as
long as the batch leaves more than the fee's part of the supply; whether it does is settled by what
the report leaves. -/
theorem diluted_by_fees_only (h : Gains b r o b') :
    Bears b b' (unminted o b') ∧
    (o.finalization = none → Undiluted b b') ∧
    (o.feeMint.totalShares.val = 0 ∧ Undiluted b b' ∨
      ∃ split, FeeSplit.ofModules b'.pool.registry.modules = .ok split ∧
        (split.totalFee.val * b.pool.totals.totalShares.val + 2 * split.precision.val ≤
          split.precision.val * afterBatch o b' → Undiluted b b') ∧
        (0 < b.pool.poolValue.val → (Undiluted b b' ↔
          gain r o * split.totalFee.val * (mostShares b b' + 1) <
            b'.pool.poolValue.val * split.precision.val *
              (mostShares b b' + 1 - unminted o b')))) := by
  have hl := h.leaves
  refine ⟨hl.unminted_borne, hl.undiluted_of_no_batch, ?_⟩
  rcases hl.mint with hzero | ⟨split, hsplit, hpays⟩
  · exact .inl ⟨hzero, hl.undiluted_of_no_mint hzero⟩
  · exact .inr ⟨split, hsplit, hl.undiluted_of_left h.supply hpays,
      fun hvalue => hl.undiluted_iff hvalue hpays⟩

/- A pool whose holders leave in part, and one that nearly all of them leave. -/

/-- One module, to which nothing is deposited; a deposit, and the withdrawal of a part of it. -/
def exitMoves (shares : Amount) : List Move :=
  [.run (.manage (.add ⟨1, "node", Address.ofCount 1, 10000, 500, 500, .active, 1, Bounded.zero,
      Bounded.zero⟩)),
    .run (.submit .zero 100000),
    .run (.requestWithdrawal .zero shares Bounded.zero)]

def exitReport : OracleReport := ⟨1, .ofInt 900, Bounded.zero, some Bounded.zero, []⟩

/-- What can be checked about books and a report that they took over. -/
def gains (b : Books) (r : OracleReport) (o : ReportOutcome) (b' : Books) : Bool :=
  decide (b.pool.totals.bufferedEther.val + b.pool.totals.stakedEther.val < Bounded.bound 128) &&
    decide (b'.pool.totals.bufferedEther.val + b'.pool.totals.stakedEther.val <
      Bounded.bound 128) &&
    decide (0 < b.pool.totals.totalShares.val) && decide (0 ≤ r.delta.val + o.rewardsApplied.val)

theorem exists_gains (shares : Amount) (check : Books → ReportOutcome → Books → Bool)
    (hcheck : accepts ((Books.fresh (initial .standard)).after (exitMoves shares)) exitReport
      (fun b o b' => gains b exitReport o b' && check b o b') = true) :
    ∃ b o b', Gains b exitReport o b' ∧ check b o b' = true := by
  obtain ⟨o, b', hreached, haccepted, hcheck⟩ := exists_accepted rfl (exitMoves shares) hcheck
  simp only [gains, Bool.and_eq_true, decide_eq_true_eq] at hcheck
  obtain ⟨⟨⟨⟨hfits, hfitsAfter⟩, hsupply⟩, hnoLoss⟩, hcheck⟩ := hcheck
  exact ⟨_, o, b', ⟨⟨_, hreached⟩, hfits, hfitsAfter, hsupply, hnoLoss, haccepted⟩, hcheck⟩

/-- Whether the batch of a report left more than the fee's part of the supply. -/
def leavesFeePart (b : Books) (o : ReportOutcome) (b' : Books) : Bool :=
  match FeeSplit.ofModules b'.pool.registry.modules with
  | .ok split =>
    decide (split.totalFee.val * b.pool.totals.totalShares.val + 2 * split.precision.val ≤
      split.precision.val * afterBatch o b')
  | .error _ => false

/-- Two fifths of the supply leave with a gain. -/
theorem diluted_by_fees_only_part :
    ∃ b o b', Gains b exitReport o b' ∧ o.finalization ≠ none ∧
      0 < o.feeMint.totalShares.val ∧ Undiluted b b' := by
  obtain ⟨b, o, b', hgains, hcheck⟩ := exists_gains 40000
    (fun b o b' => decide (o.finalization ≠ none ∧ 0 < o.feeMint.totalShares.val) &&
      leavesFeePart b o b') (by decide +kernel)
  simp only [Bool.and_eq_true, decide_eq_true_eq] at hcheck
  obtain ⟨⟨hsome, hmint⟩, hpart⟩ := hcheck
  refine ⟨b, o, b', hgains, hsome, hmint, ?_⟩
  rcases (diluted_by_fees_only hgains).2.2 with ⟨-, hkept⟩ | ⟨split, hsplit, hkept, -⟩
  · exact hkept
  · rw [leavesFeePart, hsplit] at hpart
    exact hkept (of_decide_eq_true hpart)

/-- All but two hundredths of the supply leave with a gain, of which the others pay the fee: 100000
wei over 100000 shares become 2900 over 2967, where the rate bears 2901. -/
theorem diluted_by_large_batch :
    ∃ b o b', Gains b exitReport o b' ∧ b.pool.poolValue.val = 100000 ∧
      b.pool.totals.totalShares.val = 100000 ∧ b'.pool.poolValue.val = 2900 ∧
      b'.pool.totals.totalShares.val = 2967 ∧ mostShares b b' = 2901 ∧ ¬ Undiluted b b' := by
  obtain ⟨b, o, b', hgains, hcheck⟩ := exists_gains 98000
    (fun b _ b' => decide (b.pool.poolValue.val = 100000 ∧
      b.pool.totals.totalShares.val = 100000 ∧ b'.pool.poolValue.val = 2900 ∧
      b'.pool.totals.totalShares.val = 2967 ∧ mostShares b b' = 2901 ∧ ¬ Undiluted b b'))
    (by decide +kernel)
  exact ⟨b, o, b', hgains, of_decide_eq_true hcheck⟩

end Pool
end LiquidStaking

/-
One step on a budget of which nothing is used.

The room for ether is the greatest amount the limit lets in, and the room for shares the greatest
number whose leaving raises the worth of the others by no more than the limit, so that a step allows
all it is asked for up to there.  A loss makes room for the ether that was lost and no more: together
with what the limit alone would let in, the pool rises by the limit at most.
-/
import LiquidStaking.Proofs.Rebase.Calls
import Mathlib.Order.Bounds.Defs

namespace LiquidStaking
namespace RebaseBudget

/-- What the losses that calls get taken into account add up to. -/
def lossTaken : RebaseBudget → List BudgetCall → Nat
  | _, [] => 0
  | b, .delta d :: rest =>
    (if d.val < 0 ∧ (b.call (.delta d)).1.isOk then d.val.natAbs else 0) +
      lossTaken (b.call (.delta d)).2 rest
  | b, .change c :: rest => lossTaken (b.call (.change c)).2 rest

/-- A step answers exactly if the product of its bound fits, and allows what it is asked for up to
the most that keeps within the bound. -/
structure StepsWithin (step : Nat → Except Fault (Nat × RebaseBudget)) (product : Nat)
    (Within : Nat → Prop) : Prop where
  answers_iff : ∀ amount, (∃ outcome, step amount = .ok outcome) ↔ product < productLimit
  allowed : ∀ amount allowed b', step amount = .ok (allowed, b') →
    ∃ most, IsGreatest {n | Within n} most ∧ allowed = min amount most

variable {b b' : RebaseBudget} {c : RateChange} {allowed room : Nat}

/-! ### The room of a step -/

theorem isGreatest_div {k n : Nat} (hk : 0 < k) : IsGreatest {m | m * k ≤ n} (n / k) :=
  ⟨Nat.div_mul_le_self _ _, fun _ h => (Nat.le_div_iff_mul_le hk).2 h⟩

/-- Of `supply` shares `n` may leave: what they were worth, spread over the others, is at most the
part `limit` of these. -/
theorem shares_within_iff {limit supply n : Nat} :
    (n : Int) * rebaseBase ≤ limit * ((supply : Int) - n) ↔
      n * (rebaseBase + limit) ≤ supply * limit := by
  have hcast : n * (rebaseBase + limit) ≤ supply * limit ↔
      (n : Int) * (rebaseBase + limit) ≤ supply * limit := by
    exact_mod_cast Iff.rfl
  rw [hcast, Int.mul_add, Int.mul_sub, Int.mul_comm (limit : Int) supply,
    Int.mul_comm (limit : Int) n]
  exact ⟨fun h => by omega, fun h => by omega⟩

/-! ### One step -/

/-- What can be charged for, where there is room for more, answers exactly if there is a room. -/
theorem exists_allow_iff {amount : Nat} {room fraction : Except Fault Nat}
    (hcharge : ∀ r, room = .ok r → amount < r → ∃ n, fraction = .ok n) :
    (∃ outcome, (room >>= fun r => if r ≤ amount then pure (r, b.exhaust)
      else do return (amount, b.consume (← fraction))) = .ok outcome) ↔ ∃ r, room = .ok r := by
  constructor
  · rintro ⟨outcome, h⟩
    obtain ⟨r, hroom, -⟩ := bind_eq_ok.1 h
    exact ⟨r, hroom⟩
  · rintro ⟨r, hroom⟩
    rw [hroom, ok_bind]
    split
    · exact ⟨_, rfl⟩
    · next hlt =>
      obtain ⟨n, hn⟩ := hcharge r hroom (Nat.not_le.1 hlt)
      rw [hn]
      exact ⟨_, rfl⟩

theorem exists_appendEther_iff (hopen : b.isExhausted = false) (hpool : 0 < b.poolBefore)
    (amount : Nat) :
    (∃ outcome, b.appendEther amount = .ok outcome) ↔
      b.remaining * b.poolBefore < productLimit := by
  have hexhausted : ¬ b.isExhausted = true := by simp [hopen]
  have hroom : (∃ room, b.remainingEther = .ok room) ↔
      b.remaining * b.poolBefore < productLimit := by
    simp only [remainingEther_eq_ok_iff, exists_and_left, exists_eq, and_true]
  rw [appendEther, if_neg hexhausted, if_neg (Nat.ne_of_gt hpool), ← hroom]
  refine exists_allow_iff fun room h hlt => ?_
  obtain ⟨hfits, rfl⟩ := remainingEther_eq_ok_iff.1 h
  have hbound : amount * rebaseBase ≤ b.remaining * b.poolBefore :=
    (Nat.le_div_iff_mul_le (by decide)).1 (Nat.le_of_lt hlt)
  exact ⟨_, mulDiv_down_eq_ok_iff.2
    ⟨Nat.ne_of_gt hpool, Nat.lt_of_le_of_lt hbound hfits, rfl⟩⟩

theorem exists_deductShares_iff (hopen : b.isExhausted = false) (hsupply : 0 < b.sharesBefore)
    (amount : Nat) :
    (∃ outcome, b.deductShares amount = .ok outcome) ↔
      b.sharesBefore * b.remaining < productLimit := by
  have hexhausted : ¬ b.isExhausted = true := by simp [hopen]
  have hroom : (∃ room, b.remainingShares = .ok room) ↔
      b.sharesBefore * b.remaining < productLimit := by
    simp only [remainingShares_eq_ok_iff, exists_and_left, exists_eq, and_true]
  rw [deductShares, if_neg hexhausted, if_neg (Nat.ne_of_gt hsupply), ← hroom]
  refine exists_allow_iff fun room h hlt => ?_
  obtain ⟨hfits, rfl⟩ := remainingShares_eq_ok_iff.1 h
  have hbound : (amount + 1) * (rebaseBase + b.remaining) ≤ b.sharesBefore * b.remaining :=
    (Nat.le_div_iff_mul_le (Nat.add_pos_left (by decide) _)).1 hlt
  have hbase : 0 < rebaseBase := by decide
  rw [Nat.succ_mul, Nat.mul_add] at hbound
  -- The shares that may leave are never all there are.
  have hothers : b.sharesBefore - amount ≠ 0 := by
    intro hall
    have hmore := Nat.mul_le_mul_right b.remaining (Nat.sub_eq_zero_iff_le.1 hall)
    omega
  have hproduct : amount * rebaseBase < productLimit := by omega
  exact ⟨_, mulDiv_down_eq_ok_iff.2 ⟨hothers, hproduct, rfl⟩⟩

theorem Sane.isExhausted_of_unused (hb : b.Sane) (hunused : b.used.val = 0) :
    b.isExhausted = false := by
  have hpos := hb.limit_pos
  cases h : b.isExhausted with
  | false => rfl
  | true =>
    have hall := isExhausted_iff.1 h
    omega

theorem remaining_of_unused (hunused : b.used.val = 0) : b.remaining = b.limit.val := by
  rw [remaining, hunused, Nat.sub_zero]

theorem Sane.stepsWithin_ether (hb : b.Sane) (hunused : b.used.val = 0) (hpool : 0 < b.poolBefore) :
    StepsWithin b.appendEther (b.limit.val * b.poolBefore)
      (fun n => n * rebaseBase ≤ b.limit.val * b.poolBefore) := by
  have hremaining := remaining_of_unused hunused
  refine ⟨fun amount => ?_, fun amount allowed b' h => ?_⟩
  · rw [← hremaining]
    exact exists_appendEther_iff (hb.isExhausted_of_unused hunused) hpool amount
  · obtain ⟨room, hroom, hallowed, -⟩ := (hb.grants (c := .ether amount) h).room
    obtain ⟨-, rfl⟩ := remainingEther_eq_ok_iff.1 hroom
    rw [← hremaining]
    exact ⟨_, isGreatest_div (by decide), hallowed⟩

theorem Sane.stepsWithin_shares (hb : b.Sane) (hunused : b.used.val = 0)
    (hsupply : 0 < b.sharesBefore) :
    StepsWithin b.deductShares (b.sharesBefore * b.limit.val)
      (fun n => (n : Int) * rebaseBase ≤ b.limit.val * ((b.sharesBefore : Int) - n)) := by
  have hremaining := remaining_of_unused hunused
  refine ⟨fun amount => ?_, fun amount allowed b' h => ?_⟩
  · rw [← hremaining]
    exact exists_deductShares_iff (hb.isExhausted_of_unused hunused) hsupply amount
  · obtain ⟨room, hroom, hallowed, -⟩ := (hb.grants (c := .shares amount) h).room
    obtain ⟨-, rfl⟩ := remainingShares_eq_ok_iff.1 hroom
    simp only [shares_within_iff]
    rw [← hremaining]
    exact ⟨_, isGreatest_div (Nat.add_pos_left (by decide) _), hallowed⟩

/-! ### Losses -/

theorem scale_call (b : RebaseBudget) (c : BudgetCall) :
    (b.call c).2.poolBefore = b.poolBefore ∧ (b.call c).2.sharesBefore = b.sharesBefore := by
  rcases b.call_cases c with ⟨cause, -, hcall⟩ | ⟨allowed, b', hanswer, hcall⟩
  · rw [hcall]
    exact ⟨rfl, rfl⟩
  · rw [hcall]
    cases c with
    | delta d =>
      obtain ⟨hpool, hshares, -⟩ := applyDelta_keeps hanswer
      exact ⟨hpool, hshares⟩
    | change c =>
      cases c with
      | ether amount =>
        obtain ⟨-, -, hscale⟩ := appendEther_eq_ok hanswer
        exact ⟨hscale.poolBefore, hscale.sharesBefore⟩
      | shares amount =>
        obtain ⟨-, -, hscale⟩ := deductShares_eq_ok hanswer
        exact ⟨hscale.poolBefore, hscale.sharesBefore⟩

theorem scale_after (b : RebaseBudget) (calls : List BudgetCall) :
    (b.after calls).poolBefore = b.poolBefore ∧
      (b.after calls).sharesBefore = b.sharesBefore := by
  induction calls generalizing b with
  | nil => exact ⟨rfl, rfl⟩
  | cons c rest ih =>
    obtain ⟨hpool, hshares⟩ := ih (b.call c).2
    obtain ⟨hpoolCall, hsharesCall⟩ := scale_call b c
    exact ⟨hpool.trans hpoolCall, hshares.trans hsharesCall⟩

theorem Sane.deltaApplied_after (hb : b.Sane) (h : b.deltaApplied = true)
    (calls : List BudgetCall) : (b.after calls).deltaApplied = true := by
  induction calls generalizing b with
  | nil => exact h
  | cons c rest ih => exact ih (hb.call c) (hb.deltaApplied_call c h)

/-- A loss is taken into account by a budget that had no balance change before, and has one
afterwards. -/
theorem Sane.of_lossTaken (hb : b.Sane) (calls : List BudgetCall) (h : b.lossTaken calls ≠ 0) :
    b.deltaApplied = false ∧ (b.after calls).deltaApplied = true := by
  induction calls generalizing b with
  | nil => exact absurd rfl h
  | cons c rest ih =>
    have hsane := hb.call c
    show _ ∧ ((b.call c).2.after rest).deltaApplied = true
    cases c with
    | delta d =>
      rcases b.call_cases (.delta d) with ⟨cause, -, hcall⟩ | ⟨allowed, b', hanswer, hcall⟩
      · rw [hcall] at hsane ⊢
        refine ih hsane (fun hnone => h ?_)
        rw [lossTaken, hcall]
        simp [Except.isOk, Except.toBool, hnone]
      · rw [hcall] at hsane ⊢
        have htakes := hb.takesDelta hanswer
        exact ⟨htakes.first, hsane.deltaApplied_after htakes.taken rest⟩
    | change change =>
      have hsame : (b.call (.change change)).2.deltaApplied = b.deltaApplied := by
        rcases b.call_cases (.change change) with ⟨cause, -, hcall⟩ | ⟨allowed, b', hanswer, hcall⟩
        · rw [hcall]
        · rw [hcall]
          exact (hb.grants hanswer).deltaApplied
      obtain ⟨hfirst, hafter⟩ := ih hsane h
      exact ⟨hsame.symm.trans hfirst, hafter⟩

theorem Sane.limit_after (hb : b.Sane) (calls : List BudgetCall) (h : b.lossTaken calls = 0) :
    (b.after calls).limit = b.limit := by
  induction calls generalizing b with
  | nil => rfl
  | cons c rest ih =>
    have hrest : (b.call c).2.lossTaken rest = 0 := by
      cases c with
      | delta d => exact (Nat.add_eq_zero_iff.1 h).2
      | change change => exact h
    refine (ih (hb.call c) hrest).trans (Decidable.byContradiction fun hmoved => ?_)
    obtain ⟨d, rfl, hloss, hok⟩ := (hb.lawful c).limit_of_loss hmoved
    have hnone := (Nat.add_eq_zero_iff.1 h).1
    rw [hok, if_pos ⟨hloss, rfl⟩] at hnone
    omega

/-- Whatever is asked of a budget after a loss, its limit lets in no more than the loss and what the
limit let in before. -/
theorem Sane.limit_after_loss (hb : b.Sane) {d : Delta} (hd : d.val < 0)
    (h : b.applyDelta d = .ok (allowed, b')) (more : List BudgetCall) :
    (b'.after more).limit.val * b.poolBefore ≤
      b.limit.val * b.poolBefore + d.val.natAbs * rebaseBase := by
  obtain ⟨hlimit, -, -, -⟩ := applyDelta_of_loss hd h
  have htakes := hb.takesDelta h
  have hsane : b'.Sane := ⟨htakes.used, htakes.limit_le hb.limit_le,
    Nat.lt_of_lt_of_le hb.limit_pos htakes.limit_mono⟩
  have hnone : b'.lossTaken more = 0 := by
    refine Decidable.byContradiction fun hlost => ?_
    have hfirst := (hsane.of_lossTaken more hlost).1
    rw [htakes.taken] at hfirst
    cases hfirst
  rw [hsane.limit_after more hnone]
  exact hlimit

/-- Ether for a loss and for what a limit lets in raises a pool by the limit at most. -/
theorem pool_after_loss {pool limit loss entered : Nat}
    (h : entered * rebaseBase ≤ limit * pool + loss * rebaseBase) :
    entered ≤ loss + limit * pool / rebaseBase ∧
      ((pool : Int) - loss + entered) * rebaseBase ≤ pool * ((rebaseBase : Int) + limit) := by
  constructor
  · calc entered
      _ ≤ (limit * pool + loss * rebaseBase) / rebaseBase :=
        (Nat.le_div_iff_mul_le (by decide)).2 h
      _ = limit * pool / rebaseBase + loss := Nat.add_mul_div_right _ _ (by decide)
      _ = loss + limit * pool / rebaseBase := Nat.add_comm _ _
  · have hint : (entered : Int) * rebaseBase ≤ limit * pool + loss * rebaseBase := by
      exact_mod_cast h
    linarith

/-- On a new budget of which nothing is used, and with no loss taken into account, a step allows
what it is asked for up to the most that raises the rate by no more than the limit.  After a loss of
`-d` it lets in no more than that loss and what the limit alone would, so that the pool ends at most
the limit above where it was before. -/
theorem single_step_exact {fraction : Count} {pool supply : Nat}
    (hstart : start fraction pool supply = .ok b) (hpool : 0 < pool) (hsupply : 0 < supply)
    (calls : List BudgetCall) :
    ((b.after calls).used.val = 0 → b.lossTaken calls = 0 →
        StepsWithin (b.after calls).appendEther (fraction.val * pool)
          (fun n => n * rebaseBase ≤ fraction.val * pool) ∧
        StepsWithin (b.after calls).deductShares (supply * fraction.val)
          (fun n => (n : Int) * rebaseBase ≤ fraction.val * ((supply : Int) - n))) ∧
      ∀ d taken b', d.val < 0 → (b.after calls).applyDelta d = .ok (taken, b') →
        ∀ more amount allowed b'', (b'.after more).appendEther amount = .ok (allowed, b'') →
          allowed ≤ d.val.natAbs + fraction.val * pool / rebaseBase ∧
            ((pool : Int) + d.val + allowed) * rebaseBase ≤
              pool * ((rebaseBase : Int) + fraction.val) := by
  have hb := start_sane hstart
  have hafter := hb.after calls
  obtain ⟨hpoolAfter, hsharesAfter⟩ := scale_after b calls
  have hlimitAfter := hb.limit_after calls
  have hlost := hb.of_lossTaken calls
  obtain rfl := start_eq_ok hstart
  refine ⟨fun hunused hnone => ?_, fun d taken b' hd hdelta more amount allowed b'' happend => ?_⟩
  · have hether := hafter.stepsWithin_ether hunused (hpoolAfter ▸ hpool)
    have hshares := hafter.stepsWithin_shares hunused (hsharesAfter ▸ hsupply)
    rw [hpoolAfter, hlimitAfter hnone] at hether
    rw [hsharesAfter, hlimitAfter hnone] at hshares
    exact ⟨hether, hshares⟩
  · have hfirst := (hafter.takesDelta hdelta).first
    have hnone : RebaseBudget.lossTaken ⟨pool, supply, fraction, Bounded.zero, false⟩ calls = 0 :=
      Decidable.byContradiction fun hsome => by
        rw [(hlost hsome).2] at hfirst
        cases hfirst
    have hlimit := hafter.limit_after_loss hd hdelta more
    rw [hpoolAfter, hlimitAfter hnone] at hlimit
    have hscale := (scale_after b' more).1.trans (applyDelta_keeps hdelta).1
    obtain ⟨hbound, -, -⟩ := appendEther_eq_ok happend
    rw [hscale, hpoolAfter] at hbound
    have hroom : allowed * rebaseBase ≤ fraction.val * pool + d.val.natAbs * rebaseBase :=
      calc allowed * rebaseBase
        _ ≤ (b'.after more).remaining * pool := hbound
        _ ≤ (b'.after more).limit.val * pool := Nat.mul_le_mul_right _ (Nat.sub_le _ _)
        _ ≤ _ := hlimit
    have hloss : d.val = -(d.val.natAbs : Int) := by omega
    obtain ⟨hmost, hpoolEnd⟩ := pool_after_loss hroom
    refine ⟨hmost, ?_⟩
    rw [hloss, ← Int.sub_eq_add_neg]
    exact hpoolEnd

/-- A limit of a hundredth on ten thousand wei and as many shares: ether of nothing uses nothing,
and a loss of a hundredth lets a hundred wei more in. -/
theorem single_step_exact_hundredth :
    start 10000000 10000 10000 = .ok ⟨10000, 10000, 10000000, Bounded.zero, false⟩ ∧
      (∃ most, IsGreatest {n | n * rebaseBase ≤ 10000000 * 10000} most ∧ 100 = min 500 most) ∧
      (∃ most, IsGreatest {n : Nat | (n : Int) * rebaseBase ≤ 10000000 * ((10000 : Int) - n)} most ∧
        99 = min 1000 most) ∧
      (⟨10000, 10000, 10000000, Bounded.zero, false⟩ : RebaseBudget).applyDelta (.ofInt (-100)) =
        .ok (0, ⟨10000, 10000, 20000000, Bounded.zero, true⟩) ∧
      (⟨10000, 10000, 20000000, Bounded.zero, true⟩ : RebaseBudget).appendEther 500 =
        .ok (200, ⟨10000, 10000, 20000000, 20000000, true⟩) ∧
      200 ≤ 100 + 10000000 * 10000 / rebaseBase ∧
      ((10000 : Int) - 100 + 200) * rebaseBase ≤ 10000 * ((rebaseBase : Int) + 10000000) := by
  have hstart : start 10000000 10000 10000 =
      .ok ⟨10000, 10000, 10000000, Bounded.zero, false⟩ := by decide +kernel
  have hdelta : (⟨10000, 10000, 10000000, Bounded.zero, false⟩ : RebaseBudget).applyDelta
      (.ofInt (-100)) = .ok (0, ⟨10000, 10000, 20000000, Bounded.zero, true⟩) := by decide +kernel
  have hether : (⟨10000, 10000, 20000000, Bounded.zero, true⟩ : RebaseBudget).appendEther 500 =
      .ok (200, ⟨10000, 10000, 20000000, 20000000, true⟩) := by decide +kernel
  obtain ⟨hexact, hloss⟩ := single_step_exact hstart (by decide) (by decide) [.change (.ether 0)]
  obtain ⟨hsteps, hshares⟩ := hexact (by decide +kernel) (by decide +kernel)
  obtain ⟨hmost, hend⟩ := hloss (.ofInt (-100)) 0 _ (by decide +kernel) hdelta [] 500 200 _ hether
  exact ⟨hstart, hsteps.allowed 500 100 ⟨10000, 10000, 10000000, 10000000, false⟩
      (by decide +kernel),
    hshares.allowed 1000 99 ⟨10000, 10000, 10000000, 10000000, false⟩ (by decide +kernel),
    hdelta, hether, hmost, hend⟩

end RebaseBudget
end LiquidStaking

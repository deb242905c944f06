/-
How far a rebase budget reaches.

What a step allows is bounded by the fraction that is left, cross multiplied so that no quotient is
rounded twice: ether against the pool before the report, shares against the supply without them.
-/
import LiquidStaking.Proofs.Arithmetic
import LiquidStaking.Rebase.Budget

namespace LiquidStaking
namespace RebaseBudget

variable {b b' : RebaseBudget}

theorem start_eq_ok {fraction : Count} {poolBefore sharesBefore : Nat}
    (h : start fraction poolBefore sharesBefore = .ok b) :
    b = ⟨poolBefore, sharesBefore, fraction, Bounded.zero, false⟩ := by
  unfold start at h
  split at h
  · cases h
  · cases h
    rfl

theorem start_limit_pos {fraction : Count} {poolBefore sharesBefore : Nat}
    (h : start fraction poolBefore sharesBefore = .ok b) : 0 < b.limit.val := by
  unfold start at h
  split at h
  · cases h
  · next hopen =>
    cases h
    exact Nat.pos_of_ne_zero (fun hzero => hopen (.inl hzero))

/-- What no step changes: the pool before the report, and with no loss the limit.  No step uses
more than that. -/
structure SameScale (b b' : RebaseBudget) : Prop where
  poolBefore : b'.poolBefore = b.poolBefore
  sharesBefore : b'.sharesBefore = b.sharesBefore
  limit : b'.limit = b.limit
  within : b.used.val ≤ b.limit.val → b'.used.val ≤ b'.limit.val

theorem SameScale.refl (b : RebaseBudget) : SameScale b b := ⟨rfl, rfl, rfl, id⟩

/-- What a step does with an amount that it is asked for: nothing, once the budget is used up; and
else it allows the room there is, which uses the budget up, or all of the amount at its charge. -/
inductive Allows (b : RebaseBudget) (room : Except Fault Nat) (charge amount : Nat) :
    Nat → RebaseBudget → Prop
  | nothing (h : b.isExhausted = true) : Allows b room charge amount 0 b
  | rest {n : Nat} (hopen : b.isExhausted = false) (hroom : room = .ok n) (hle : n ≤ amount) :
      Allows b room charge amount n b.exhaust
  | all {n : Nat} (hopen : b.isExhausted = false) (hroom : room = .ok n) (hlt : amount < n) :
      Allows b room charge amount amount (b.consume charge)

section

variable {room : Except Fault Nat} {charge amount allowed : Nat}

theorem allows_of_eq_ok {whole divisor : Nat}
    (h : (if b.isExhausted = true then .ok (0, b)
      else if whole = 0 then .error .divisionByZero
      else do
        let n ← room
        if n ≤ amount then
          return (n, b.exhaust)
        else
          return (amount, b.consume (← mulDiv amount rebaseBase divisor .down))) =
      Except.ok (allowed, b')) :
    b.Allows room (amount * rebaseBase / divisor) amount allowed b' := by
  split at h
  · next hexhausted =>
    cases h
    exact .nothing hexhausted
  · next hopen =>
    rw [Bool.not_eq_true] at hopen
    split at h
    · cases h
    · obtain ⟨n, hroom, h⟩ := bind_eq_ok.1 h
      split at h
      · next hle =>
        cases pure_eq_ok.1 h
        exact .rest hopen hroom hle
      · next hlt =>
        obtain ⟨charge, hcharge, h⟩ := bind_eq_ok.1 h
        obtain ⟨-, -, rfl⟩ := mulDiv_down_eq_ok_iff.1 hcharge
        cases pure_eq_ok.1 h
        exact .all hopen hroom (Nat.not_le.1 hlt)

theorem appendEther_allows (h : b.appendEther amount = .ok (allowed, b')) :
    b.Allows b.remainingEther (amount * rebaseBase / b.poolBefore) amount allowed b' :=
  allows_of_eq_ok h

theorem deductShares_allows (h : b.deductShares amount = .ok (allowed, b')) :
    b.Allows b.remainingShares (amount * rebaseBase / (b.sharesBefore - amount)) amount allowed
      b' :=
  allows_of_eq_ok h

theorem Allows.le_asked (h : b.Allows room charge amount allowed b') : allowed ≤ amount := by
  cases h with
  | nothing _ => exact Nat.zero_le _
  | rest _ _ hle => exact hle
  | all _ _ _ => exact Nat.le_refl _

theorem Allows.sameScale (h : b.Allows room charge amount allowed b') : SameScale b b' := by
  cases h with
  | nothing _ => exact .refl b
  | rest _ _ _ => exact ⟨rfl, rfl, rfl, fun _ => Nat.le_refl _⟩
  | all _ _ _ => exact ⟨rfl, rfl, rfl, fun _ => Nat.min_le_right _ _⟩

/-- What is allowed is within a bound that the room is within. -/
theorem Allows.within (h : b.Allows room charge amount allowed b') {k bound : Nat}
    (hroom : ∀ n, room = .ok n → n * k ≤ bound) : allowed * k ≤ bound := by
  cases h with
  | nothing _ =>
    rw [Nat.zero_mul]
    exact Nat.zero_le _
  | rest _ hn _ => exact hroom _ hn
  | all _ hn hlt => exact Nat.le_trans (Nat.mul_le_mul_right _ (Nat.le_of_lt hlt)) (hroom _ hn)

end

theorem remainingEther_eq_ok_iff {room : Nat} : b.remainingEther = .ok room ↔
    b.remaining * b.poolBefore < productLimit ∧
      room = b.remaining * b.poolBefore / rebaseBase := by
  have hbase : rebaseBase ≠ 0 := by decide
  unfold remainingEther
  rw [mulDiv_down_eq_ok_iff]
  exact and_iff_right hbase

theorem remainingShares_eq_ok_iff {room : Nat} : b.remainingShares = .ok room ↔
    b.sharesBefore * b.remaining < productLimit ∧
      room = b.sharesBefore * b.remaining / (rebaseBase + b.remaining) := by
  have hwhole : rebaseBase + b.remaining ≠ 0 := Nat.ne_of_gt (Nat.add_pos_left (by decide) _)
  unfold remainingShares
  rw [mulDiv_down_eq_ok_iff]
  exact and_iff_right hwhole

theorem appendEther_eq_ok {amount allowed : Nat} (h : b.appendEther amount = .ok (allowed, b')) :
    allowed * rebaseBase ≤ b.remaining * b.poolBefore ∧ allowed ≤ amount ∧ SameScale b b' := by
  have hallows := appendEther_allows h
  refine ⟨hallows.within (fun room hroom => ?_), hallows.le_asked, hallows.sameScale⟩
  rw [(remainingEther_eq_ok_iff.1 hroom).2]
  exact Nat.div_mul_le_self _ _

/-- Without the shares that may leave, each of the others is worth at most the remaining fraction
more. -/
theorem deductShares_eq_ok {amount allowed : Nat} (h : b.deductShares amount = .ok (allowed, b')) :
    allowed * (rebaseBase + b.remaining) ≤ b.sharesBefore * b.remaining ∧ allowed ≤ amount ∧
      SameScale b b' := by
  have hallows := deductShares_allows h
  refine ⟨hallows.within (fun room hroom => ?_), hallows.le_asked, hallows.sameScale⟩
  rw [(remainingShares_eq_ok_iff.1 hroom).2]
  exact Nat.div_mul_le_self _ _

theorem room_lt_of_deductShares {amount allowed : Nat}
    (h : b.deductShares amount = .ok (allowed, b')) (hshort : allowed < amount) :
    b.sharesBefore * b.remaining < amount * (rebaseBase + b.remaining) := by
  cases deductShares_allows h with
  | nothing hexhausted =>
    have hused : b.used = b.limit := eq_of_beq hexhausted
    have hnone : b.remaining = 0 := by
      rw [remaining, hused, Nat.sub_self]
    rw [hnone, Nat.mul_zero]
    exact Nat.mul_pos hshort (by decide)
  | rest _ hroom _ =>
    rw [(remainingShares_eq_ok_iff.1 hroom).2] at hshort
    exact (Nat.div_lt_iff_lt_mul (Nat.add_pos_left (by decide) _)).1 hshort
  | all _ _ _ => exact absurd hshort (Nat.lt_irrefl _)

theorem applyDelta_of_empty {d : Delta} (hpool : b.poolBefore = 0) (hopen : b.used ≠ b.limit)
    (x : Nat × RebaseBudget) : b.applyDelta d ≠ .ok x := by
  intro h
  unfold applyDelta at h
  split at h
  · cases h
  · split at h
    · obtain ⟨given, happend, -⟩ := bind_eq_ok.1 h
      have hexhausted : b.isExhausted = false := beq_eq_false_iff_ne.2 hopen
      rw [appendEther, hexhausted, if_neg Bool.false_ne_true, if_pos hpool] at happend
      cases happend
    · obtain ⟨fraction, hfraction, -⟩ := bind_eq_ok.1 h
      exact (mulDiv_down_eq_ok_iff.1 hfraction).1 hpool

/-- A loss widens the limit by no more than the fraction lost, and consumes nothing. -/
theorem applyDelta_of_loss {d : Delta} {allowed : Nat} (hd : d.val < 0)
    (h : b.applyDelta d = .ok (allowed, b')) :
    b'.limit.val * b.poolBefore ≤ b.limit.val * b.poolBefore + d.val.natAbs * rebaseBase ∧
      b'.used = b.used ∧ b'.poolBefore = b.poolBefore ∧ b'.sharesBefore = b.sharesBefore := by
  unfold applyDelta at h
  split at h
  · cases h
  · rw [if_neg (Int.not_le.2 hd)] at h
    obtain ⟨fraction, hfraction, h⟩ := bind_eq_ok.1 h
    obtain ⟨-, -, hfraction⟩ := mulDiv_down_eq_ok_iff.1 hfraction
    cases pure_eq_ok.1 h
    have hlost : fraction * b.poolBefore ≤ d.val.natAbs * rebaseBase := by
      rw [hfraction]
      exact Nat.div_mul_le_self _ _
    refine ⟨?_, rfl, rfl, rfl⟩
    calc min (b.limit.val + fraction) rebaseBase * b.poolBefore
      _ ≤ (b.limit.val + fraction) * b.poolBefore := Nat.mul_le_mul_right _ (Nat.min_le_left _ _)
      _ = b.limit.val * b.poolBefore + fraction * b.poolBefore := Nat.add_mul ..
      _ ≤ b.limit.val * b.poolBefore + d.val.natAbs * rebaseBase := Nat.add_le_add_left hlost _

/-- A balance change leaves the pool before the report alone, and room for what it uses. -/
theorem applyDelta_keeps {d : Delta} {allowed : Nat} (h : b.applyDelta d = .ok (allowed, b')) :
    b'.poolBefore = b.poolBefore ∧ b'.sharesBefore = b.sharesBefore ∧
      (b.used.val ≤ b.limit.val → b'.used.val ≤ b'.limit.val) := by
  by_cases hd : d.val < 0
  · have hzero : b.used.val = 0 := by
      unfold applyDelta at h
      split at h
      · cases h
      · next hopen => exact Decidable.byContradiction (fun hne => hopen (.inl hne))
    obtain ⟨-, hused, hpool, hshares⟩ := applyDelta_of_loss hd h
    refine ⟨hpool, hshares, fun _ => ?_⟩
    rw [hused, hzero]
    exact Nat.zero_le _
  · unfold applyDelta at h
    split at h
    · cases h
    · rw [if_pos (Int.not_lt.1 hd)] at h
      obtain ⟨⟨given, left⟩, happend, h⟩ := bind_eq_ok.1 h
      cases pure_eq_ok.1 h
      obtain ⟨-, -, hscale⟩ := appendEther_eq_ok happend
      exact ⟨hscale.poolBefore, hscale.sharesBefore, hscale.within⟩

end RebaseBudget
end LiquidStaking

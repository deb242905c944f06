/-
What comparing two rates says.

Amounts have 128 bits, so no cross product is too wide and every comparison answers.  Rates that
have shares compare as their exact quotients do, and their integer prices follow.  The rate of an
empty pool has no quotient: its cross products are zero, so it is level with every rate, and a chain
of comparisons may go through any rate but that one.
-/
import LiquidStaking.Proofs.Rate
import Mathlib.Algebra.Order.Field.Basic
import Mathlib.Data.Rat.Cast.Order
import Mathlib.Order.Compare

namespace LiquidStaking

namespace Rate

/-- The exact price of a share, where there are shares. -/
def quotient (r : Rate) : ℚ := r.poolValue / r.shares

/-- Whether a comparison answers that `a` is below `b` or level with it. -/
def NotAbove (a b : Rate) : Prop := a.compare b = .ok .lt ∨ a.compare b = .ok .eq

/-- Whether a chain of comparisons may go through `b`. -/
def Links (b : Rate) : Prop :=
  ∀ a c : Rate, a.Accepted → c.Accepted → a.NotAbove b → b.NotAbove c → a.NotAbove c

variable {a b c : Rate}

theorem Accepted.compare_eq (ha : a.Accepted) (hb : b.Accepted) :
    a.compare b = .ok (cmp (a.poolValue * b.shares) (b.poolValue * a.shares)) := by
  obtain ⟨value, shares, h⟩ := ha
  obtain ⟨-, rfl⟩ := make_eq_ok_iff.1 h
  obtain ⟨value', shares', h'⟩ := hb
  obtain ⟨-, rfl⟩ := make_eq_ok_iff.1 h'
  have hleft : ¬ productLimit ≤ value.val * shares'.val :=
    Nat.not_le.2 (Amount.mul_lt_productLimit value shares')
  have hright : ¬ productLimit ≤ value'.val * shares.val :=
    Nat.not_le.2 (Amount.mul_lt_productLimit value' shares)
  rw [compare, if_neg hleft, if_neg hright]
  rcases Nat.lt_trichotomy (value.val * shares'.val) (value'.val * shares.val) with hlt | heq | hgt
  · rw [if_pos hlt, (cmp_eq_lt_iff _ _).2 hlt]
  · rw [if_neg (Nat.not_lt.2 (Nat.le_of_eq heq.symm)), if_pos heq, (cmp_eq_eq_iff _ _).2 heq]
  · rw [if_neg (Nat.not_lt_of_gt hgt), if_neg (Nat.ne_of_gt hgt), (cmp_eq_gt_iff _ _).2 hgt]

theorem Accepted.compare_swap (ha : a.Accepted) (hb : b.Accepted) :
    ∃ o, a.compare b = .ok o ∧ b.compare a = .ok o.swap :=
  ⟨_, ha.compare_eq hb, by rw [hb.compare_eq ha, cmp_swap]⟩

theorem Accepted.notAbove_iff (ha : a.Accepted) (hb : b.Accepted) : a.NotAbove b ↔ a.AtMost b := by
  rw [NotAbove, ha.compare_eq hb, Except.ok.injEq, Except.ok.injEq, cmp_eq_lt_iff, cmp_eq_eq_iff]
  exact Nat.le_iff_lt_or_eq.symm

/-- Cross products compare as quotients do: both are scaled by the shares of the two rates. -/
theorem cmp_quotient (ha : a.shares ≠ 0) (hb : b.shares ≠ 0) :
    cmp (a.poolValue * b.shares) (b.poolValue * a.shares) = cmp a.quotient b.quotient := by
  have hapos : (0 : ℚ) < a.shares := by exact_mod_cast Nat.pos_of_ne_zero ha
  have hbpos : (0 : ℚ) < b.shares := by exact_mod_cast Nat.pos_of_ne_zero hb
  have hmono : StrictMono (fun n : ℕ => (n : ℚ) / (a.shares * b.shares)) :=
    fun m n h => div_lt_div_of_pos_right (Nat.cast_lt.2 h) (mul_pos hapos hbpos)
  have hleft : ((a.poolValue * b.shares : ℕ) : ℚ) / (a.shares * b.shares) = a.quotient := by
    rw [Nat.cast_mul, mul_div_mul_right _ _ hbpos.ne', quotient]
  have hright : ((b.poolValue * a.shares : ℕ) : ℚ) / (a.shares * b.shares) = b.quotient := by
    rw [Nat.cast_mul, mul_comm (a.shares : ℚ), mul_div_mul_right _ _ hapos.ne', quotient]
  rw [← hleft, ← hright, hmono.cmp_map_eq]

/-- The rate of an empty pool is level with every rate, seen from either side. -/
theorem Accepted.compare_empty (ha : a.Accepted) (hb : b.Accepted) (h : b.isEmpty = true) :
    a.compare b = .ok .eq ∧ b.compare a = .ok .eq := by
  have hshares : b.shares = 0 := isEmpty_eq_true_iff.1 h
  have hvalue : b.poolValue = 0 := hb.poolValue_eq_zero hshares
  rw [ha.compare_eq hb, hb.compare_eq ha, hshares, hvalue, Nat.mul_zero, Nat.zero_mul,
    cmp_self_eq_eq]
  exact ⟨rfl, rfl⟩

theorem Accepted.links_iff (hb : b.Accepted) : b.Links ↔ b.isEmpty = false := by
  constructor
  · intro hlinks
    by_contra hempty
    rw [Bool.not_eq_false] at hempty
    -- Rates of one and of two are both level with a rate that has no shares.
    have hone : (⟨1, 1⟩ : Rate).Accepted := ⟨1, 1, rfl⟩
    have htwo : (⟨2, 1⟩ : Rate).Accepted := ⟨2, 1, rfl⟩
    have hchain := hlinks _ _ htwo hone (.inr (htwo.compare_empty hb hempty).1)
      (.inr (hone.compare_empty hb hempty).2)
    rw [htwo.notAbove_iff hone] at hchain
    exact absurd hchain (by decide)
  · intro hshares a c ha hc hab hbc
    rw [ha.notAbove_iff hb] at hab
    rw [hb.notAbove_iff hc] at hbc
    rw [ha.notAbove_iff hc]
    exact hab.trans hbc (Nat.pos_of_ne_zero (isEmpty_eq_false_iff.1 hshares))

theorem Accepted.exists_price_iff (ha : a.Accepted) :
    (∃ price, a.price = .ok price) ↔ a.isEmpty = false := by
  simp only [ha.price_eq_ok_iff, isEmpty_eq_false_iff, exists_and_left, exists_eq, and_true]

theorem Accepted.price_le (ha : a.Accepted) (hb : b.Accepted) {p q : Nat} (hp : a.price = .ok p)
    (hq : b.price = .ok q) (h : a.NotAbove b) : p ≤ q := by
  obtain ⟨-, rfl⟩ := ha.price_eq_ok_iff.1 hp
  obtain ⟨hshares, rfl⟩ := hb.price_eq_ok_iff.1 hq
  rw [Nat.mul_comm a.poolValue, Nat.mul_comm b.poolValue]
  exact value_le_of_atMost ((ha.notAbove_iff hb).1 h) hshares priceBase

/-- Comparing two rates always answers, and the other way round it answers the reverse.  A chain of
comparisons may go through a rate exactly if that has shares: without them it is level with all
others.  Rates with shares compare as their exact quotients, and where prices are there, which is
where shares are, they are in the order of the rates. -/
theorem compare_orders_prices (ha : a.Accepted) (hb : b.Accepted) :
    (∃ o, a.compare b = .ok o ∧ b.compare a = .ok o.swap) ∧
    (b.Links ↔ b.isEmpty = false) ∧
    (b.isEmpty = true → a.compare b = .ok .eq) ∧
    (a.isEmpty = false → b.isEmpty = false →
      a.compare b = .ok (cmp a.quotient b.quotient)) ∧
    ((∃ price, a.price = .ok price) ↔ a.isEmpty = false) ∧
    ∀ p q, a.price = .ok p → b.price = .ok q →
      (a.compare b = .ok .lt → p ≤ q) ∧ (a.compare b = .ok .eq → p = q) := by
  refine ⟨ha.compare_swap hb, hb.links_iff, fun h => (ha.compare_empty hb h).1, ?_,
    ha.exists_price_iff, ?_⟩
  · intro hashares hbshares
    rw [ha.compare_eq hb,
      cmp_quotient (isEmpty_eq_false_iff.1 hashares) (isEmpty_eq_false_iff.1 hbshares)]
  · intro p q hp hq
    refine ⟨fun hless => ha.price_le hb hp hq (.inl hless), fun hlevel => ?_⟩
    obtain ⟨o, ho, hswap⟩ := ha.compare_swap hb
    rw [hlevel] at ho
    cases ho
    exact Nat.le_antisymm (ha.price_le hb hp hq (.inr hlevel)) (hb.price_le ha hq hp (.inr hswap))

def third : Rate := ⟨1, 3⟩

/-- A third, rounded down to the scale of prices. -/
def belowThird : Rate := ⟨333333333333333333333333333, priceBase⟩

/-- A rate is below another although they have one integer price. -/
theorem compare_orders_prices_third :
    belowThird.Accepted ∧ third.Accepted ∧ belowThird.compare third = .ok .lt ∧
      third.compare belowThird = .ok .gt ∧ third.Links ∧
      cmp belowThird.quotient third.quotient = .lt ∧
      ∃ p q, belowThird.price = .ok p ∧ third.price = .ok q ∧ p ≤ q := by
  have hbelow : belowThird.Accepted :=
    ⟨333333333333333333333333333, 1000000000000000000000000000, rfl⟩
  have hthird : third.Accepted := ⟨1, 3, rfl⟩
  have hless : belowThird.compare third = .ok .lt := rfl
  obtain ⟨⟨o, ho, hswap⟩, hlinks, -, hexact, hpriced, hprices⟩ :=
    compare_orders_prices hbelow hthird
  have hquotients := hexact rfl rfl
  rw [hless] at ho hquotients
  cases ho
  obtain ⟨p, hp⟩ := hpriced.2 rfl
  obtain ⟨q, hq⟩ := hthird.exists_price_iff.2 rfl
  exact ⟨hbelow, hthird, hless, hswap, hlinks.2 rfl, (Except.ok.inj hquotients).symm, p, q, hp, hq,
    (hprices p q hp hq).1 hless⟩

/-- A rate of two is level with that of an empty pool, and this with a rate of one. -/
theorem level_through_empty :
    ofAmounts 2 1 = .ok ⟨2, 1⟩ ∧ ofAmounts 0 0 = .ok ⟨0, 0⟩ ∧ ofAmounts 1 1 = .ok ⟨1, 1⟩ ∧
      compare ⟨2, 1⟩ ⟨0, 0⟩ = .ok .eq ∧ compare ⟨0, 0⟩ ⟨1, 1⟩ = .ok .eq ∧
      compare ⟨2, 1⟩ ⟨1, 1⟩ = .ok .gt :=
  ⟨rfl, rfl, rfl, rfl, rfl, rfl⟩

end Rate

end LiquidStaking

/-
Which rates there are, what they are priced at, and how they are ordered.

A rate is the pair it comes from, so the order of exact rates is one of cross products.  A chain in
that order may go through every rate that has shares, and what shares are worth follows it.
-/
import LiquidStaking.Proofs.Arithmetic
import LiquidStaking.Rate

namespace LiquidStaking

namespace Rate

variable {a b c r : Rate}

theorem make_eq_ok_iff {poolValue shares : Nat} :
    make poolValue shares = .ok r ↔
      ¬ (shares = 0 ∧ 0 < poolValue) ∧ r = ⟨poolValue, shares⟩ := by
  unfold make
  split
  · next h => simp [h]
  · next h => simp [h, eq_comm]

theorem ofAmounts_eq_ok {poolValue shares : Amount} (h : shares.val ≠ 0) :
    ofAmounts poolValue shares = .ok ⟨poolValue.val, shares.val⟩ :=
  make_eq_ok_iff.2 ⟨fun hempty => h hempty.1, rfl⟩

theorem ofAmounts_fails {P : Fault → Prop} (h : ∀ value, P (.zeroShares value))
    (poolValue shares : Amount) : FailsOnly P (ofAmounts poolValue shares) := by
  unfold ofAmounts make
  split
  · exact .error (h _)
  · exact .ok _

theorem isEmpty_eq_true_iff : r.isEmpty = true ↔ r.shares = 0 := beq_iff_eq

theorem isEmpty_eq_false_iff : r.isEmpty = false ↔ r.shares ≠ 0 := beq_eq_false_iff_ne

/-- Whether a rate is the one of some amounts. -/
def Accepted (r : Rate) : Prop := ∃ poolValue shares, ofAmounts poolValue shares = .ok r

theorem Accepted.poolValue_eq_zero (hr : r.Accepted) (h : r.shares = 0) : r.poolValue = 0 := by
  obtain ⟨poolValue, shares, hmake⟩ := hr
  obtain ⟨howned, rfl⟩ := make_eq_ok_iff.1 hmake
  exact Nat.eq_zero_of_not_pos (fun hpos => howned ⟨h, hpos⟩)

/-- No price of accepted amounts is too wide: there is one wherever there are shares. -/
theorem Accepted.price_eq_ok_iff (hr : r.Accepted) {n : Nat} :
    r.price = .ok n ↔ r.shares ≠ 0 ∧ n = r.poolValue * priceBase / r.shares := by
  obtain ⟨poolValue, shares, h⟩ := hr
  obtain ⟨-, rfl⟩ := make_eq_ok_iff.1 h
  have hwide : poolValue.val * priceBase < productLimit :=
    Nat.lt_of_lt_of_le (Nat.mul_lt_mul_of_pos_right poolValue.isLt (by decide)) (by decide)
  rw [price, mulDiv_down_eq_ok_iff]
  exact ⟨fun ⟨hs, _, hn⟩ => ⟨hs, hn⟩, fun ⟨hs, hn⟩ => ⟨hs, hwide, hn⟩⟩

/-- The order of exact rates, by cross multiplication. -/
def AtMost (a b : Rate) : Prop := a.poolValue * b.shares ≤ b.poolValue * a.shares

instance (a b : Rate) : Decidable (a.AtMost b) := inferInstanceAs (Decidable (_ ≤ _))

theorem AtMost.refl (a : Rate) : a.AtMost a := Nat.le_refl _

theorem AtMost.trans (hab : a.AtMost b) (hbc : b.AtMost c) (hb : 0 < b.shares) : a.AtMost c := by
  refine Nat.le_of_mul_le_mul_right ?_ hb
  calc a.poolValue * c.shares * b.shares
    _ = a.poolValue * b.shares * c.shares := Nat.mul_right_comm ..
    _ ≤ b.poolValue * a.shares * c.shares := Nat.mul_le_mul_right _ hab
    _ = b.poolValue * c.shares * a.shares := Nat.mul_right_comm ..
    _ ≤ c.poolValue * b.shares * a.shares := Nat.mul_le_mul_right _ hbc
    _ = c.poolValue * a.shares * b.shares := Nat.mul_right_comm ..

theorem AtMost.buys {ether shares : Nat} (hab : a.AtMost b) (hb : 0 < b.poolValue)
    (h : shares * b.poolValue ≤ ether * b.shares) : shares * a.poolValue ≤ ether * a.shares := by
  refine Nat.le_of_mul_le_mul_right ?_ hb
  calc shares * a.poolValue * b.poolValue
    _ = shares * b.poolValue * a.poolValue := Nat.mul_right_comm ..
    _ ≤ ether * b.shares * a.poolValue := Nat.mul_le_mul_right _ h
    _ = ether * (a.poolValue * b.shares) := by rw [Nat.mul_assoc, Nat.mul_comm b.shares]
    _ ≤ ether * (b.poolValue * a.shares) := Nat.mul_le_mul_left _ hab
    _ = ether * a.shares * b.poolValue := by rw [Nat.mul_assoc, Nat.mul_comm b.poolValue]

theorem value_le_of_atMost (h : a.AtMost b) (hb : b.shares ≠ 0) (n : Nat) :
    n * a.poolValue / a.shares ≤ n * b.poolValue / b.shares := by
  rcases Nat.eq_zero_or_pos a.shares with ha | ha
  · rw [ha, Nat.div_zero]
    exact Nat.zero_le _
  · rw [Nat.le_div_iff_mul_le (Nat.pos_of_ne_zero hb)]
    refine Nat.le_of_mul_le_mul_right ?_ ha
    calc n * a.poolValue / a.shares * b.shares * a.shares
      _ = n * a.poolValue / a.shares * a.shares * b.shares := Nat.mul_right_comm ..
      _ ≤ n * a.poolValue * b.shares := Nat.mul_le_mul_right _ (Nat.div_mul_le_self ..)
      _ = n * (a.poolValue * b.shares) := Nat.mul_assoc ..
      _ ≤ n * (b.poolValue * a.shares) := Nat.mul_le_mul_left _ h
      _ = n * b.poolValue * a.shares := (Nat.mul_assoc ..).symm

end Rate

end LiquidStaking

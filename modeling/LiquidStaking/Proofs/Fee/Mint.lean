/-
What a mint of fees comes to.

Its shares are worth the fee at the rate after it, and every one of them goes to someone: what the
operators get and what is left for the treasury add up to the mint.
-/
import LiquidStaking.Fee.Mint
import LiquidStaking.Proofs.Arithmetic

namespace LiquidStaking

theorem FeeSplit.totalFee_lt {ms : List StakingModule} {split : FeeSplit}
    (h : FeeSplit.ofModules ms = .ok split) : split.totalFee.val < split.precision.val := by
  unfold FeeSplit.ofModules at h
  obtain ⟨added, -, h⟩ := bind_eq_ok.1 h
  split at h
  · cases h
  · next hlt =>
    cases pure_eq_ok.1 h
    exact Nat.not_le.1 hlt

namespace FeeMint

/-- A mint that pays `fee` out of a value of `scaled` that `shares` own, in the same units. -/
structure Pays (mint : FeeMint) (fee scaled shares : Nat) : Prop where
  due : 0 < fee
  lt : fee < scaled
  total : mint.totalShares.val = fee * shares / (scaled - fee)

def moduleTotal (parts : List ModuleMint) : Nat := Bounded.total (parts.map (·.shares))

theorem addShare_moduleTotal {total totalFee : Amount} {acc acc' : Amount × List ModuleMint}
    {entry : (ModuleId × Address) × Amount} (h : addShare total totalFee acc entry = .ok acc')
    (hacc : acc.1.val = moduleTotal acc.2) : acc'.1.val = moduleTotal acc'.2 := by
  simp only [addShare, bind_eq_ok, Bounded.add_eq_ok_iff] at h
  obtain ⟨part, -, paid, hpaid, h⟩ := h
  cases pure_eq_ok.1 h
  have hlast : moduleTotal (acc.2 ++ [part]) = moduleTotal acc.2 + part.shares.val := by
    unfold moduleTotal
    rw [List.map_append, Bounded.total_append]
    rfl
  rw [hlast, ← hacc, hpaid]

theorem compute_total {rewards : Amount} {split : FeeSplit} {poolValue shares : Amount}
    {mint : FeeMint} (h : compute rewards split poolValue shares = .ok mint) :
    moduleTotal mint.moduleShares + mint.treasuryShares.val = mint.totalShares.val := by
  unfold compute at h
  split at h
  · cases h
    rfl
  · obtain ⟨total, -, h⟩ := bind_eq_ok.1 h
    obtain ⟨⟨paid, parts⟩, hfold, h⟩ := bind_eq_ok.1 h
    obtain ⟨treasury, hsub, h⟩ := bind_eq_ok.1 h
    cases pure_eq_ok.1 h
    have hpaid : paid.val = moduleTotal parts :=
      foldlM_preserves (P := fun acc => acc.1.val = moduleTotal acc.2) _
        (fun _ _ _ _ hacc hstep => addShare_moduleTotal hstep hacc) rfl hfold
    have hsub := Bounded.sub_eq_ok_iff.1 hsub
    show moduleTotal parts + treasury.val = total.val
    omega

theorem shareCount_eq_ok {rewards totalFee precision poolValue shares : Nat} {total : Amount}
    (h : shareCount rewards totalFee precision poolValue shares = .ok total) :
    rewards * totalFee < poolValue * precision ∧
      total.val = rewards * totalFee * shares / (poolValue * precision - rewards * totalFee) := by
  unfold shareCount at h
  simp only at h
  split at h
  · cases h
  · split at h
    · cases h
    · split at h
      · cases h
      · obtain ⟨hne, -, htotal⟩ := mulDivAmount_down_eq_ok_iff.1 h
        exact ⟨Nat.lt_of_sub_ne_zero hne, htotal⟩

/-- A mint with shares pays the fee part of the rewards. -/
theorem pays_of_compute {rewards : Amount} {split : FeeSplit} {poolValue shares : Amount}
    {mint : FeeMint} (h : compute rewards split poolValue shares = .ok mint)
    (hmint : 0 < mint.totalShares.val) :
    mint.Pays (rewards.val * split.totalFee.val) (poolValue.val * split.precision.val)
      shares.val := by
  unfold compute at h
  split at h
  · cases h
    cases hmint
  · next hdue =>
    obtain ⟨total, htotal, h⟩ := bind_eq_ok.1 h
    obtain ⟨⟨paid, parts⟩, -, h⟩ := bind_eq_ok.1 h
    obtain ⟨treasury, -, h⟩ := bind_eq_ok.1 h
    cases pure_eq_ok.1 h
    obtain ⟨hlt, htotal⟩ := shareCount_eq_ok htotal
    obtain ⟨hrewards, hfee⟩ := not_or.1 hdue
    exact ⟨Nat.mul_pos (Nat.pos_of_ne_zero hrewards) (Nat.pos_of_ne_zero hfee), hlt, htotal⟩

end FeeMint
end LiquidStaking

/-
What a mint of fees is worth.

The shares of a mint dilute all others and themselves, and their number solves the equation between
what they are worth after that and the fee.  It is rounded down, so a mint is worth the fee or less,
by less than what one share was worth before.  Each operator gets the floor of its part of the mint,
and the treasury what is left.
-/
import LiquidStaking.Proofs.Fee.Distribution
import LiquidStaking.Proofs.Fee.Mint
import Mathlib.Data.Rat.Cast.Order
import Mathlib.Tactic.FieldSimp
import Mathlib.Tactic.Linarith
import Mathlib.Tactic.LinearCombination
import Mathlib.Tactic.Positivity
import Mathlib.Tactic.Ring

namespace LiquidStaking

namespace FeeSplit

variable {keys : Nat} {ms : List StakingModule} {s : FeeSplit}

theorem lists_of_ofModules (h : ofModules ms = .ok s) :
    Lists (keysOf (working ms)) (working ms) s := by
  obtain ⟨split, hsplit, h⟩ := bind_eq_ok.1 h
  split at h
  · cases h
  · cases pure_eq_ok.1 h
    exact Lists.of_foldlM_addModule (working ms) (.empty _) hsplit

/-- The modules of a split with the addresses and the fees of their operators. -/
def entries (s : FeeSplit) : List ((ModuleId × Address) × Amount) :=
  (s.moduleIds.zip s.recipients).zip s.moduleFees

theorem Lists.entries_eq (h : Lists keys ms s) :
    s.entries.map (Prod.map id (·.val)) = ms.map (fun m => ((m.id, m.address), paid keys m)) := by
  rw [entries, ← List.zip_map_right, h.moduleFees, h.moduleIds, h.recipients, List.zip_map',
    List.zip_map']

theorem Lists.total_entries_le (h : Lists keys ms s) :
    Bounded.total (s.entries.map (·.2)) ≤ s.totalFee.val := by
  have hfees : (s.entries.map (·.2)).map (·.val) = ms.map (paid keys) := by
    have hsnd := congrArg (List.map Prod.snd) h.entries_eq
    rw [List.map_map, List.map_map] at hsnd
    rw [List.map_map]
    exact hsnd
  rw [Bounded.total_eq_sum, hfees, h.totalFee]
  exact sum_paid_le keys ms

end FeeSplit

namespace FeeMint

/-- What the operator of a module gets out of a mint. -/
def operatorPart (m : ModuleMint) : (ModuleId × Address) × Nat :=
  ((m.moduleId, m.recipient), m.shares.val)

/-- The part of a mint of `total` shares that a fee stands for. -/
def partOf (total totalFee fee : Amount) : Nat := total.val * fee.val / totalFee.val

variable {total totalFee : Amount}

theorem exists_addShare (hfee : totalFee.val ≠ 0) {acc : Amount × List ModuleMint}
    {e : (ModuleId × Address) × Amount} (hle : acc.1.val + partOf total totalFee e.2 ≤ total.val) :
    ∃ acc', addShare total totalFee acc e = .ok acc' ∧
      acc'.1.val = acc.1.val + partOf total totalFee e.2 ∧
      acc'.2.map operatorPart =
        acc.2.map operatorPart ++ [Prod.map id (partOf total totalFee) e] := by
  have hfits := Nat.lt_of_le_of_lt hle total.isLt
  obtain ⟨part, hpart⟩ := Bounded.exists_val (Nat.lt_of_le_of_lt (Nat.le_add_left _ _) hfits)
  obtain ⟨paid, hpaid⟩ := Bounded.exists_val hfits
  have hshare : mulDivAmount total.val e.2.val totalFee.val .down = .ok part :=
    mulDivAmount_down_eq_ok_iff.2 ⟨hfee, Amount.mul_lt_productLimit _ _, hpart⟩
  have hadd : acc.1.add part = .ok paid := Bounded.add_eq_ok_iff.2 (by rw [hpart, hpaid])
  refine ⟨(paid, acc.2 ++ [⟨e.1.1, e.1.2, part⟩]), ?_, hpaid, ?_⟩
  · simp only [addShare, share, hshare, ok_bind]
    show (acc.1.add part >>= _) = _
    rw [hadd]
    rfl
  · rw [List.map_append, List.map_singleton, operatorPart, hpart]
    rfl

theorem exists_addShares (hfee : totalFee.val ≠ 0) :
    ∀ (entries : List ((ModuleId × Address) × Amount)) (acc : Amount × List ModuleMint),
      acc.1.val * totalFee.val + total.val * Bounded.total (entries.map (·.2)) ≤
          total.val * totalFee.val →
        ∃ acc', entries.foldlM (addShare total totalFee) acc = .ok acc' ∧
          acc'.1.val ≤ total.val ∧ acc'.2.map operatorPart =
            acc.2.map operatorPart ++ entries.map (Prod.map id (partOf total totalFee))
  | [], acc, hroom => by
    refine ⟨acc, rfl, Nat.le_of_mul_le_mul_right ?_ (Nat.pos_of_ne_zero hfee), ?_⟩
    · exact Nat.le_trans (Nat.le_add_right _ _) hroom
    · rw [List.map_nil, List.append_nil]
  | e :: entries, acc, hroom => by
    rw [List.map_cons, Bounded.total_cons, Nat.mul_add] at hroom
    have hpart : partOf total totalFee e.2 * totalFee.val ≤ total.val * e.2.val :=
      Nat.div_mul_le_self _ _
    have hsum : (acc.1.val + partOf total totalFee e.2) * totalFee.val +
        total.val * Bounded.total (entries.map (·.2)) ≤ total.val * totalFee.val := by
      rw [Nat.add_mul]
      omega
    have hle : acc.1.val + partOf total totalFee e.2 ≤ total.val :=
      Nat.le_of_mul_le_mul_right (Nat.le_trans (Nat.le_add_right _ _) hsum)
        (Nat.pos_of_ne_zero hfee)
    obtain ⟨next, hnext, hpaid, hlast⟩ := exists_addShare hfee hle
    obtain ⟨acc', hrest, hwithin, hparts⟩ := exists_addShares hfee entries next
      (by rw [hpaid]; exact hsum)
    refine ⟨acc', ?_, hwithin, ?_⟩
    · rw [List.foldlM_cons, hnext, ok_bind, hrest]
    · rw [hparts, hlast, List.append_assoc]
      rfl

variable {keys : Nat} {ms : List StakingModule} {split : FeeSplit}
  {rewards poolValue shares : Amount}

/-- Whether the parts of a mint are those of a split. -/
def SplitBy (mint : FeeMint) (split : FeeSplit) : Prop :=
  mint.moduleShares.map operatorPart =
    split.entries.map (Prod.map id (partOf mint.totalShares split.totalFee))

/-- A mint that is due fails only where its number of shares does: the parts of it are always
within it. -/
theorem compute_cases (hsplit : FeeSplit.Lists keys ms split) (hrewards : 0 < rewards.val)
    (hfee : 0 < split.totalFee.val) (poolValue shares : Amount) :
    (∃ cause, compute rewards split poolValue shares = .error cause ∧
      shareCount rewards.val split.totalFee.val split.precision.val poolValue.val shares.val =
        .error cause) ∨
    ∃ mint, compute rewards split poolValue shares = .ok mint ∧ mint.SplitBy split ∧
      shareCount rewards.val split.totalFee.val split.precision.val poolValue.val shares.val =
        .ok mint.totalShares := by
  have hdue : ¬ (rewards.val = 0 ∨ split.totalFee.val = 0) := by omega
  unfold compute
  rw [if_neg hdue]
  cases hcount : shareCount rewards.val split.totalFee.val split.precision.val poolValue.val
    shares.val with
  | error cause => exact .inl ⟨cause, rfl, rfl⟩
  | ok total =>
    have hroom : 0 * split.totalFee.val + total.val * Bounded.total (split.entries.map (·.2)) ≤
        total.val * split.totalFee.val := by
      rw [Nat.zero_mul, Nat.zero_add]
      exact Nat.mul_le_mul_left _ hsplit.total_entries_le
    obtain ⟨⟨paid, parts⟩, hfold, hpaid, hparts⟩ :=
      exists_addShares (Nat.ne_of_gt hfee) split.entries (Bounded.zero, []) hroom
    obtain ⟨treasury, htreasury⟩ := Bounded.exists_val
      (Nat.lt_of_le_of_lt (Nat.sub_le total.val paid.val) total.isLt)
    have hsub : total.sub paid = .ok treasury := Bounded.sub_eq_ok_iff.2 (by
      simp only at hpaid
      omega)
    refine .inr ⟨⟨total, parts, treasury⟩, ?_, hparts, rfl⟩
    rw [ok_bind]
    show (split.entries.foldlM (addShare total split.totalFee) (Bounded.zero, []) >>= _) = _
    rw [hfold, ok_bind]
    show (total.sub paid >>= _) = _
    rw [hsub]
    rfl

/- Over the rationals. -/

/-- What new shares are worth to those who get them, `shares` being there before. -/
def worth (value shares mint : Nat) : ℚ := mint * value / (shares + mint)

theorem kept_eq {shares : Nat} (hshares : 0 < shares) (value mint : Nat) :
    (shares * value / (shares + mint) : ℚ) = value - worth value shares mint := by
  have hpositive : (0 : ℚ) < shares + mint := by exact_mod_cast Nat.add_pos_left hshares mint
  unfold worth
  field_simp
  ring

theorem worth_of_mint {fee precision value shares mint : Nat} (hprecision : 0 < precision)
    (hshares : 0 < shares) (hfee : fee < value * precision)
    (hmint : mint = fee * shares / (value * precision - fee)) :
    0 ≤ (fee : ℚ) / precision - worth value shares mint ∧
      (fee : ℚ) / precision - worth value shares mint < value / shares := by
  obtain ⟨divisor, hdivisor⟩ : ∃ divisor, divisor + fee = value * precision :=
    ⟨_, Nat.sub_add_cancel (Nat.le_of_lt hfee)⟩
  have hquotient : value * precision - fee = divisor := by omega
  rw [hquotient] at hmint
  have hvalue : 0 < value := Nat.pos_of_mul_pos_right (Nat.zero_lt_of_lt hfee)
  obtain ⟨rest, hrest⟩ : ∃ rest, rest = fee * shares % divisor := ⟨_, rfl⟩
  have hsolved : divisor * mint + rest = fee * shares := by
    rw [hmint, hrest]
    exact Nat.div_add_mod _ _
  have hlt : rest < value * precision := by
    have hmod : rest < divisor := hrest ▸ Nat.mod_lt _ (by omega)
    omega
  have hp : (0 : ℚ) < precision := by exact_mod_cast hprecision
  have hs : (0 : ℚ) < shares := by exact_mod_cast hshares
  have hv : (0 : ℚ) < value := by exact_mod_cast hvalue
  have hm : (0 : ℚ) ≤ mint := Nat.cast_nonneg _
  have hdivisor : (divisor : ℚ) + fee = value * precision := by exact_mod_cast hdivisor
  have hsolved : (divisor : ℚ) * mint + rest = fee * shares := by exact_mod_cast hsolved
  -- What the mint falls short of its fee is what the division left over.
  have hshort : (fee : ℚ) / precision - worth value shares mint =
      rest / (precision * (shares + mint)) := by
    have hpositive : (0 : ℚ) < shares + mint := by positivity
    unfold worth
    field_simp
    linear_combination mint * hdivisor - hsolved
  rw [hshort]
  refine ⟨by positivity, ?_⟩
  calc (rest : ℚ) / (precision * (shares + mint))
    _ < value * precision / (precision * (shares + mint)) := by
      gcongr
      exact_mod_cast hlt
    _ = value / (shares + mint) := by field_simp
    _ ≤ value / shares := by
      gcongr
      linarith

/-- The part of some rewards that a split takes as fees. -/
def feePart (rewards : Amount) (split : FeeSplit) : ℚ :=
  rewards.val * split.totalFee.val / split.precision.val

/-- A mint under a split is given out in full, to each operator the floor of its part in the order
of the split.  It is worth the fee or less, by less than what a share was worth before it, so that
the fee is all that the other shares lose. -/
theorem mint_worth_fee {mint : FeeMint} (hsplit : FeeSplit.ofModules ms = .ok split)
    (hrewards : 0 < rewards.val) (hfee : 0 < split.totalFee.val) (hshares : 0 < shares.val)
    (h : compute rewards split poolValue shares = .ok mint) :
    moduleTotal mint.moduleShares + mint.treasuryShares.val = mint.totalShares.val ∧
    FeeSplit.Lists (FeeSplit.keysOf (FeeSplit.working ms)) (FeeSplit.working ms) split ∧
    mint.moduleShares.map operatorPart = (FeeSplit.working ms).map (fun m =>
      ((m.id, m.address), mint.totalShares.val *
        FeeSplit.paid (FeeSplit.keysOf (FeeSplit.working ms)) m / split.totalFee.val)) ∧
    0 ≤ feePart rewards split - worth poolValue.val shares.val mint.totalShares.val ∧
    feePart rewards split - worth poolValue.val shares.val mint.totalShares.val <
      poolValue.val / shares.val ∧
    poolValue.val - feePart rewards split ≤
      shares.val * poolValue.val / (shares.val + mint.totalShares.val) := by
  have hlists := FeeSplit.lists_of_ofModules hsplit
  obtain ⟨hparts, hcount⟩ : mint.SplitBy split ∧ shareCount rewards.val split.totalFee.val
      split.precision.val poolValue.val shares.val = .ok mint.totalShares := by
    rcases compute_cases hlists hrewards hfee poolValue shares with
      ⟨cause, hfailed, -⟩ | ⟨mint', hmint, hparts, hcount⟩
    · rw [h] at hfailed
      cases hfailed
    · rw [h] at hmint
      cases hmint
      exact ⟨hparts, hcount⟩
  obtain ⟨hlt, htotal⟩ := shareCount_eq_ok hcount
  have hprecision : 0 < split.precision.val := hlists.precision ▸ (by decide)
  have hpart : feePart rewards split =
      ((rewards.val * split.totalFee.val : Nat) : ℚ) / split.precision.val := by
    rw [feePart]
    push_cast
    rfl
  obtain ⟨hleast, hmost⟩ := worth_of_mint hprecision hshares hlt htotal
  rw [← hpart] at hleast hmost
  refine ⟨compute_total h, hlists, ?_, hleast, hmost, ?_⟩
  · have hfees := congrArg (List.map (Prod.map id (fun fee : Nat =>
      mint.totalShares.val * fee / split.totalFee.val))) hlists.entries_eq
    rw [List.map_map, List.map_map] at hfees
    exact hparts.trans hfees
  · rw [kept_eq hshares]
    linarith

/-- Two modules at five percent for operator and treasury each, the second of them stopped, and an
idle one. -/
def stoppedModules : List StakingModule :=
  [FeeSplit.fivePercent 1 500 3, { FeeSplit.fivePercent 2 500 1 with status := .stopped },
    FeeSplit.fivePercent 3 500 Bounded.zero]

/-- Rewards of 100 wei in a pool of 1100 wei over 1000 shares: ten of them pay for 9 shares, where
the exact number is 9 and a part, and the operator at work gets three of them. -/
theorem mint_worth_fee_stopped :
    ∃ split mint, FeeSplit.ofModules stoppedModules = .ok split ∧
      compute 100 split 1100 1000 = .ok mint ∧ mint.totalShares.val = 9 ∧
      mint.moduleShares.map operatorPart = [((1, .zero), 3), ((2, .zero), 0)] ∧
      mint.treasuryShares.val = 6 ∧
      0 ≤ feePart 100 split - worth 1100 1000 9 ∧
      feePart 100 split - worth 1100 1000 9 < 1100 / 1000 := by
  obtain ⟨split, hsplit, hcheck⟩ := exists_ok_of_any (FeeSplit.ofModules stoppedModules)
    (fun split => decide (0 < split.totalFee.val) &&
      (compute 100 split 1100 1000).toOption.any (fun mint : FeeMint =>
        decide (mint.totalShares.val = 9 ∧
          mint.moduleShares.map operatorPart = [((1, .zero), 3), ((2, .zero), 0)] ∧
          mint.treasuryShares.val = 6))) (by decide +kernel)
  simp only [Bool.and_eq_true, decide_eq_true_eq] at hcheck
  obtain ⟨hfee, hcheck⟩ := hcheck
  obtain ⟨mint, hmint, hcheck⟩ := exists_ok_of_any _ _ hcheck
  obtain ⟨htotal, hparts, htreasury⟩ := of_decide_eq_true hcheck
  obtain ⟨-, -, -, hleast, hmost, -⟩ := mint_worth_fee hsplit (by decide) hfee (by decide) hmint
  have hvalue : (1100 : Amount).val = 1100 := rfl
  have hshares : (1000 : Amount).val = 1000 := rfl
  rw [hvalue, hshares, htotal] at hleast hmost
  exact ⟨split, mint, hsplit, hmint, htotal, hparts, htreasury, hleast, by exact_mod_cast hmost⟩

end FeeMint

end LiquidStaking

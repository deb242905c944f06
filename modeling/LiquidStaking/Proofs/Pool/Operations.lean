/-
What the operations of a pool change when they succeed.

One lemma for each operation that users and operators call, with the numbers read as natural
numbers.  Reports have a module of their own.
-/
import LiquidStaking.Pool.Basic
import LiquidStaking.Proofs.Rate

namespace LiquidStaking

theorem PoolPolicy.validate_eq_ok_iff {s : PoolPolicy} :
    s.validate = .ok () ↔
      ¬ (s.maxRebase.val = 0 ∨ rebaseBase < s.maxRebase.val) ∧
        s.minWithdrawal.val < s.maxWithdrawal.val ∧ s.depositSize.val ≠ 0 ∧
        s.maxModules.val ≠ 0 := by
  unfold validate
  by_cases hrebase : s.maxRebase.val = 0 ∨ rebaseBase < s.maxRebase.val
  · simp [hrebase]
  · rw [if_neg hrebase]
    by_cases hlimits : s.maxWithdrawal.val ≤ s.minWithdrawal.val
    · simp [if_pos hlimits, Nat.not_lt.2 hlimits]
    · rw [if_neg hlimits]
      by_cases hsize : s.depositSize.val = 0
      · simp [hsize]
      · rw [if_neg hsize]
        by_cases hmodules : s.maxModules.val = 0
        · simp [hmodules]
        · simp only [if_neg hmodules, true_iff]
          exact ⟨hrebase, Nat.not_le.1 hlimits, hsize, hmodules⟩

namespace Pool

variable {p p' : Pool}

def initial (policy : PoolPolicy) : Pool where
  policy := policy
  totals := .zero
  balances := .empty
  queue := .create policy.withdrawalLimits
  registry := .holding policy.maxModules []
  lastReport := none

theorem create_eq_ok {policy : PoolPolicy} (h : create policy = .ok p) : p = initial policy := by
  simp only [create, bind_eq_ok, Registry.create] at h
  obtain ⟨_, _, registry, hregistry, h⟩ := h
  split at hregistry
  · cases hregistry
  · cases hregistry
    exact (pure_eq_ok.1 h).symm

theorem submit_eq_ok {sender : Address} {amount shares : Amount}
    (h : p.submit sender amount = .ok (shares, p')) :
    p.sharesForDeposit amount = .ok shares ∧ shares.val ≠ 0 ∧
    ∃ bufferedEther totalShares balance : Amount,
      bufferedEther.val = p.totals.bufferedEther.val + amount.val ∧
      totalShares.val = p.totals.totalShares.val + shares.val ∧
      balance.val = (p.sharesOf sender).val + shares.val ∧
      p' = { p with
        totals := { p.totals with bufferedEther, totalShares }
        balances := p.balances.insert sender balance } := by
  unfold submit at h
  obtain ⟨bought, hbought, h⟩ := bind_eq_ok.1 h
  split at h
  · cases h
  · next hne =>
    simp only [bind_eq_ok, Bounded.add_eq_ok_iff] at h
    obtain ⟨buffered, hb, total, ht, balance, hbal, h⟩ := h
    cases pure_eq_ok.1 h
    exact ⟨hbought, hne, buffered, total, balance, hb.symm, ht.symm, hbal.symm, rfl⟩

theorem requestWithdrawal_eq_ok {owner : Address} {shares : Amount} {block id : Count}
    (h : p.requestWithdrawal owner shares block = .ok (id, p')) :
    ∃ remaining ether queuedShares : Amount, ∃ queue : WithdrawalQueue,
      (p.sharesOf owner).val = remaining.val + shares.val ∧
      ether.val = shares.val * p.poolValue.val / p.totals.totalShares.val ∧
      queuedShares.val = p.totals.queuedShares.val + shares.val ∧
      p.queue.enqueue owner ether shares block = .ok (id, queue) ∧
      p' = { p with
        totals := { p.totals with queuedShares }
        balances := p.setBalance owner remaining
        queue } := by
  unfold requestWithdrawal at h
  split at h
  · cases h
  · next remaining hsub =>
    simp only [bind_eq_ok, Bounded.add_eq_ok_iff, Rate.valueForShares] at h
    obtain ⟨rate, hrate, value, hvalue, ether, hether, queued, hq, ⟨id', queue⟩, hqueue, h⟩ := h
    cases pure_eq_ok.1 h
    obtain ⟨-, rfl⟩ := Rate.make_eq_ok_iff.1 hrate
    obtain ⟨-, -, hvalue⟩ := mulDiv_down_eq_ok_iff.1 hvalue
    refine ⟨remaining, ether, queued, queue, Bounded.sub_eq_ok_iff.1 hsub, ?_, hq.symm, hqueue,
      rfl⟩
    exact (Bounded.narrow_eq_ok_iff.1 hether).symm.trans hvalue

theorem claim_eq_ok {id : Count} {hint : Option Nat} {escrow escrow' : Escrow}
    {receipt : ClaimReceipt} (h : p.claim id hint escrow = .ok (receipt, p', escrow')) :
    ∃ queue, p.queue.claim id hint escrow = .ok (receipt, queue, escrow') ∧
      p' = { p with queue } := by
  unfold claim at h
  obtain ⟨⟨r, queue, e⟩, hclaim, h⟩ := bind_eq_ok.1 h
  cases pure_eq_ok.1 h
  exact ⟨queue, hclaim, rfl⟩

theorem deposit_eq_ok {limit block : Count} {allocation : DepositAllocation}
    (h : p.deposit limit block = .ok (allocation, p')) :
    ∃ bufferedEther stakedEther moved : Amount, ∃ registry,
      p.totals.bufferedEther.val = bufferedEther.val + moved.val ∧
      stakedEther.val = p.totals.stakedEther.val + moved.val ∧
      moved.val = allocation.allocated * p.policy.depositSize.val ∧
      p' = { p with
        totals := { p.totals with bufferedEther, stakedEther }
        registry } := by
  simp only [deposit, bind_eq_ok, lift_eq_ok] at h
  obtain ⟨reserved, -, count, -, alloc, -, moved, hmoved, registry, -, buffered, hb, staked, hs,
    h⟩ := h
  cases pure_eq_ok.1 h
  exact ⟨buffered, staked, moved, registry, Bounded.sub_eq_ok_iff.1 hb,
    (Bounded.add_eq_ok_iff.1 hs).symm, (Bounded.fit_eq_ok_iff.1 hmoved).symm, rfl⟩

theorem manage_eq_ok {change : Registry.Change} (h : p.manage change = .ok p') :
    ∃ registry, p' = { p with registry } := by
  unfold manage at h
  obtain ⟨registry, -, h⟩ := bind_eq_ok.1 h
  cases pure_eq_ok.1 h
  exact ⟨registry, rfl⟩

end Pool
end LiquidStaking

/-
Snapshots of a pool.

A snapshot holds all there is to a pool.  Restoring one checks the version, the settings, that the
shares add up to the supply, and every module.
-/
import LiquidStaking.Pool.Basic

namespace LiquidStaking

structure PoolSnapshot where
  version : Bounded 16
  policy : PoolPolicy
  totals : PoolTotals
  balances : AddressMap Amount
  queue : WithdrawalQueue
  modules : List StakingModule
  lastReport : Option Count
deriving DecidableEq

namespace Pool

def snapshot (p : Pool) : PoolSnapshot where
  version := ⟨snapshotVersion, by decide⟩
  policy := p.policy
  totals := p.totals
  balances := p.balances
  queue := p.queue
  modules := p.registry.modules
  lastReport := p.lastReport

/-- The shares that accounts, queued requests and the pending burn hold together. -/
def accountedShares (s : PoolSnapshot) : Except Fault Amount := do
  let held ← Bounded.sum s.balances.values
  held.add (← s.totals.queuedShares.add s.totals.pendingBurn)

def ofSnapshot (s : PoolSnapshot) : Except Fault Pool := do
  if s.version.val ≠ snapshotVersion then
    throw (.unsupportedSchema s.version.val)
  else
    s.policy.validate
    if (← accountedShares s) ≠ s.totals.totalShares then
      throw (.invalidSetting "total_shares" (toString s.totals.totalShares.val)
        "sum of balances, queued and pending burn shares")
    else
      return {
        policy := s.policy
        totals := s.totals
        balances := s.balances
        queue := s.queue
        registry := ← Registry.ofModules s.policy.maxModules s.modules
        lastReport := s.lastReport }

end Pool

end LiquidStaking

/-
The stored form of a pool and all that belongs to it.
-/
import LiquidStaking.Access
import LiquidStaking.Pool.Report
import LiquidStaking.Pool.Snapshot
import LiquidStaking.Wire.Basic

namespace LiquidStaking

namespace ModuleStatus

def name : ModuleStatus → String
  | active => "Active"
  | depositsPaused => "DepositsPaused"
  | stopped => "Stopped"

def ofName? (s : String) : Option ModuleStatus :=
  [active, depositsPaused, stopped].find? (fun status => status.name == s)

end ModuleStatus

namespace RequestStatus

def name : RequestStatus → String
  | queued => "Queued"
  | finalized => "Finalized"
  | claimed => "Claimed"

def ofName? (s : String) : Option RequestStatus :=
  [queued, finalized, claimed].find? (fun status => status.name == s)

end RequestStatus

namespace Role

def ofName? (s : String) : Option Role :=
  [admin, oracle, moduleManager, depositor].find? (fun role => role.name == s)

end Role

namespace Wire

open Misread (expect)

instance : Wire ModuleStatus where
  write s := .text s.name
  read v := expect ((Source.name? v).bind ModuleStatus.ofName?)

instance : Wire RequestStatus where
  write s := .text s.name
  read v := expect ((Source.name? v).bind RequestStatus.ofName?)

instance : Wire Role where
  write r := .text r.name
  read v := expect ((Source.name? v).bind Role.ofName?)

instance : Wire StakingModule where
  write m := .record [
    ("id", write m.id),
    ("name", write m.name),
    ("address", write m.address),
    ("target_share_bps", write m.target),
    ("fee_bps", write m.fee),
    ("treasury_fee_bps", write m.treasuryFee),
    ("status", write m.status),
    ("active_keys", write m.activeKeys),
    ("available_keys", write m.availableKeys),
    ("last_deposit_block", write m.lastDepositBlock)]
  read v := do
    let row ← Row.read ["id", "name", "address", "target_share_bps", "fee_bps",
      "treasury_fee_bps", "status", "active_keys", "available_keys", "last_deposit_block"] v
    return {
      id := ← row.required "id" read
      name := ← row.required "name" read
      address := ← row.required "address" read
      target := ← row.required "target_share_bps" read
      fee := ← row.required "fee_bps" read
      treasuryFee := ← row.required "treasury_fee_bps" read
      status := ← row.required "status" read
      activeKeys := ← row.required "active_keys" read
      availableKeys := ← row.required "available_keys" read
      lastDepositBlock := ← row.required "last_deposit_block" read }

instance : Wire KeyUpdate where
  write u := .record [
    ("module_id", write u.moduleId),
    ("active_keys", write u.activeKeys)]
  read v := do
    let row ← Row.read ["module_id", "active_keys"] v
    return {
      moduleId := ← row.required "module_id" read
      activeKeys := ← row.required "active_keys" read }

instance : Wire OracleReport where
  write r := .record [
    ("ref_block", write r.block),
    ("consensus_balance_delta", write r.delta),
    ("execution_rewards", write r.rewards),
    ("finalize_up_to", write r.finalizeUpTo),
    ("module_keys", write r.moduleKeys)]
  read v := do
    let row ← Row.read ["ref_block", "consensus_balance_delta", "execution_rewards",
      "finalize_up_to", "module_keys"] v
    return {
      block := ← row.required "ref_block" read
      delta := ← row.required "consensus_balance_delta" read
      rewards := ← row.required "execution_rewards" read
      finalizeUpTo := ← row.defaulted "finalize_up_to" read none
      moduleKeys := ← row.defaulted "module_keys" read [] }

instance : Wire PoolPolicy where
  write p := .record [
    ("max_positive_rebase", write p.maxRebase),
    ("min_withdrawal", writeDigits p.minWithdrawal),
    ("max_withdrawal", writeDigits p.maxWithdrawal),
    ("deposit_size", writeDigits p.depositSize),
    ("max_modules", write p.maxModules),
    ("treasury", write p.treasury)]
  read v := do
    let row ← Row.read ["max_positive_rebase", "min_withdrawal", "max_withdrawal",
      "deposit_size", "max_modules", "treasury"] v
    let standard := PoolPolicy.standard
    return {
      maxRebase := ← row.defaulted "max_positive_rebase" read standard.maxRebase
      minWithdrawal := ← row.defaulted "min_withdrawal" readDigits standard.minWithdrawal
      maxWithdrawal := ← row.defaulted "max_withdrawal" readDigits standard.maxWithdrawal
      depositSize := ← row.defaulted "deposit_size" readDigits standard.depositSize
      maxModules := ← row.defaulted "max_modules" read standard.maxModules
      treasury := ← row.defaulted "treasury" read standard.treasury }

instance : Wire WithdrawalRequest where
  write r := .record [
    ("id", write r.id),
    ("cumulative_ether", write r.cumulativeEther),
    ("cumulative_shares", write r.cumulativeShares),
    ("recipient", write r.recipient),
    ("created_at_block", write r.createdAt),
    ("claimed", write r.claimed)]
  read v := do
    let row ← Row.read ["id", "cumulative_ether", "cumulative_shares", "recipient",
      "created_at_block", "claimed"] v
    return {
      id := ← row.required "id" read
      cumulativeEther := ← row.required "cumulative_ether" read
      cumulativeShares := ← row.required "cumulative_shares" read
      recipient := ← row.required "recipient" read
      createdAt := ← row.required "created_at_block" read
      claimed := ← row.required "claimed" read }

instance : Wire PriceRun where
  write r := .record [
    ("pool_value", write r.poolValue),
    ("shares", write r.shares),
    ("last_index_covered", write r.last)]
  read v := do
    let row ← Row.read ["pool_value", "shares", "last_index_covered"] v
    return {
      poolValue := ← row.required "pool_value" read
      shares := ← row.required "shares" read
      last := ← row.required "last_index_covered" read }

instance : Wire PriceHistory where
  write h := writeList h.runs
  read v := do return ⟨← readList v⟩

instance : Wire Settlement where
  write s := .record [
    ("ether_to_lock", write s.etherToLock),
    ("shares_to_burn", write s.sharesToBurn)]
  read v := do
    let row ← Row.read ["ether_to_lock", "shares_to_burn"] v
    return {
      etherToLock := ← row.required "ether_to_lock" read
      sharesToBurn := ← row.required "shares_to_burn" read }

instance : Wire WithdrawalLimits where
  write l := .record [
    ("min", write l.min),
    ("max", write l.max)]
  read v := do
    let row ← Row.read ["min", "max"] v
    return {
      min := ← row.required "min" read
      max := ← row.required "max" read }

instance : Wire WithdrawalQueue where
  write q := .record [
    ("requests", write q.requests),
    ("prices", write q.prices),
    ("finalized_count", write q.finalizedCount),
    ("total_locked", write q.totalLocked),
    ("limits", write q.limits)]
  read v := do
    let row ← Row.read ["requests", "prices", "finalized_count", "total_locked", "limits"] v
    return {
      requests := ← row.required "requests" read
      prices := ← row.required "prices" read
      finalizedCount := ← row.required "finalized_count" read
      totalLocked := ← row.required "total_locked" read
      limits := ← row.required "limits" read }

instance : Wire ClaimReceipt where
  write r := .record [
    ("request_id", write r.requestId),
    ("recipient", write r.recipient),
    ("amount", write r.amount)]
  read v := do
    let row ← Row.read ["request_id", "recipient", "amount"] v
    return {
      requestId := ← row.required "request_id" read
      recipient := ← row.required "recipient" read
      amount := ← row.required "amount" read }

instance : Wire Escrow where
  write e := .record [
    ("balance", write e.balance),
    ("paid", write e.paid),
    ("rejecting", writeSet e.rejecting)]
  read v := do
    let row ← Row.read ["balance", "paid", "rejecting"] v
    return {
      balance := ← row.required "balance" read
      paid := ← row.required "paid" read
      rejecting := ← row.defaulted "rejecting" readSet .empty }

/-- A minted part is stored as the list of its three components. -/
instance : Wire ModuleMint where
  write m := .list [write m.moduleId, write m.recipient, write m.shares]
  read v := do
    match ← expect (Source.list? v) with
    | [moduleId, recipient, shares] =>
      return ⟨← read moduleId, ← read recipient, ← read shares⟩
    | _ => throw .malformed

instance : Wire FeeMint where
  write m := .record [
    ("total_shares", write m.totalShares),
    ("module_shares", write m.moduleShares),
    ("treasury_shares", write m.treasuryShares)]
  read v := do
    let row ← Row.read ["total_shares", "module_shares", "treasury_shares"] v
    return {
      totalShares := ← row.required "total_shares" read
      moduleShares := ← row.required "module_shares" read
      treasuryShares := ← row.required "treasury_shares" read }

instance : Wire ReportOutcome where
  write o := .record [
    ("ref_block", write o.block),
    ("consensus_delta", write o.delta),
    ("execution_rewards_applied", write o.rewardsApplied),
    ("execution_rewards_deferred", write o.rewardsDeferred),
    ("finalization", write o.finalization),
    ("shares_burned", write o.sharesBurned),
    ("pending_burn_shares", write o.pendingBurn),
    ("fee_mint", write o.feeMint),
    ("limiter_used", write o.budgetUsed),
    ("limiter_max", write o.budgetLimit),
    ("pool_value", write o.poolValue),
    ("total_shares", write o.totalShares)]
  read v := do
    let row ← Row.read ["ref_block", "consensus_delta", "execution_rewards_applied",
      "execution_rewards_deferred", "finalization", "shares_burned", "pending_burn_shares",
      "fee_mint", "limiter_used", "limiter_max", "pool_value", "total_shares"] v
    return {
      block := ← row.required "ref_block" read
      delta := ← row.required "consensus_delta" read
      rewardsApplied := ← row.required "execution_rewards_applied" read
      rewardsDeferred := ← row.required "execution_rewards_deferred" read
      finalization := ← row.optional "finalization" read
      sharesBurned := ← row.required "shares_burned" read
      pendingBurn := ← row.required "pending_burn_shares" read
      feeMint := ← row.required "fee_mint" read
      budgetUsed := ← row.required "limiter_used" read
      budgetLimit := ← row.required "limiter_max" read
      poolValue := ← row.required "pool_value" read
      totalShares := ← row.required "total_shares" read }

instance : Wire PoolSnapshot where
  write s := .record [
    ("schema_version", write s.version),
    ("config", write s.policy),
    ("buffered_ether", write s.totals.bufferedEther),
    ("staked_ether", write s.totals.stakedEther),
    ("total_shares", write s.totals.totalShares),
    ("queued_shares", write s.totals.queuedShares),
    ("pending_burn_shares", write s.totals.pendingBurn),
    ("balances", write s.balances),
    ("queue", write s.queue),
    ("modules", write s.modules),
    ("last_report_block", write s.lastReport)]
  read v := do
    let row ← Row.read ["schema_version", "config", "buffered_ether", "staked_ether",
      "total_shares", "queued_shares", "pending_burn_shares", "balances", "queue", "modules",
      "last_report_block"] v
    return {
      version := ← row.required "schema_version" read
      policy := ← row.required "config" read
      totals := {
        bufferedEther := ← row.required "buffered_ether" read
        stakedEther := ← row.required "staked_ether" read
        totalShares := ← row.required "total_shares" read
        queuedShares := ← row.required "queued_shares" read
        pendingBurn := ← row.required "pending_burn_shares" read }
      balances := ← row.required "balances" read
      queue := ← row.required "queue" read
      modules := ← row.required "modules" read
      lastReport := ← row.optional "last_report_block" read }

end Wire

end LiquidStaking

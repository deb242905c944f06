/-
The settings of a pool.
-/
import LiquidStaking.Constants
import LiquidStaking.Withdrawal.Request

namespace LiquidStaking

structure PoolPolicy where
  /-- How far a report may raise the rate, in billionths. -/
  maxRebase : Count
  /-- A withdrawal request has to carry more than this. -/
  minWithdrawal : Amount
  maxWithdrawal : Amount
  depositSize : Amount
  maxModules : Count
  treasury : Address
deriving DecidableEq

namespace PoolPolicy

def standard : PoolPolicy where
  maxRebase := ⟨defaultMaxRebase, by decide⟩
  minWithdrawal := ⟨defaultMinWithdrawal, by decide⟩
  maxWithdrawal := ⟨defaultMaxWithdrawal, by decide⟩
  depositSize := ⟨defaultDepositSize, by decide⟩
  maxModules := ⟨defaultMaxModules, by decide⟩
  treasury := .zero

instance : Inhabited PoolPolicy := ⟨standard⟩

def withdrawalLimits (p : PoolPolicy) : WithdrawalLimits := ⟨p.minWithdrawal, p.maxWithdrawal⟩

def validate (p : PoolPolicy) : Except Fault Unit :=
  if p.maxRebase.val = 0 ∨ rebaseBase < p.maxRebase.val then
    .error (.invalidSetting "max_positive_rebase" (toString p.maxRebase.val) "within (0, 1e9]")
  else if p.maxWithdrawal.val ≤ p.minWithdrawal.val then
    .error (.invalidSetting "max_withdrawal" (toString p.maxWithdrawal.val)
      "greater than min_withdrawal")
  else if p.depositSize.val = 0 then
    .error (.invalidSetting "deposit_size" "0" "greater than 0")
  else if p.maxModules.val = 0 then
    .error (.invalidSetting "max_modules" "0" "greater than 0")
  else
    .ok ()

end PoolPolicy

end LiquidStaking

/-
Staking modules.

A module is a place that takes deposits, up to the keys it has, and earns rewards on the keys
that are active.
-/
import LiquidStaking.Address
import LiquidStaking.Constants

namespace LiquidStaking

inductive ModuleStatus
  | active
  | depositsPaused
  /-- No deposits, and its fee goes to the treasury. -/
  | stopped
deriving DecidableEq

structure StakingModule where
  id : ModuleId
  name : String
  address : Address
  /-- The part of all active keys it may hold. -/
  target : BasisPoints
  fee : BasisPoints
  treasuryFee : BasisPoints
  status : ModuleStatus
  activeKeys : Count
  availableKeys : Count
  lastDepositBlock : Count
deriving DecidableEq

namespace StakingModule

def acceptsDeposits (m : StakingModule) : Bool := m.status == .active

def validate (m : StakingModule) : Except Fault Unit :=
  if basisPointsBase < m.target.val then
    .error (.invalidSetting "target_share_bps" (toString m.target.val) "at most 10000 (100%)")
  else if basisPointsBase < m.fee.val + m.treasuryFee.val then
    .error (.invalidSetting "fee_bps + treasury_fee_bps"
      (toString (m.fee.val + m.treasuryFee.val)) "at most 10000 (100%)")
  else
    .ok ()

end StakingModule

end LiquidStaking

/-
Withdrawal requests.

Amounts are running totals over the whole ledger; what a request itself asks for is the difference
to the request before it.
-/
import LiquidStaking.Address

namespace LiquidStaking

inductive RequestStatus
  | queued
  | finalized
  | claimed
deriving DecidableEq

structure WithdrawalRequest where
  id : Count
  /-- The ether of this request and all before it. -/
  cumulativeEther : Amount
  cumulativeShares : Amount
  recipient : Address
  createdAt : Count
  claimed : Bool
deriving DecidableEq

/-- The bounds on the ether of one request: more than `min`, at most `max`. -/
structure WithdrawalLimits where
  min : Amount
  max : Amount
deriving DecidableEq

structure Settlement where
  etherToLock : Amount
  /-- The shares that leave the supply. -/
  sharesToBurn : Amount
deriving DecidableEq

structure ClaimReceipt where
  requestId : Count
  recipient : Address
  amount : Amount
deriving DecidableEq

end LiquidStaking

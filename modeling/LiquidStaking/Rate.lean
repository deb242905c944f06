/-
The exchange rate between shares and ether.

A rate is kept as the pair it comes from, pooled value over shares, and never as a
quotient.  Conversions multiply before they divide and round down.
-/
import LiquidStaking.Arithmetic
import LiquidStaking.Constants

namespace LiquidStaking

structure Rate where
  poolValue : Nat
  shares : Nat
deriving DecidableEq

namespace Rate

/-- The rate of a pool; value that no share owns has none. -/
def make (poolValue shares : Nat) : Except Fault Rate :=
  if shares = 0 ∧ 0 < poolValue then
    .error (.zeroShares (toString poolValue))
  else
    .ok ⟨poolValue, shares⟩

def ofAmounts (poolValue shares : Amount) : Except Fault Rate := make poolValue.val shares.val

def isEmpty (r : Rate) : Bool := r.shares == 0

def sharesForValue (r : Rate) (value : Nat) : Except Fault Nat :=
  mulDiv value r.shares r.poolValue .down

def valueForShares (r : Rate) (shares : Nat) : Except Fault Nat :=
  mulDiv shares r.poolValue r.shares .down

/-- The value of `priceBase` shares, as an integer. -/
def price (r : Rate) : Except Fault Nat :=
  mulDiv r.poolValue priceBase r.shares .down

/-- The order of two rates, by cross multiplication. -/
def compare (a b : Rate) : Except Fault Ordering :=
  let left := a.poolValue * b.shares
  let right := b.poolValue * a.shares
  if productLimit ≤ left then .error .overflow
  else if productLimit ≤ right then .error .overflow
  else .ok (if left < right then .lt else if left = right then .eq else .gt)

end Rate

end LiquidStaking

/-
Scales and default settings.
-/

namespace LiquidStaking

/-- One whole in the units of the rebase budget. -/
def rebaseBase : Nat := 1000000000

def basisPointsBase : Nat := 10000

/-- One whole in the units of fee shares. -/
def feeBase : Nat := 100000000000000000000

/-- The scale of the integer price that tells settlement batches apart. -/
def priceBase : Nat := 1000000000000000000000000000

def oneEther : Nat := 1000000000000000000

/-- The default rebase cap of a report, 0.075 %. -/
def defaultMaxRebase : Nat := 750000

/-- A withdrawal request has to carry more than this by default. -/
def defaultMinWithdrawal : Nat := 100

def defaultMaxWithdrawal : Nat := 1000 * oneEther

def defaultMaxModules : Nat := 32

def defaultDepositSize : Nat := 32 * oneEther

def snapshotVersion : Nat := 1

end LiquidStaking

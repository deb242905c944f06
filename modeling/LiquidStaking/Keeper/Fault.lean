/-
Why a keeper does not do what it is asked to.

What is stored may be malformed, which is a fault of the settings, of a line of the journal or of the
state, as it was asked for; that a reader halted is none of these.
-/
import LiquidStaking.Fault
import LiquidStaking.Wire.Source

namespace LiquidStaking

/-- What is wrong with settings that can be read. -/
inductive SettingsFault
  | zeroAdmin
  | missingPath
  | zeroInterval
  | tooManyModules (count limit : Nat)
  | duplicateModule (id : Nat)
deriving DecidableEq

namespace SettingsFault

def message : SettingsFault → String
  | zeroAdmin => "admin must not be the zero address"
  | missingPath => "journal_path and snapshot_path are required"
  | zeroInterval => "poll_interval must be greater than 0"
  | tooManyModules count limit => s!"{count} modules configured, pool allows {limit}"
  | duplicateModule id => s!"duplicate module id {id}"

end SettingsFault

inductive KeeperFault
  | settings (reason : SettingsFault)
  /-- The settings are no TOML document, or one of another shape. -/
  | settingsText
  | file
  /-- A stored value has no text, or a text is not that of a stored value. -/
  | stored
  | journal (line : Nat)
  | escrowShortfall (balance locked : Nat)
  | pool (cause : Fault)
  | halted
deriving DecidableEq

namespace KeeperFault

def message : KeeperFault → String
  | settings reason => "Invalid configuration: " ++ reason.message
  | settingsText => "Invalid configuration: not a keeper configuration"
  | file => "I/O error: file not accessible"
  | stored => "Serialization error: not a keeper state"
  | journal line => s!"Journal line {line}: not a pool event"
  | escrowShortfall balance locked =>
    s!"Unhealthy: escrow holds {balance} but {locked} is locked for withdrawals"
  | pool cause => "Pool error: " ++ cause.message
  | halted => "Halted in the middle of the work"

/-- Why something stored cannot be taken over, given what it means that it is malformed. -/
def ofMisread (malformed : KeeperFault) : Misread → KeeperFault
  | .malformed => malformed
  | .halted => .halted

end KeeperFault

end LiquidStaking

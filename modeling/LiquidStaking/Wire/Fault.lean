/-
The stored form of a fault.

A fault is stored as an alternative: its label alone, or a record of its label and its content,
which is a value, a list of two values, or a record.
-/
import LiquidStaking.Fault
import LiquidStaking.Json.Basic

namespace LiquidStaking
namespace Fault

def label : Fault → String
  | overflow => "MathOverflow"
  | underflow => "MathUnderflow"
  | divisionByZero => "DivisionByZero"
  | productOverflow => "MulDivOverflow"
  | conversion => "ConversionError"
  | zeroShares _ => "ZeroShares"
  | invalidSetting .. => "InvalidConfig"
  | unsupportedSchema _ => "UnsupportedSchema"
  | budgetConsumed .. => "DirtyState"
  | staleReport .. => "StaleReport"
  | belowMinimum .. => "BelowMinimum"
  | aboveMaximum .. => "AboveMaximum"
  | invalidRange .. => "InvalidRange"
  | insufficientEscrow .. => "InsufficientEscrow"
  | insufficientBuffer .. => "InsufficientBuffer"
  | insufficientShares .. => "InsufficientShares"
  | notFinalized _ => "NotFinalized"
  | alreadyClaimed _ => "AlreadyClaimed"
  | unknownRequest _ => "UnknownRequest"
  | priceNotFound _ => "PriceNotFound"
  | transferFailed .. => "TransferFailed"
  | feeExceedsTotal .. => "FeeExceedsTotal"
  | lengthMismatch .. => "LengthMismatch"
  | tooManyModules .. => "TooManyModules"
  | unknownModule _ => "UnknownModule"
  | duplicateModule _ => "DuplicateModule"
  | unauthorized .. => "Unauthorized"
  | lockPoisoned _ => "LockPoisoned"

def content? : Fault → Option Json
  | overflow | underflow | divisionByZero | productOverflow | conversion => none
  | zeroShares pooled => some (.record [("pooled_value", .text pooled)])
  | invalidSetting parameter value expected =>
    some (.record [("parameter", .text parameter), ("value", .text value),
      ("expected", .text expected)])
  | unsupportedSchema version => some (.ofNat version)
  | budgetConsumed used limit =>
    some (.record [("used_limit", .ofNat used), ("max_limit", .ofNat limit)])
  | staleReport block last =>
    some (.record [("ref_block", .ofNat block), ("last_block", .ofNat last)])
  | belowMinimum amount minimum =>
    some (.record [("amount", .ofNat amount), ("minimum", .ofNat minimum)])
  | aboveMaximum amount maximum =>
    some (.record [("amount", .ofNat amount), ("maximum", .ofNat maximum)])
  | invalidRange last finalized length =>
    some (.record [("last_id", .ofNat last), ("finalized", .ofNat finalized),
      ("length", .ofNat length)])
  | insufficientEscrow required available =>
    some (.record [("required", .ofNat required), ("available", .ofNat available)])
  | insufficientBuffer required buffered =>
    some (.record [("required", .ofNat required), ("buffered", .ofNat buffered)])
  | insufficientShares required available =>
    some (.record [("required", .ofNat required), ("available", .ofNat available)])
  | notFinalized request | alreadyClaimed request | unknownRequest request
  | priceNotFound request => some (.ofNat request)
  | transferFailed request amount reason =>
    some (.record [("request_id", .ofNat request), ("amount", .ofNat amount),
      ("reason", .text reason)])
  | feeExceedsTotal fee precision =>
    some (.record [("total_fee", .ofNat fee), ("precision", .ofNat precision)])
  | lengthMismatch counts capacities => some (.list [.ofNat counts, .ofNat capacities])
  | tooManyModules count limit => some (.list [.ofNat count, .ofNat limit])
  | unknownModule id | duplicateModule id => some (.ofNat id)
  | unauthorized caller role => some (.record [("caller", .text caller), ("role", .text role)])
  | lockPoisoned lock => some (.text lock)

def toJson (f : Fault) : Json :=
  match f.content? with
  | some content => .record [(f.label, content)]
  | none => .text f.label

end Fault
end LiquidStaking

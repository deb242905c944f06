/-
What can go wrong.

A `Fault` is a cause: it names what was refused and carries the amounts or
identifiers a caller needs.  Its wording is in `message`, its bucket in `kind`.

An operation on the books either is refused with a fault or, in a few places
where a counter leaves its width, halts altogether.  `Failure` keeps the two
apart, because a halt leaves the writer's lock behind.  A text halts its reader
when it is cut inside a character.
-/

namespace LiquidStaking

/-- What a caller may do about a fault. -/
inductive FaultKind
  /-- Bad settings; fatal at setup. -/
  | config
  /-- A caller's mistake, or a broken assumption about the books. -/
  | invariantViolation
  /-- Something is too low or too full for now. -/
  | insufficientResource
  /-- The operation took place earlier. -/
  | alreadyDone
deriving DecidableEq

inductive Fault
  | overflow
  | underflow
  | divisionByZero
  | productOverflow
  | conversion
  | zeroShares (pooled : String)
  | invalidSetting (parameter value expected : String)
  | unsupportedSchema (version : Nat)
  | budgetConsumed (used limit : Nat)
  | staleReport (block last : Nat)
  | belowMinimum (amount minimum : Nat)
  | aboveMaximum (amount maximum : Nat)
  | invalidRange (last finalized length : Nat)
  | insufficientEscrow (required available : Nat)
  | insufficientBuffer (required buffered : Nat)
  | insufficientShares (required available : Nat)
  | notFinalized (request : Nat)
  | alreadyClaimed (request : Nat)
  | unknownRequest (request : Nat)
  | priceNotFound (request : Nat)
  | transferFailed (request amount : Nat) (reason : String)
  | feeExceedsTotal (fee precision : Nat)
  | lengthMismatch (counts capacities : Nat)
  | tooManyModules (count limit : Nat)
  | unknownModule (id : Nat)
  | duplicateModule (id : Nat)
  | unauthorized (caller role : String)
  | lockPoisoned (lock : String)
deriving DecidableEq

namespace Fault

def message : Fault → String
  | overflow => "Math overflow"
  | underflow => "Math underflow"
  | divisionByZero => "Division by zero"
  | productOverflow => "Mul div overflow"
  | conversion => "Conversion error"
  | zeroShares pooled => s!"Exchange rate with zero shares backing {pooled} pooled value"
  | invalidSetting parameter value expected =>
    "Invalid configuration for '" ++ parameter ++ "': got " ++ value ++ ", expected " ++ expected
  | unsupportedSchema version => s!"Unsupported snapshot schema version {version}"
  | budgetConsumed used limit => s!"Limiter state already consumed ({used} of {limit} used)"
  | staleReport block last =>
    s!"Report for block {block} is not newer than last report at {last}"
  | belowMinimum amount minimum =>
    s!"Withdrawal amount {amount} does not exceed minimum {minimum}"
  | aboveMaximum amount maximum => s!"Withdrawal amount {amount} exceeds maximum {maximum}"
  | invalidRange last finalized length =>
    s!"Bad finalization range: last id {last}, finalized {finalized}, length {length}"
  | insufficientEscrow required available =>
    s!"Insufficient escrow: need {required}, available {available}"
  | insufficientBuffer required buffered =>
    s!"Insufficient buffered ether: need {required}, buffered {buffered}"
  | insufficientShares required available =>
    s!"Insufficient shares: need {required}, held {available}"
  | notFinalized request => s!"Request {request} is not finalized"
  | alreadyClaimed request => s!"Request {request} is already claimed"
  | unknownRequest request => s!"Request {request} does not exist"
  | priceNotFound request => s!"No finalization price covers request {request}"
  | transferFailed request amount reason =>
    s!"Payout of {amount} for request {request} rejected: {reason}"
  | feeExceedsTotal fee precision => s!"Total fee {fee} reaches precision base {precision}"
  | lengthMismatch counts capacities =>
    s!"Length mismatch: {counts} counts vs {capacities} capacities"
  | tooManyModules count limit => s!"Too many modules: {count} (max {limit})"
  | unknownModule id => s!"Module {id} not found"
  | duplicateModule id => s!"Module {id} already registered"
  | unauthorized caller role => s!"Unauthorized: {caller} lacks role {role}"
  | lockPoisoned lock => s!"{lock} lock poisoned"

def kind : Fault → FaultKind
  | invalidSetting .. | unsupportedSchema _ => .config
  | insufficientEscrow .. | insufficientBuffer .. | insufficientShares .. | transferFailed ..
  | tooManyModules .. | belowMinimum .. | aboveMaximum .. => .insufficientResource
  | alreadyClaimed _ | duplicateModule _ | staleReport .. => .alreadyDone
  | overflow | underflow | divisionByZero | productOverflow | conversion | zeroShares _
  | budgetConsumed .. | invalidRange .. | notFinalized _ | unknownRequest _ | priceNotFound _
  | feeExceedsTotal .. | lengthMismatch .. | unknownModule _ | unauthorized .. | lockPoisoned _ =>
    .invariantViolation

/-- Whether the same request can succeed later, or already has. -/
def isRecoverable (f : Fault) : Bool :=
  match f.kind with
  | .insufficientResource | .alreadyDone => true
  | .config | .invariantViolation => false

end Fault

inductive Failure
  | refused (cause : Fault)
  /-- A counter left its width, or a text was cut inside a character, in the middle of the work. -/
  | halted
deriving DecidableEq

instance : MonadLift (Except Fault) (Except Failure) where
  monadLift x := x.mapError Failure.refused

end LiquidStaking

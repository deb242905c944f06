/-
Events of the journal.

An event is what somebody asked of the pool: an operation, and for a privileged one the account
that asks.  It is stored as an alternative with one record as its content.
-/
import LiquidStaking.Pool.Shared
import LiquidStaking.Wire.Pool

namespace LiquidStaking

inductive PoolEvent
  | submit (sender : Address) (amount : Amount)
  | requestWithdrawal (owner : Address) (shares : Amount) (block : Count)
  | claim (requestId : Count) (hint : Option Count)
  | deposit (caller : Address) (maxDeposits block : Count)
  | report (caller : Address) (report : OracleReport)
  | addModule (caller : Address) (m : StakingModule)
  | setModuleStatus (caller : Address) (id : ModuleId) (status : ModuleStatus)
  | updateModuleFees (caller : Address) (id : ModuleId) (fee treasuryFee : BasisPoints)
  | updateModuleKeys (caller : Address) (id : ModuleId) (activeKeys availableKeys : Count)
  | updateTargetShare (caller : Address) (id : ModuleId) (target : BasisPoints)
deriving DecidableEq

namespace PoolEvent

def label : PoolEvent → String
  | submit .. => "submit"
  | requestWithdrawal .. => "request_withdrawal"
  | claim .. => "claim"
  | deposit .. => "deposit"
  | report .. => "report"
  | addModule .. => "add_module"
  | setModuleStatus .. => "set_module_status"
  | updateModuleFees .. => "update_module_fees"
  | updateModuleKeys .. => "update_module_keys"
  | updateTargetShare .. => "update_target_share"

def operation : PoolEvent → Operation
  | submit sender amount => .submit sender amount
  | requestWithdrawal owner shares block => .requestWithdrawal owner shares block
  | claim requestId hint => .claim requestId hint
  | deposit _ maxDeposits block => .deposit maxDeposits block
  | report _ r => .report r
  | addModule _ m => .manage (.add m)
  | setModuleStatus _ id status => .manage (.setStatus id status)
  | updateModuleFees _ id fee treasuryFee => .manage (.setFees id fee treasuryFee)
  | updateModuleKeys _ id activeKeys availableKeys => .manage (.setKeys id activeKeys availableKeys)
  | updateTargetShare _ id target => .manage (.setTarget id target)

/-- The account that asks for a privileged operation. -/
def caller? : PoolEvent → Option Address
  | submit .. | requestWithdrawal .. | claim .. => none
  | deposit caller .. | report caller _ | addModule caller _ | setModuleStatus caller ..
  | updateModuleFees caller .. | updateModuleKeys caller .. | updateTargetShare caller .. =>
    some caller

/-- Carry out an event.  One with a caller takes a permit for the caller first. -/
def apply (e : PoolEvent) (s : SharedPool) : Except Failure Reply × SharedPool :=
  match e.caller? with
  | some caller => s.performFor caller e.operation
  | none => s.write e.operation

open Wire

def content : PoolEvent → Json
  | submit sender amount => .record [("sender", write sender), ("amount", writeDigits amount)]
  | requestWithdrawal owner shares block =>
    .record [("owner", write owner), ("shares", writeDigits shares), ("block", write block)]
  | claim requestId hint => .record [("request_id", write requestId), ("hint", write hint)]
  | deposit caller maxDeposits block =>
    .record [("caller", write caller), ("max_deposits", write maxDeposits), ("block", write block)]
  | report caller r => .record [("caller", write caller), ("report", write r)]
  | addModule caller m => .record [("caller", write caller), ("module", write m)]
  | setModuleStatus caller id status =>
    .record [("caller", write caller), ("module_id", write id), ("status", write status)]
  | updateModuleFees caller id fee treasuryFee =>
    .record [("caller", write caller), ("module_id", write id), ("fee_bps", write fee),
      ("treasury_fee_bps", write treasuryFee)]
  | updateModuleKeys caller id activeKeys availableKeys =>
    .record [("caller", write caller), ("module_id", write id), ("active_keys", write activeKeys),
      ("available_keys", write availableKeys)]
  | updateTargetShare caller id target =>
    .record [("caller", write caller), ("module_id", write id),
      ("target_share_bps", write target)]

section

variable {σ : Type} [Source σ]

def readSubmit (v : σ) : Except Misread PoolEvent := do
  let row ← Row.read ["sender", "amount"] v
  return .submit (← row.required "sender" read) (← row.required "amount" readDigits)

def readRequestWithdrawal (v : σ) : Except Misread PoolEvent := do
  let row ← Row.read ["owner", "shares", "block"] v
  return .requestWithdrawal (← row.required "owner" read) (← row.required "shares" readDigits)
    (← row.required "block" read)

def readClaim (v : σ) : Except Misread PoolEvent := do
  let row ← Row.read ["request_id", "hint"] v
  return .claim (← row.required "request_id" read) (← row.defaulted "hint" read none)

def readDeposit (v : σ) : Except Misread PoolEvent := do
  let row ← Row.read ["caller", "max_deposits", "block"] v
  return .deposit (← row.required "caller" read) (← row.required "max_deposits" read)
    (← row.required "block" read)

def readReport (v : σ) : Except Misread PoolEvent := do
  let row ← Row.read ["caller", "report"] v
  return .report (← row.required "caller" read) (← row.required "report" read)

def readAddModule (v : σ) : Except Misread PoolEvent := do
  let row ← Row.read ["caller", "module"] v
  return .addModule (← row.required "caller" read) (← row.required "module" read)

def readSetModuleStatus (v : σ) : Except Misread PoolEvent := do
  let row ← Row.read ["caller", "module_id", "status"] v
  return .setModuleStatus (← row.required "caller" read) (← row.required "module_id" read)
    (← row.required "status" read)

def readUpdateModuleFees (v : σ) : Except Misread PoolEvent := do
  let row ← Row.read ["caller", "module_id", "fee_bps", "treasury_fee_bps"] v
  return .updateModuleFees (← row.required "caller" read) (← row.required "module_id" read)
    (← row.required "fee_bps" read) (← row.required "treasury_fee_bps" read)

def readUpdateModuleKeys (v : σ) : Except Misread PoolEvent := do
  let row ← Row.read ["caller", "module_id", "active_keys", "available_keys"] v
  return .updateModuleKeys (← row.required "caller" read) (← row.required "module_id" read)
    (← row.required "active_keys" read) (← row.required "available_keys" read)

def readUpdateTargetShare (v : σ) : Except Misread PoolEvent := do
  let row ← Row.read ["caller", "module_id", "target_share_bps"] v
  return .updateTargetShare (← row.required "caller" read) (← row.required "module_id" read)
    (← row.required "target_share_bps" read)

/-- Read the content of an event of the kind that a label names. -/
def readContent (label : String) (v : σ) : Except Misread PoolEvent :=
  match label with
  | "submit" => readSubmit v
  | "request_withdrawal" => readRequestWithdrawal v
  | "claim" => readClaim v
  | "deposit" => readDeposit v
  | "report" => readReport v
  | "add_module" => readAddModule v
  | "set_module_status" => readSetModuleStatus v
  | "update_module_fees" => readUpdateModuleFees v
  | "update_module_keys" => readUpdateModuleKeys v
  | "update_target_share" => readUpdateTargetShare v
  | _ => .error .malformed

end

instance : Wire PoolEvent where
  write e := .record [(e.label, e.content)]
  read v := do
    let (label, content) ← Misread.expect (Source.choice? v)
    readContent label content

end PoolEvent

end LiquidStaking

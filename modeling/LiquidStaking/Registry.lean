/-
The registry of staking modules.

Modules are kept in the order of their registration, under a bound on their number.  A change is
made to the records in place, and has to publish them when it is done: reports and deposits read
what was published last, while changes and look-ups read the records.
-/
import LiquidStaking.Arithmetic
import LiquidStaking.StakingModule

namespace LiquidStaking

namespace StakingModule

def checked (m : StakingModule) : Except Fault StakingModule := do
  m.validate
  return m

def deposited (m : StakingModule) (count : Nat) (block : Count) : Except Fault StakingModule :=
  if count ≤ m.availableKeys.val then do
    let availableKeys : Count :=
      ⟨m.availableKeys.val - count, Nat.lt_of_le_of_lt (Nat.sub_le ..) m.availableKeys.isLt⟩
    let activeKeys ← Bounded.fit .overflow (m.activeKeys.val + count)
    return { m with availableKeys, activeKeys, lastDepositBlock := block }
  else
    .error .underflow

end StakingModule

structure Registry where
  capacity : Count
  /-- What changes and look-ups work on. -/
  records : List StakingModule
  /-- What was published last. -/
  modules : List StakingModule
deriving DecidableEq

namespace Registry

/-- A registry that holds modules and has published them. -/
def holding (capacity : Count) (ms : List StakingModule) : Registry := ⟨capacity, ms, ms⟩

def create (capacity : Count) : Except Fault Registry :=
  if capacity.val = 0 then
    .error (.invalidSetting "max_modules" "0" "greater than 0")
  else
    .ok (holding capacity [])

def size (r : Registry) : Nat := r.records.length

def find? (r : Registry) (id : ModuleId) : Option StakingModule :=
  r.records.find? (fun m => m.id == id)

def get (r : Registry) (id : ModuleId) : Except Fault StakingModule :=
  match r.find? id with
  | some m => .ok m
  | none => .error (.unknownModule id.val)

/-- Whether a module can be registered.  The bound comes before the identifier, and both before the
settings. -/
def checkNew (r : Registry) (m : StakingModule) : Except Fault Unit :=
  if r.capacity.val ≤ r.size then
    .error (.tooManyModules (r.size + 1) r.capacity.val)
  else if (r.find? m.id).isSome then
    .error (.duplicateModule m.id.val)
  else
    m.validate

def replace (id : ModuleId) (m : StakingModule) : List StakingModule → List StakingModule
  | [] => []
  | x :: xs => if x.id = id then m :: xs else x :: replace id m xs

/-- A change in place.  One that fails leaves what it has written until then. -/
abbrev InPlace (α : Type) := ExceptT Fault (StateM Registry) α

namespace InPlace

def ask {α : Type} (look : Registry → Except Fault α) : InPlace α :=
  ExceptT.mk (fun r => (look r, r))

def write (f : List StakingModule → List StakingModule) : InPlace Unit :=
  modify (fun r => { r with records := f r.records })

def publish : InPlace Unit := modify (fun r => { r with modules := r.records })

def register (m : StakingModule) : InPlace Unit := do
  ask (·.checkNew m)
  write (· ++ [m])
  publish

/-- Change the module of an identifier by a rule, unless the rule refuses. -/
def update (id : ModuleId) (rule : StakingModule → Except Fault StakingModule) : InPlace Unit := do
  let m ← ask (·.get id)
  let m ← ask (fun _ => rule m)
  write (replace id m)
  publish

def on {α : Type} (change : InPlace α) (r : Registry) : Except Fault α × Registry := change.run r

end InPlace

inductive Change
  | add (m : StakingModule)
  | setStatus (id : ModuleId) (status : ModuleStatus)
  | setFees (id : ModuleId) (fee treasuryFee : BasisPoints)
  | setTarget (id : ModuleId) (target : BasisPoints)
  | setKeys (id : ModuleId) (activeKeys availableKeys : Count)
  | recordDeposits (id : ModuleId) (count : Nat) (block : Count)

/-- How a change is made.  Settings are checked, and keys are what somebody counted. -/
def Change.steps : Change → InPlace Unit
  | .add m => .register m
  | .setStatus id status => .update id (fun m => .ok { m with status })
  | .setFees id fee treasuryFee => .update id (fun m => { m with fee, treasuryFee }.checked)
  | .setTarget id target => .update id (fun m => { m with target }.checked)
  | .setKeys id activeKeys availableKeys =>
    .update id (fun m => .ok { m with activeKeys, availableKeys })
  | .recordDeposits id count block => .update id (·.deposited count block)

def apply (r : Registry) (change : Change) : Except Fault Registry :=
  match change.steps.on r with
  | (.ok _, r) => .ok r
  | (.error cause, _) => .error cause

def add (r : Registry) (m : StakingModule) : Except Fault Registry := r.apply (.add m)

def setKeys (r : Registry) (id : ModuleId) (activeKeys availableKeys : Count) :
    Except Fault Registry :=
  r.apply (.setKeys id activeKeys availableKeys)

def recordDeposits (r : Registry) (id : ModuleId) (count : Nat) (block : Count) :
    Except Fault Registry :=
  r.apply (.recordDeposits id count block)

def ofModules (capacity : Count) (ms : List StakingModule) : Except Fault Registry := do
  ms.foldlM add (← create capacity)

end Registry

end LiquidStaking

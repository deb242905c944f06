/-
The settings of a keeper.

Settings are kept in a TOML document.  They say where the journal and the snapshot are, and what
pool to start with if there is no snapshot: its policy, its modules and the roles granted.
-/
import LiquidStaking.Keeper.Fault
import LiquidStaking.Pool.Shared
import LiquidStaking.Toml.Reader
import LiquidStaking.Toml.Writer
import LiquidStaking.Wire.Pool

namespace LiquidStaking

structure ModuleSettings where
  id : ModuleId
  name : String
  address : Address
  target : BasisPoints
  fee : BasisPoints
  treasuryFee : BasisPoints
  availableKeys : Count
  status : ModuleStatus
deriving DecidableEq

namespace ModuleSettings

def standard : ModuleSettings where
  id := ⟨1, by decide⟩
  name := "Default Module"
  address := .ofCount ⟨1, by decide⟩
  target := ⟨10000, by decide⟩
  fee := ⟨500, by decide⟩
  treasuryFee := ⟨500, by decide⟩
  availableKeys := Bounded.zero
  status := .active

/-- The module to register, with no active keys yet. -/
def toModule (m : ModuleSettings) : StakingModule where
  id := m.id
  name := m.name
  address := m.address
  target := m.target
  fee := m.fee
  treasuryFee := m.treasuryFee
  status := m.status
  activeKeys := Bounded.zero
  availableKeys := m.availableKeys
  lastDepositBlock := Bounded.zero

end ModuleSettings

structure RoleGrant where
  address : Address
  role : Role
deriving DecidableEq

structure KeeperSettings where
  admin : Address
  journalPath : String
  snapshotPath : String
  /-- The seconds between two looks at the journal. -/
  pollInterval : Count
  pool : PoolPolicy
  modules : List ModuleSettings
  roles : List RoleGrant
deriving DecidableEq

namespace Wire

instance : Wire ModuleSettings where
  write m := .record [
    ("id", write m.id),
    ("name", write m.name),
    ("address", write m.address),
    ("target_share_bps", write m.target),
    ("fee_bps", write m.fee),
    ("treasury_fee_bps", write m.treasuryFee),
    ("available_keys", write m.availableKeys),
    ("status", write m.status)]
  read v := do
    let row ← Row.read ["id", "name", "address", "target_share_bps", "fee_bps",
      "treasury_fee_bps", "available_keys", "status"] v
    return {
      id := ← row.required "id" read
      name := ← row.required "name" read
      address := ← row.required "address" read
      target := ← row.required "target_share_bps" read
      fee := ← row.required "fee_bps" read
      treasuryFee := ← row.required "treasury_fee_bps" read
      availableKeys := ← row.defaulted "available_keys" read Bounded.zero
      status := ← row.defaulted "status" read .active }

instance : Wire RoleGrant where
  write g := .record [
    ("address", write g.address),
    ("role", write g.role)]
  read v := do
    let row ← Row.read ["address", "role"] v
    return {
      address := ← row.required "address" read
      role := ← row.required "role" read }

instance : Wire KeeperSettings where
  write s := .record [
    ("admin", write s.admin),
    ("journal_path", write s.journalPath),
    ("snapshot_path", write s.snapshotPath),
    ("poll_interval", write s.pollInterval),
    ("pool", write s.pool),
    ("modules", write s.modules),
    ("roles", write s.roles)]
  read v := do
    let row ← Row.read ["admin", "journal_path", "snapshot_path", "poll_interval", "pool",
      "modules", "roles"] v
    return {
      admin := ← row.required "admin" read
      journalPath := ← row.required "journal_path" read
      snapshotPath := ← row.required "snapshot_path" read
      pollInterval := ← row.required "poll_interval" read
      pool := ← row.required "pool" read
      modules := ← row.defaulted "modules" read []
      roles := ← row.defaulted "roles" read [] }

end Wire

namespace KeeperSettings

/-- The first fault of a list of modules: an identifier among those seen before, or settings that
the registry refuses. -/
def checkModules (seen : List ModuleId) : List ModuleSettings → Except KeeperFault Unit
  | [] => .ok ()
  | m :: ms =>
    if m.id ∈ seen then
      .error (.settings (.duplicateModule m.id.val))
    else
      match m.toModule.validate with
      | .error cause => .error (.pool cause)
      | .ok () => checkModules (m.id :: seen) ms

def validate (s : KeeperSettings) : Except KeeperFault Unit :=
  match s.pool.validate with
  | .error cause => .error (.pool cause)
  | .ok () =>
    if s.admin.isZero then
      .error (.settings .zeroAdmin)
    else if s.journalPath.isEmpty || s.snapshotPath.isEmpty then
      .error (.settings .missingPath)
    else if s.pollInterval.val = 0 then
      .error (.settings .zeroInterval)
    else if s.pool.maxModules.val < s.modules.length then
      .error (.settings (.tooManyModules s.modules.length s.pool.maxModules.val))
    else
      checkModules [] s.modules

/-- The settings of a document, whether they make sense or not. -/
def ofDocument (document : String) : Except Misread KeeperSettings := do
  Wire.read (← Misread.expect (Toml.ofText? document))

def ofText (document : String) : Except KeeperFault KeeperSettings := do
  let s ← (ofDocument document).mapError (.ofMisread .settingsText)
  s.validate
  return s

def toText (s : KeeperSettings) : Except KeeperFault String :=
  match Toml.render (Wire.write s) with
  | some document => .ok document
  | none => .error .stored

def standard : KeeperSettings where
  admin := .repeatByte ⟨0x01, by decide⟩
  journalPath := "pool-events.jsonl"
  snapshotPath := "pool-snapshot.json"
  pollInterval := ⟨12, by decide⟩
  pool := { PoolPolicy.standard with treasury := .repeatByte ⟨0xee, by decide⟩ }
  modules := []
  roles := []

/-- Settings to start from: two modules, and an account for every role. -/
def sample : KeeperSettings :=
  { standard with
    modules := [
      { id := ⟨1, by decide⟩
        name := "curated"
        address := .repeatByte ⟨0x11, by decide⟩
        target := ⟨10000, by decide⟩
        fee := ⟨500, by decide⟩
        treasuryFee := ⟨500, by decide⟩
        availableKeys := ⟨1000, by decide⟩
        status := .active },
      { id := ⟨2, by decide⟩
        name := "community"
        address := .repeatByte ⟨0x22, by decide⟩
        target := ⟨400, by decide⟩
        fee := ⟨600, by decide⟩
        treasuryFee := ⟨400, by decide⟩
        availableKeys := ⟨200, by decide⟩
        status := .active }]
    roles := [
      ⟨.repeatByte ⟨0x02, by decide⟩, .oracle⟩,
      ⟨.repeatByte ⟨0x03, by decide⟩, .depositor⟩,
      ⟨.repeatByte ⟨0x01, by decide⟩, .moduleManager⟩] }

def access (s : KeeperSettings) : Except Fault Access := do
  let start := Access.ofAdmin s.admin
  let admin ← start.permit s.admin .admin
  s.roles.foldlM (fun a g => a.grant admin g.address g.role) start

def freshPool (s : KeeperSettings) : Except Fault Pool := do
  let p ← Pool.create s.pool
  s.modules.foldlM (fun p m => p.manage (.add m.toModule)) p

end KeeperSettings

end LiquidStaking

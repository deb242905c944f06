/-
What the check of settings decides.

The check looks at all settings at once, while the pool and its registry check what they are given
one after the other.  They agree on every list of modules, so that settings pass exactly if a fresh
pool can be made of them and the keeper has an administrator, files and an interval.
-/
import LiquidStaking.Proofs.Keeper.Start

namespace LiquidStaking

namespace Access

/-- Whoever is granted a role one after the other has it, and nobody else but those who had it. -/
theorem hasRole_foldl_add (grants : List RoleGrant) (a : Access) (account : Address) (role : Role) :
    (grants.foldl (fun a g => a.add g.address g.role) a).hasRole account role = true ↔
      a.hasRole account role = true ∨ ∃ g ∈ grants, g.address = account ∧ g.role = role := by
  induction grants generalizing a with
  | nil => simp
  | cons g grants ih =>
    rw [List.foldl_cons, ih, hasRole_add_eq, Bool.or_eq_true, beq_iff_eq, Prod.mk.injEq]
    simp only [List.mem_cons, exists_eq_or_imp, or_assoc, or_left_comm]

end Access

namespace KeeperSettings

/-- A pool that starts with settings: their policy and modules, and nothing accounted for. -/
structure Starts (s : KeeperSettings) (p : Pool) : Prop where
  policy : p.policy = s.pool
  capacity : p.registry.capacity = s.pool.maxModules
  modules : p.registry.modules = s.modules.map ModuleSettings.toModule
  records : p.registry.records = s.modules.map ModuleSettings.toModule
  totals : p.totals = .zero
  balances : p.balances = .empty
  queue : p.queue = .create s.pool.withdrawalLimits
  lastReport : p.lastReport = none

variable {s : KeeperSettings} {p : Pool}

theorem starts_of_freshPool (h : s.freshPool = .ok p) : s.Starts p := by
  obtain ⟨-, rfl⟩ := freshPool_eq_ok_iff.1 h
  exact ⟨rfl, rfl, rfl, rfl, rfl, rfl, rfl, rfl⟩

theorem exists_freshPool_iff :
    (∃ p, s.freshPool = .ok p) ↔ s.pool.validate = .ok () ∧ s.registry.Valid :=
  ⟨fun ⟨_, h⟩ => (freshPool_eq_ok_iff.1 h).1, fun h => ⟨_, freshPool_eq_ok_iff.2 ⟨h, rfl⟩⟩⟩

theorem exists_start_iff (s : KeeperSettings) (dryRun : Bool) :
    (∃ k, Keeper.start s dryRun none = .ok k) ↔ ∃ p, s.freshPool = .ok p := by
  simp only [Keeper.start_eq_ok_iff]
  constructor
  · rintro ⟨_, _, p, -, hp, -⟩
    exact ⟨p, hp⟩
  · rintro ⟨p, hp⟩
    exact ⟨_, _, p, s.access_eq_ok, hp, rfl⟩

theorem hasRole_access {a : Access} (h : s.access = .ok a) (account : Address) (role : Role) :
    a.hasRole account role = true ↔ (account = s.admin ∧ role = .admin) ∨
      ∃ g ∈ s.roles, g.address = account ∧ g.role = role := by
  rw [access_eq_ok] at h
  cases h
  rw [Access.hasRole_foldl_add]
  simp [Access.hasRole, Access.ofAdmin]

/-- Settings pass their check exactly if a fresh pool can be made of them, their administrator is an
account, both files have a name and the keeper waits between two looks.  The fresh pool has their
policy, their modules in their order and nothing accounted for; and the roles can always be granted,
to the administrator and to those they list. -/
theorem validate_decides (s : KeeperSettings) :
    (s.validate = .ok () ↔ (∃ p, s.freshPool = .ok p) ∧ s.admin.isZero = false ∧
        s.journalPath.isEmpty = false ∧ s.snapshotPath.isEmpty = false ∧
        0 < s.pollInterval.val) ∧
      (∀ p, s.freshPool = .ok p → s.Starts p) ∧
      (∃ a, s.access = .ok a ∧ ∀ account role, a.hasRole account role = true ↔
        (account = s.admin ∧ role = .admin) ∨
          ∃ g ∈ s.roles, g.address = account ∧ g.role = role) ∧
      ∀ dryRun, (∃ k, Keeper.start s dryRun none = .ok k) ↔ ∃ p, s.freshPool = .ok p := by
  refine ⟨?_, fun p hp => starts_of_freshPool hp, ?_, s.exists_start_iff⟩
  · rw [validate_eq_ok_iff, exists_freshPool_iff]
  · exact ⟨_, s.access_eq_ok, hasRole_access s.access_eq_ok⟩

/-- The sample settings pass, and their fresh pool has the two modules and the four roles. -/
theorem validate_decides_sample : sample.validate = .ok () ∧
    sample.Starts { Pool.initial sample.pool with registry := sample.registry } ∧
    (∃ a, sample.access = .ok a ∧ a.hasRole (.repeatByte 2) .oracle = true ∧
      a.hasRole (.repeatByte 2) .depositor = false) ∧
    ∃ k, Keeper.start sample true none = .ok k := by
  have hvalid : sample.validate = .ok () := rfl
  have hpool := freshPool_of_validate hvalid
  obtain ⟨-, hstarts, ⟨a, ha, hroles⟩, hstart⟩ := validate_decides sample
  refine ⟨hvalid, hstarts _ hpool, ⟨a, ha, (hroles _ _).2 ?_, ?_⟩, (hstart true).2 ⟨_, hpool⟩⟩
  · decide +kernel
  · exact Bool.eq_false_iff.2 (mt (hroles _ _).1 (by decide +kernel))

end KeeperSettings
end LiquidStaking

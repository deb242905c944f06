/-
What settings that make sense lead to.

A keeper can always grant the roles of its settings, and settings that pass their checks are those
of a pool that can be created and takes all the modules.
-/
import LiquidStaking.Keeper.Settings
import LiquidStaking.Proofs.Access
import LiquidStaking.Proofs.Pool.Operations
import LiquidStaking.Proofs.Registry

namespace LiquidStaking

namespace Access

variable {a : Access} {admin : Permit}

theorem hasRole_add {account : Address} {role : Role} (h : a.hasRole account role = true)
    (account' : Address) (role' : Role) : (a.add account' role').hasRole account role = true := by
  rw [hasRole_add_eq, h, Bool.or_true]

theorem grant_eq_add (hrole : admin.role = .admin) (h : a.hasRole admin.holder .admin = true)
    (account : Address) (role : Role) : a.grant admin account role = .ok (a.add account role) := by
  rw [grant, verify_of_honours ⟨hrole, h⟩]
  rfl

theorem foldlM_grant (hrole : admin.role = .admin) : ∀ (grants : List RoleGrant) {a : Access},
    a.hasRole admin.holder .admin = true →
      grants.foldlM (fun a g => a.grant admin g.address g.role) a =
        .ok (grants.foldl (fun a g => a.add g.address g.role) a)
  | [], _, _ => rfl
  | g :: grants, a, h => by
    rw [List.foldlM_cons, grant_eq_add hrole h, ok_bind]
    exact foldlM_grant hrole grants (hasRole_add h _ _)

end Access

/-- A policy that makes sense is that of a pool in which nothing has happened. -/
theorem Pool.create_eq_ok_iff {policy : PoolPolicy} {p : Pool} :
    Pool.create policy = .ok p ↔ policy.validate = .ok () ∧ p = Pool.initial policy := by
  constructor
  · intro h
    refine ⟨?_, Pool.create_eq_ok h⟩
    obtain ⟨_, hpolicy, -⟩ := bind_eq_ok.1 h
    exact hpolicy
  · rintro ⟨hpolicy, rfl⟩
    have hempty : Registry.create policy.maxModules = .ok (.holding policy.maxModules []) :=
      Registry.create_eq_ok_iff.2 ⟨(PoolPolicy.validate_eq_ok_iff.1 hpolicy).2.2.2, rfl⟩
    rw [Pool.create, hpolicy, ok_bind, hempty]
    rfl

namespace KeeperSettings

variable {s : KeeperSettings}

theorem access_eq_ok (s : KeeperSettings) : s.access =
    .ok (s.roles.foldl (fun a g => a.add g.address g.role) (Access.ofAdmin s.admin)) := by
  have hadmin : (Access.ofAdmin s.admin).hasRole s.admin .admin = true := by
    simp only [Access.hasRole, Access.ofAdmin, List.contains_iff_mem]
    exact List.mem_singleton.2 rfl
  rw [access, Access.permit, if_pos hadmin, ok_bind]
  exact Access.foldlM_grant rfl s.roles hadmin

/-- What the check of modules finds in order. -/
theorem checkModules_eq_ok_iff : ∀ {ms : List ModuleSettings} {seen : List ModuleId},
    checkModules seen ms = .ok () ↔ (∀ m ∈ ms, m.id ∉ seen) ∧
      ms.Pairwise (fun a b => a.id ≠ b.id) ∧ ∀ m ∈ ms, m.toModule.validate = .ok ()
  | [], _ => iff_of_true rfl ⟨fun _ h => (nomatch h), List.Pairwise.nil, fun _ h => (nomatch h)⟩
  | m :: ms, seen => by
    rw [List.forall_mem_cons, List.forall_mem_cons, List.pairwise_cons]
    -- What is not seen later is neither this module nor one that was seen before.
    have hlater : (∀ x ∈ ms, x.id ∉ m.id :: seen) ↔
        (∀ x ∈ ms, m.id ≠ x.id) ∧ ∀ x ∈ ms, x.id ∉ seen := by
      simp only [List.mem_cons, not_or, ne_comm, forall_and]
    unfold checkModules
    by_cases hnew : m.id ∈ seen
    · rw [if_pos hnew]
      exact iff_of_false (fun h => nomatch h) (fun h => h.1.1 hnew)
    · rw [if_neg hnew]
      cases hm : m.toModule.validate with
      | error cause => exact iff_of_false (fun h => nomatch h) (fun h => nomatch h.2.2.1)
      | ok _ =>
        rw [checkModules_eq_ok_iff, hlater]
        exact ⟨fun ⟨⟨hne, hunseen⟩, hdistinct, hvalid⟩ =>
            ⟨⟨hnew, hunseen⟩, ⟨hne, hdistinct⟩, rfl, hvalid⟩,
          fun ⟨⟨_, hunseen⟩, ⟨hne, hdistinct⟩, _, hvalid⟩ =>
            ⟨⟨hne, hunseen⟩, hdistinct, hvalid⟩⟩

def registry (s : KeeperSettings) : Registry :=
  .holding s.pool.maxModules (s.modules.map ModuleSettings.toModule)

/-- The check of the modules, and of their number, is what a registry asks of them. -/
theorem registry_valid_iff (hpool : s.pool.validate = .ok ()) : s.registry.Valid ↔
    s.modules.length ≤ s.pool.maxModules.val ∧ checkModules [] s.modules = .ok () := by
  have hcapacity := (PoolPolicy.validate_eq_ok_iff.1 hpool).2.2.2
  unfold registry
  rw [Registry.holding_valid_iff, checkModules_eq_ok_iff, List.length_map, List.pairwise_map,
    List.forall_mem_map]
  exact ⟨fun ⟨_, hroom, hdistinct, hvalid⟩ =>
      ⟨hroom, fun _ _ => List.not_mem_nil, hdistinct, hvalid⟩,
    fun ⟨hroom, _, hdistinct, hvalid⟩ => ⟨hcapacity, hroom, hdistinct, hvalid⟩⟩

theorem validate_eq_ok_iff : s.validate = .ok () ↔
    (s.pool.validate = .ok () ∧ s.registry.Valid) ∧ s.admin.isZero = false ∧
      s.journalPath.isEmpty = false ∧ s.snapshotPath.isEmpty = false ∧ 0 < s.pollInterval.val := by
  unfold validate
  cases hpool : s.pool.validate with
  | error cause => simp
  | ok _ =>
    rw [registry_valid_iff hpool]
    cases hadmin : s.admin.isZero with
    | true => simp
    | false =>
      cases hjournal : s.journalPath.isEmpty with
      | true => simp
      | false =>
        cases hsnapshot : s.snapshotPath.isEmpty with
        | true => simp
        | false =>
          by_cases hinterval : s.pollInterval.val = 0
          · simp [hinterval]
          · have hpositive := Nat.pos_of_ne_zero hinterval
            by_cases hroom : s.modules.length ≤ s.pool.maxModules.val
            · simp [hinterval, hpositive, hroom, Nat.not_lt.2 hroom]
            · simp [hinterval, hroom, Nat.lt_of_not_le hroom]

/-- Registering the modules of settings is managing the pool by one change after the other. -/
theorem foldlM_manage : ∀ (ms : List ModuleSettings) (p : Pool),
    ms.foldlM (fun p m => p.manage (.add m.toModule)) p = (do
      return { p with registry := ← (ms.map ModuleSettings.toModule).foldlM Registry.add p.registry })
  | [], p => rfl
  | m :: ms, p => by
    rw [List.map_cons, List.foldlM_cons, List.foldlM_cons, Pool.manage]
    show (p.registry.add m.toModule >>= _) >>= _ = _
    cases p.registry.add m.toModule with
    | error cause => rfl
    | ok r => exact foldlM_manage ms { p with registry := r }

/-- A fresh pool has the modules of the settings, in their order, and nothing else. -/
theorem freshPool_eq_ok_iff {p : Pool} : s.freshPool = .ok p ↔
    (s.pool.validate = .ok () ∧ s.registry.Valid) ∧
      p = { Pool.initial s.pool with registry := s.registry } := by
  simp only [freshPool, bind_eq_ok, foldlM_manage, pure_eq_ok, Pool.create_eq_ok_iff]
  constructor
  · rintro ⟨_, ⟨hpool, rfl⟩, r, hr, rfl⟩
    have hcapacity := (PoolPolicy.validate_eq_ok_iff.1 hpool).2.2.2
    have hmodules : Registry.ofModules s.pool.maxModules
        (s.modules.map ModuleSettings.toModule) = .ok r := by
      rw [Registry.ofModules, Registry.create_eq_ok_iff.2 ⟨hcapacity, rfl⟩]
      exact hr
    obtain ⟨rfl, hvalid⟩ := Registry.ofModules_eq_ok_iff.1 hmodules
    exact ⟨⟨hpool, hvalid⟩, rfl⟩
  · rintro ⟨⟨hpool, hvalid⟩, rfl⟩
    exact ⟨_, ⟨hpool, rfl⟩, _, Registry.foldlM_add _ hvalid, rfl⟩

theorem freshPool_of_validate (h : s.validate = .ok ()) :
    s.freshPool = .ok { Pool.initial s.pool with registry := s.registry } :=
  freshPool_eq_ok_iff.2 ⟨(validate_eq_ok_iff.1 h).1, rfl⟩

end KeeperSettings
end LiquidStaking

/-
Restoring snapshots.

A snapshot is checked before a pool is made of it: its settings, its shares, and every module anew.
A pool that was run from the start passes these checks, because each operation keeps the shares
accounted for and the registry valid.
-/
import LiquidStaking.Pool.Snapshot
import LiquidStaking.Proofs.Pool.Atomicity
import LiquidStaking.Proofs.Registry

namespace LiquidStaking

namespace Pool

variable {policy : PoolPolicy} {p p' : Pool}

/-! ### The registry of a pool -/

theorem deposit_registry {limit block : Count} {allocation : DepositAllocation}
    (h : p.deposit limit block = .ok (allocation, p')) :
    recordAllocation p.registry allocation block = .ok p'.registry := by
  simp only [deposit, bind_eq_ok, lift_eq_ok] at h
  obtain ⟨_, -, _, -, _, -, _, -, registry, hregistry, _, -, _, -, h⟩ := h
  cases pure_eq_ok.1 h
  exact hregistry

theorem manage_registry {change : Registry.Change} (h : p.manage change = .ok p') :
    p.registry.apply change = .ok p'.registry := by
  obtain ⟨registry, hregistry, h⟩ := bind_eq_ok.1 h
  cases pure_eq_ok.1 h
  exact hregistry

/-- A pool that runs under a policy, with a registry of the size the policy sets. -/
structure Governed (policy : PoolPolicy) (p : Pool) : Prop where
  registry : p.registry.Valid
  capacity : p.registry.capacity = p.policy.maxModules
  policy : p.policy = policy

theorem Governed.of_registry (hp : Governed policy p) (hpolicy : p'.policy = p.policy)
    (h : p'.registry.Valid ∧ p'.registry.capacity = p.registry.capacity) : Governed policy p' :=
  ⟨h.1, by rw [h.2, hp.capacity, hpolicy], hpolicy.trans hp.policy⟩

theorem recordAllocation_valid {r r' : Registry} (hr : r.Valid) {allocation : DepositAllocation}
    {block : Count} (h : recordAllocation r allocation block = .ok r') :
    r'.Valid ∧ r'.capacity = r.capacity := by
  refine hr.foldlM (fun {s e s'} hs hstep => ?_) h
  split at hstep
  · cases hstep
    exact ⟨hs, rfl⟩
  · exact hs.recordDeposits hstep

theorem keyUpdates_valid {r r' : Registry} (hr : r.Valid) {updates : List KeyUpdate}
    (h : updates.foldlM applyKeyUpdate r = .ok r') : r'.Valid ∧ r'.capacity = r.capacity := by
  refine hr.foldlM (fun {s u s'} hs hstep => ?_) h
  obtain ⟨m, -, hkeys⟩ := bind_eq_ok.1 hstep
  exact hs.setKeys hkeys

theorem Governed.commit (hp : Governed policy p) {r : OracleReport} {balance : Amount}
    {plan : ReportPlan} (hplan : p.plan r balance = .ok plan) (queue : WithdrawalQueue) :
    Governed policy (p.commit plan queue) := by
  obtain ⟨s, hs⟩ := exists_planSteps hplan
  refine hp.of_registry rfl ?_
  show plan.registry.Valid ∧ plan.registry.capacity = p.registry.capacity
  rw [hs.registry]
  exact keyUpdates_valid hp.registry hs.keys

theorem create_governed (h : create policy = .ok p) : Governed policy p := by
  simp only [create, bind_eq_ok] at h
  obtain ⟨_, -, registry, hregistry, h⟩ := h
  cases pure_eq_ok.1 h
  obtain ⟨hvalid, hcapacity⟩ := Registry.create_valid hregistry
  exact ⟨hvalid, hcapacity, rfl⟩

end Pool

open Pool in
theorem Books.Done.governed {policy : PoolPolicy} {b b' : Books} {op : Operation} {reply : Reply}
    (h : Books.Done b op reply b') (hp : Governed policy b.pool) : Governed policy b'.pool := by
  cases h with
  | submit h =>
    obtain ⟨-, -, _, _, _, -, -, -, rfl⟩ := submit_eq_ok h
    exact hp.of_registry rfl ⟨hp.registry, rfl⟩
  | requestWithdrawal h =>
    obtain ⟨_, _, _, _, -, -, -, -, rfl⟩ := requestWithdrawal_eq_ok h
    exact hp.of_registry rfl ⟨hp.registry, rfl⟩
  | claim h =>
    obtain ⟨_, -, rfl⟩ := claim_eq_ok h
    exact hp.of_registry rfl ⟨hp.registry, rfl⟩
  | deposit h =>
    have hrecorded := deposit_registry h
    obtain ⟨_, _, _, _, -, -, -, rfl⟩ := deposit_eq_ok h
    exact hp.of_registry rfl (recordAllocation_valid hp.registry hrecorded)
  | manage h =>
    have happlied := manage_registry h
    obtain ⟨_, rfl⟩ := manage_eq_ok h
    exact hp.of_registry rfl (hp.registry.apply happlied)
  | report _ hplan _ => exact hp.commit hplan _
  | reportBatch _ hplan _ _ _ => exact hp.commit hplan _

namespace Pool

variable {policy : PoolPolicy} {p : Pool}

theorem Reached.governed (h : Reached policy p) : Governed policy p := by
  induction h with
  | create h => exact create_governed h
  | @run p hp escrow op ih =>
    rcases Books.run_cases (b := ⟨p, escrow⟩) hp.sound.queue op with
      ⟨failure, hrun⟩ | ⟨reply, b', hrun, hdone⟩
    · rw [hrun]
      exact ih
    · rw [hrun]
      exact hdone.governed ih

theorem Reached.validate (h : Reached policy p) : policy.validate = .ok () := by
  induction h with
  | create h => exact create_validate h
  | run _ _ _ ih => exact ih

/-! ### There and back -/

theorem Sound.accountedShares_eq (hp : p.Sound) :
    accountedShares p.snapshot = .ok p.totals.totalShares := by
  have hsupply := hp.supply
  have hlt := p.totals.totalShares.isLt
  obtain ⟨held, hheld⟩ : ∃ held : Amount, held.val = Bounded.total p.balances.values :=
    ⟨⟨Bounded.total p.balances.values, by omega⟩, rfl⟩
  obtain ⟨waiting, hwaiting⟩ : ∃ waiting : Amount,
      waiting.val = p.totals.queuedShares.val + p.totals.pendingBurn.val :=
    ⟨⟨p.totals.queuedShares.val + p.totals.pendingBurn.val, by omega⟩, rfl⟩
  have hsum : Bounded.sum p.snapshot.balances.values = .ok held := Bounded.sum_eq_ok hheld.symm
  have hadd : p.snapshot.totals.queuedShares.add p.snapshot.totals.pendingBurn = .ok waiting :=
    Bounded.add_eq_ok_iff.2 hwaiting.symm
  have htotal : held.add waiting = .ok p.totals.totalShares :=
    Bounded.add_eq_ok_iff.2 (by omega)
  unfold accountedShares
  simp only [hsum, hadd, htotal, ok_bind]

theorem ofSnapshot_snapshot (hp : p.Sound) (hgoverned : Governed policy p)
    (hpolicy : policy.validate = .ok ()) : ofSnapshot p.snapshot = .ok p := by
  have hregistry : Registry.ofModules p.policy.maxModules p.registry.modules = .ok p.registry := by
    rw [← hgoverned.capacity]
    exact hgoverned.registry.ofModules_eq
  have hversion : ¬ p.snapshot.version.val ≠ snapshotVersion := fun h => h rfl
  have hvalidate : p.snapshot.policy.validate = .ok () := by
    rw [← hpolicy, ← hgoverned.policy]
    rfl
  unfold ofSnapshot
  rw [if_neg hversion, hvalidate, ok_bind, hp.accountedShares_eq, ok_bind,
    if_neg (fun h => h rfl)]
  show (Registry.ofModules p.policy.maxModules p.registry.modules >>= _) = _
  rw [hregistry]
  rfl

/-- A pool made of a snapshot keeps all of it. -/
theorem snapshot_of_ofSnapshot {s : PoolSnapshot} (h : ofSnapshot s = .ok p) : p.snapshot = s := by
  unfold ofSnapshot at h
  split at h
  · cases h
  · next hversion =>
    obtain ⟨_, -, h⟩ := bind_eq_ok.1 h
    obtain ⟨_, -, h⟩ := bind_eq_ok.1 h
    split at h
    · cases h
    · obtain ⟨registry, hregistry, h⟩ := bind_eq_ok.1 h
      cases pure_eq_ok.1 h
      have hmodules : registry.modules = s.modules :=
        congrArg Registry.modules (Registry.ofModules_eq_ok_iff.1 hregistry).1
      have hsame : (⟨snapshotVersion, by decide⟩ : Bounded 16) = s.version :=
        Bounded.ext (Decidable.not_not.1 hversion).symm
      obtain ⟨version, policy, totals, balances, queue, modules, lastReport⟩ := s
      simp only at hmodules hsame
      simp only [snapshot, hmodules, hsame]

/-- A pool that was run from the start is restored from its snapshot as it was, and whatever is
restored has the snapshot it was restored from. -/
theorem restored_exactly (h : Reached policy p) :
    ofSnapshot p.snapshot = .ok p ∧
      ∀ (s : PoolSnapshot) (p' : Pool), ofSnapshot s = .ok p' → p'.snapshot = s :=
  ⟨ofSnapshot_snapshot h.sound h.governed h.validate, fun _ _ => snapshot_of_ofSnapshot⟩

/-- Two modules, one of which changes its fees and takes a deposit; two withdrawals, and a report
that counts the keys of the other one anew and finalizes the first withdrawal. -/
def storedMoves : List Move :=
  [.run (.manage (.add ⟨7, "b", .ofCount 1, 5000, 500, 500, .active, 1, 2, Bounded.zero⟩)),
    .run (.manage (.add ⟨3, "a", .ofCount 2, 10000, 0, 100, .depositsPaused, 4, 0,
      Bounded.zero⟩)),
    .run (.manage (.setFees 7 300 200)),
    .run (.manage (.recordDeposits 7 1 5)),
    .run (.submit .zero 100000),
    .run (.requestWithdrawal .zero 40000 1),
    .run (.requestWithdrawal .zero 30000 2),
    .run (.report ⟨3, .ofInt 2000, Bounded.zero, some Bounded.zero, [⟨3, 9⟩]⟩)]

theorem restored_exactly_stored :
    ∃ p, Reached .standard p ∧
      p.registry.modules.map (fun m => (m.id.val, m.fee.val, m.activeKeys.val)) =
        [(7, 300, 2), (3, 0, 9)] ∧
      p.totals.pendingBurn.val = 785 ∧ ofSnapshot p.snapshot = .ok p ∧
      ∃ p', ofSnapshot p.snapshot = .ok p' ∧ p'.snapshot = p.snapshot := by
  have hcreate : Pool.create .standard = .ok (initial .standard) := rfl
  have hreached := Reached.after (b := Books.fresh (initial .standard)) storedMoves
    (.create hcreate)
  obtain ⟨hrestored, hkept⟩ := restored_exactly hreached
  exact ⟨_, hreached, by decide +kernel, by decide +kernel, hrestored, _, hrestored,
    hkept _ _ hrestored⟩

end Pool
end LiquidStaking

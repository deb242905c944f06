/-
How a keeper starts.

A fresh pool is one that was created and given modules, so a keeper that starts without a snapshot
has a pool that was run from the start.
-/
import LiquidStaking.Proofs.Keeper.Events
import LiquidStaking.Proofs.Keeper.Settings

namespace LiquidStaking

namespace KeeperSettings

variable {s : KeeperSettings}

def addMoves (ms : List ModuleSettings) : List Move :=
  ms.map (fun m => .run (.manage (.add m.toModule)))

theorem after_addMoves : ∀ (ms : List ModuleSettings) {p p' : Pool},
    ms.foldlM (fun p m => p.manage (.add m.toModule)) p = .ok p' →
      (Books.fresh p).after (addMoves ms) = Books.fresh p'
  | [], p, p', h => by
    rw [List.foldlM_nil, pure_eq_ok] at h
    rw [h]
    rfl
  | m :: ms, p, p', h => by
    rw [List.foldlM_cons, bind_eq_ok] at h
    obtain ⟨q, hq, h⟩ := h
    have hrun : ((Books.fresh p).run (.manage (.add m.toModule))).2 = Books.fresh q := by
      simp only [Books.run, Books.fresh, hq]
    show Books.after ((Books.fresh p).run (.manage (.add m.toModule))).2 (addMoves ms) = _
    rw [hrun]
    exact after_addMoves ms h

theorem freshPool_eq_ok {p : Pool} (h : s.freshPool = .ok p) :
    ∃ p₀, Pool.create s.pool = .ok p₀ ∧
      Books.fresh p = (Books.fresh p₀).after (addMoves s.modules) := by
  obtain ⟨p₀, hcreate, h⟩ := bind_eq_ok.1 h
  exact ⟨p₀, hcreate, (after_addMoves s.modules h).symm⟩

end KeeperSettings

namespace Keeper

variable {settings : KeeperSettings} {dryRun : Bool} {k : Keeper}

theorem start_eq_ok_iff : start settings dryRun none = .ok k ↔
    ∃ access p, settings.access = .ok access ∧ settings.freshPool = .ok p ∧
      k = ⟨.create (Books.fresh p) access, Bounded.zero, dryRun⟩ := by
  simp only [start, fresh, bind_eq_ok, mapError_eq_ok, pure_eq_ok]
  constructor
  · rintro ⟨access, haccess, p, hp, rfl⟩
    exact ⟨access, p, haccess, hp, rfl⟩
  · rintro ⟨access, p, haccess, hp, rfl⟩
    exact ⟨access, haccess, p, hp, rfl⟩

theorem live_of_freshPool {p : Pool} (h : settings.freshPool = .ok p) (access : Access) :
    SharedPool.Live settings.pool (.create (Books.fresh p) access) := by
  obtain ⟨p₀, hcreate, hbooks⟩ := KeeperSettings.freshPool_eq_ok h
  exact ⟨⟨p₀, _, hcreate, hbooks⟩, rfl, rfl⟩

/-- A keeper that starts without a snapshot has a pool that was run from the start. -/
theorem live_of_start (h : start settings dryRun none = .ok k) :
    k.shared.Live settings.pool := by
  obtain ⟨access, p, -, hp, rfl⟩ := start_eq_ok_iff.1 h
  exact live_of_freshPool hp access

theorem access_of_start (h : start settings dryRun none = .ok k) :
    settings.access = .ok k.shared.access := by
  obtain ⟨access, p, haccess, -, rfl⟩ := start_eq_ok_iff.1 h
  exact haccess

theorem eventsApplied_of_start (h : start settings dryRun none = .ok k) :
    k.eventsApplied = Bounded.zero := by
  obtain ⟨access, p, -, -, rfl⟩ := start_eq_ok_iff.1 h
  rfl

theorem start_of_validate (h : settings.validate = .ok ()) (dryRun : Bool) :
    ∃ k, start settings dryRun none = .ok k :=
  ⟨_, start_eq_ok_iff.2
    ⟨_, _, settings.access_eq_ok, KeeperSettings.freshPool_of_validate h, rfl⟩⟩

end Keeper
end LiquidStaking

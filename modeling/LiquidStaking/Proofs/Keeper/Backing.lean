/-
The health of a keeper.

The escrow of a keeper that started without a snapshot holds exactly what its pool has locked, so a
look at its health never finds a shortfall.
-/
import LiquidStaking.Proofs.Keeper.Start

namespace LiquidStaking

namespace SharedPool

variable {policy : PoolPolicy} {s : SharedPool}

/-- A quantity of the operations of some events and their answers, added up. -/
def sumOver (f : Operation → Except Failure Reply → Int) : SharedPool → List PoolEvent → Int
  | _, [] => 0
  | s, e :: es => f e.operation (e.apply s).1 + sumOver f (e.apply s).2 es

namespace Live

theorem locked_apply (hs : s.Live policy) (e : PoolEvent) :
    ((e.apply s).2.books.locked : Int) + e.operation.paidOut (e.apply s).1 =
      s.books.locked + e.operation.lockedFor (e.apply s).1 := by
  rcases e.apply_cases hs with ⟨cause, h⟩ | ⟨reply, b', hrun, h⟩
  · rw [h, e.operation.locks_nothing_of_error, e.operation.pays_nothing_of_error]
  · have hlocked := Books.run_locked hs.reached.sound.queue e.operation
    rw [hrun] at hlocked
    rw [h]
    exact hlocked

theorem locked_afterEvents : ∀ (es : List PoolEvent) {s : SharedPool}, s.Live policy →
    ((s.afterEvents es).books.locked : Int) + s.sumOver Operation.paidOut es =
      s.books.locked + s.sumOver Operation.lockedFor es
  | [], _, _ => rfl
  | e :: es, s, hs => by
    have hstep := hs.locked_apply e
    have hrest := locked_afterEvents es (hs.apply e)
    show (((e.apply s).2.afterEvents es).books.locked : Int) + _ = _
    simp only [sumOver]
    omega

theorem balance (hs : s.Live policy) : s.books.escrow.balance = s.books.pool.queue.totalLocked :=
  Bounded.ext hs.backed.balance

theorem healthCheck {k : Keeper} (hk : k.shared.Live policy) : k.healthCheck = .ok () := by
  have hcovered : ¬ k.shared.books.escrow.balance.val < k.shared.view.totalLocked.val := by
    rw [hk.view, hk.balance]
    exact Nat.lt_irrefl _
  simp only [Keeper.healthCheck, SharedPool.escrow, hk.locked_eq, ok_bind]
  show (if _ then _ else _) = _
  rw [if_neg hcovered]
  rfl

end Live
end SharedPool

/-- Whether the escrow of some books holds what is locked, where `locked` ether was locked in all
and `paid` of it claimed. -/
structure Books.Balances (b : Books) (paid locked : Int) : Prop where
  escrow : b.escrow.balance = b.pool.queue.totalLocked
  accounts : paid + b.pool.queue.totalLocked.val = locked

theorem Books.after_balances {policy : PoolPolicy} {p : Pool} (h : Pool.create policy = .ok p)
    (moves : List Move) :
    ((fresh p).after moves).Balances (sumOver Operation.paidOut (fresh p) moves)
      (sumOver Operation.lockedFor (fresh p) moves) := by
  refine ⟨Bounded.ext (after_backed h moves).balance, ?_⟩
  have hlocked := after_locked moves (b := fresh p) (.create h)
  have hnone : (fresh p).locked = 0 := by
    rw [Pool.create_eq_ok h]
    rfl
  rw [hnone] at hlocked
  simp only [locked] at hlocked
  omega

namespace Keeper

variable {settings : KeeperSettings} {dryRun : Bool} {k : Keeper}

theorem events_balance (h : start settings dryRun none = .ok k) (events : List PoolEvent) :
    (k.shared.afterEvents events).books.Balances (k.shared.sumOver Operation.paidOut events)
      (k.shared.sumOver Operation.lockedFor events) := by
  have hlive := live_of_start h
  refine ⟨(hlive.afterEvents events).balance, ?_⟩
  have hlocked := hlive.locked_afterEvents events
  have hnone : k.shared.books.locked = 0 := by
    have hempty := hlive.balance
    obtain ⟨access, p, -, -, rfl⟩ := start_eq_ok_iff.1 h
    exact (congrArg Bounded.val hempty).symm
  rw [hnone] at hlocked
  simp only [Books.locked] at hlocked
  omega

/-- In every run from a new pool, and so for every keeper that starts without a snapshot, the
escrow holds what is locked, and what was ever locked is locked still or was paid to a claim.  So
the keeper is always healthy. -/
theorem escrow_backed :
    (∀ (policy : PoolPolicy) (p : Pool), Pool.create policy = .ok p → ∀ moves : List Move,
      ((Books.fresh p).after moves).Balances
        (Books.sumOver Operation.paidOut (Books.fresh p) moves)
        (Books.sumOver Operation.lockedFor (Books.fresh p) moves)) ∧
      ∀ (settings : KeeperSettings) (dryRun : Bool) (k : Keeper),
        start settings dryRun none = .ok k →
          (∀ events : List PoolEvent, (k.shared.afterEvents events).books.Balances
            (k.shared.sumOver Operation.paidOut events)
            (k.shared.sumOver Operation.lockedFor events)) ∧
          ∀ passes : List KeeperFiles,
            (∃ events, (k.after passes).shared = k.shared.afterEvents events) ∧
              (k.after passes).healthCheck = .ok () := by
  refine ⟨fun policy p h => Books.after_balances h, fun settings dryRun k h => ?_⟩
  refine ⟨events_balance h, fun passes => ⟨k.after_shared passes, ?_⟩⟩
  obtain ⟨events, hevents⟩ := k.after_shared passes
  have hlive : (k.after passes).shared.Live settings.pool := by
    rw [hevents]
    exact (live_of_start h).afterEvents events
  exact hlive.healthCheck

/-- A deposit, a withdrawal, a gain, a loss with a batch, and a claim. -/
def claimedEvents : List PoolEvent :=
  [.submit .zero 100000, .requestWithdrawal .zero 40000 1,
    .report (.repeatByte 2) ⟨1, .ofInt 5000, Bounded.zero, none, []⟩,
    .report (.repeatByte 2) ⟨2, .ofInt (-2000), 300, some Bounded.zero, []⟩,
    .claim Bounded.zero none]

theorem escrow_backed_claimed :
    Pool.create .standard = .ok (Pool.initial .standard) ∧
      ((Books.fresh (Pool.initial .standard)).after Books.paidMoves).Balances 40000
        (Books.sumOver Operation.lockedFor (Books.fresh (Pool.initial .standard))
          Books.paidMoves) ∧
      ∃ k, start .sample false none = .ok k ∧
        (k.shared.afterEvents claimedEvents).books.Balances 40000
          (k.shared.sumOver Operation.lockedFor claimedEvents) ∧
        (k.after [⟨some "", none⟩]).healthCheck = .ok () := by
  obtain ⟨hruns, hkeepers⟩ := escrow_backed
  have hcreate : Pool.create .standard = .ok (Pool.initial .standard) := rfl
  have hpaid : Books.sumOver Operation.paidOut (Books.fresh (Pool.initial .standard))
      Books.paidMoves = 40000 := by decide +kernel
  refine ⟨hcreate, hpaid ▸ hruns _ _ hcreate Books.paidMoves, ?_⟩
  cases hstart : start .sample false none with
  | error fault =>
    have hok : (start .sample false none).toBool = true := by decide +kernel
    rw [hstart] at hok
    cases hok
  | ok k =>
    have hclaimed : ((start .sample false none).map
        (fun k => k.shared.sumOver Operation.paidOut claimedEvents)).toOption = some 40000 := by
      decide +kernel
    rw [hstart] at hclaimed
    obtain ⟨hevents, hpasses⟩ := hkeepers _ _ _ hstart
    exact ⟨k, rfl, Option.some.inj hclaimed ▸ hevents claimedEvents, (hpasses _).2⟩

end Keeper
end LiquidStaking

/-
Shared pools that were run from the start.

Such a pool never halts, so its lock is never left behind, and a write that is refused leaves the
books as they were.  The view is therefore always one of the books of the moment, although nothing
is published when a write fails.
-/
import LiquidStaking.Pool.Shared
import LiquidStaking.Proofs.Pool.EscrowBacking
import LiquidStaking.Proofs.Pool.Restoration

namespace LiquidStaking

/-- Depositing counts what unfinalized requests ask for, and never halts on that. -/
theorem Pool.deposit_refuses {p : Pool} (hv : p.queue.Valid) (limit block : Count) :
    FailsOnly Failure.IsRefusal (p.deposit limit block) := by
  obtain ⟨reserved, hreserved, -⟩ := hv.exists_unfinalizedEther
  unfold deposit
  rw [hreserved, ok_bind]
  refine Failure.lift_bind_refuses (fun _ => ?_)
  refine Failure.lift_bind_refuses (fun _ => ?_)
  refine Failure.lift_bind_refuses (fun _ => ?_)
  refine Failure.lift_bind_refuses (fun _ => ?_)
  refine Failure.lift_bind_refuses (fun _ => ?_)
  refine Failure.lift_bind_refuses (fun _ => ?_)
  exact .pure _

namespace Books

variable {b b' : Books}

theorem update_refuses {α : Type} {reply : α → Reply} {x : Except Failure (α × Pool)}
    (hx : FailsOnly Failure.IsRefusal x) {failure : Failure}
    (h : (b.update reply x).1 = .error failure) : failure.IsRefusal := by
  cases x with
  | error e =>
    cases h
    exact hx _ rfl
  | ok out => cases h

theorem run_refuses (hv : b.pool.queue.Valid) (op : Operation) :
    FailsOnly Failure.IsRefusal (b.run op).1 := by
  intro failure h
  cases op with
  | submit sender amount => exact update_refuses (Failure.mapError_refuses _) h
  | requestWithdrawal owner shares block => exact update_refuses (Failure.mapError_refuses _) h
  | deposit limit block =>
    exact update_refuses (Pool.deposit_refuses hv limit block) h
  | claim id hint =>
    simp only [run, claim] at h
    split at h
    · cases h
    · next cause _ =>
      cases h
      exact ⟨cause, rfl⟩
  | report r =>
    -- Only a report goes on after its checks, and what it checked is all that settling needs.
    rcases report_cases hv r with ⟨cause, hreport⟩ | ⟨o, b', hreport, -⟩
    · simp only [run, hreport] at h
      cases h
      exact ⟨cause, rfl⟩
    · simp only [run, hreport] at h
      cases h
  | manage change =>
    simp only [run] at h
    split at h
    · cases h
    · next cause _ =>
      cases h
      exact ⟨cause, rfl⟩

end Books

namespace SharedPool

/-- A shared pool whose books were run from the start under a policy. -/
structure Live (policy : PoolPolicy) (s : SharedPool) : Prop where
  run : ∃ p moves, Pool.create policy = .ok p ∧ s.books = (Books.fresh p).after moves
  view : s.view = .ofPool s.books.pool
  usable : s.poisoned = false

variable {policy : PoolPolicy} {s : SharedPool}

/-- An operation for an account is refused before it is tried, or goes through the lock. -/
theorem performFor_cases (s : SharedPool) (caller : Address) (op : Operation) :
    (∃ cause, s.performFor caller op = (.error (.refused cause), s)) ∨
      s.performFor caller op = s.write op := by
  unfold performFor
  split
  · exact .inr rfl
  · split
    · next cause _ => exact .inl ⟨cause, rfl⟩
    · unfold perform
      split
      · next cause _ => exact .inl ⟨cause, rfl⟩
      · exact .inr rfl

theorem locked_of_usable (h : s.poisoned = false) : s.locked = .ok s.books := by
  rw [locked, h]
  rfl

/-- A write does with the books what the operation does, and publishes what succeeds. -/
theorem write_eq (hv : s.books.pool.queue.Valid) (hu : s.poisoned = false) (op : Operation) :
    (∃ cause, s.books.run op = (.error (.refused cause), s.books) ∧
        s.write op = (.error (.refused cause), s)) ∨
      ∃ reply b', s.books.run op = (.ok reply, b') ∧
        s.write op = (.ok reply, { s with books := b', view := .ofPool b'.pool }) := by
  rcases Books.run_cases hv op with ⟨failure, hrun⟩ | ⟨reply, b', hrun, -⟩
  · obtain ⟨cause, rfl⟩ := Books.run_refuses hv op failure (by rw [hrun])
    exact .inl ⟨cause, hrun, by simp only [write, locked_of_usable hu, hrun]⟩
  · exact .inr ⟨reply, b', hrun, by simp only [write, locked_of_usable hu, hrun]⟩

namespace Live

theorem reached (hs : s.Live policy) : Pool.Reached policy s.books.pool := by
  obtain ⟨p, moves, hcreate, hbooks⟩ := hs.run
  rw [hbooks]
  exact Pool.Reached.after moves (.create hcreate)

theorem backed (hs : s.Live policy) : Books.Backed policy 0 s.books := by
  obtain ⟨p, moves, hcreate, hbooks⟩ := hs.run
  rw [hbooks]
  exact Books.after_backed hcreate moves

theorem locked_eq (hs : s.Live policy) : s.locked = .ok s.books := locked_of_usable hs.usable

theorem done (hs : s.Live policy) {op : Operation} {answer : Except Failure Reply} {books : Books}
    (h : s.books.run op = (answer, books)) :
    Live policy { s with books, view := .ofPool books.pool } := by
  obtain ⟨p, moves, hcreate, hbooks⟩ := hs.run
  refine ⟨⟨p, moves ++ [.run op], hcreate, ?_⟩, rfl, hs.usable⟩
  show books = List.foldl Books.move (Books.fresh p) (moves ++ [.run op])
  rw [List.foldl_append, List.foldl_cons, List.foldl_nil]
  show books = (((Books.fresh p).after moves).run op).2
  rw [← hbooks, h]

/-- A write is refused and changes nothing, or is done on the books and published. -/
theorem write_cases (hs : s.Live policy) (op : Operation) :
    (∃ cause, s.write op = (.error (.refused cause), s)) ∨
      ∃ reply b', s.books.run op = (.ok reply, b') ∧
        s.write op = (.ok reply, { s with books := b', view := .ofPool b'.pool }) := by
  rcases write_eq hs.reached.sound.queue hs.usable op with ⟨cause, -, h⟩ | h
  · exact .inl ⟨cause, h⟩
  · exact .inr h

end Live
end SharedPool
end LiquidStaking

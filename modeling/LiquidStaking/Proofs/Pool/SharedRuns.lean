/-
A shared pool against the books by themselves.

A caller of a shared pool shows a permit, waits for the lock and looks at a view that a write left
behind.  None of that shows: every call answers what it would answer on the books themselves, with
the permit checked against the grants of the moment, and the view is the one of the books as they
are, although a write that fails publishes nothing.
-/
import LiquidStaking.Proofs.Pool.Shared

namespace LiquidStaking

namespace SharedPool

inductive Call
  | perform (permit : Permit) (op : Operation)
  | permit (account : Address) (role : Role)
  | grant (admin : Permit) (account : Address) (role : Role)
  | revoke (admin : Permit) (account : Address) (role : Role)
  | snapshot
  | escrow
  | view

inductive Answer
  | reply (r : Except Failure Reply)
  | permit (r : Except Fault Permit)
  | regranted (r : Except Fault Unit)
  | snapshot (r : Except Fault PoolSnapshot)
  | escrow (r : Except Fault Escrow)
  | view (v : PoolView)

/-- The permit that a call shows, and the role it has to be for.  Reports are for oracles, deposits
into modules for depositors, what is done to modules is for their managers, and the grants are for
administrators; the other calls are open to everyone. -/
def Call.demand? : Call → Option (Permit × Role)
  | .perform shown (.report _) => some (shown, .oracle)
  | .perform shown (.deposit ..) => some (shown, .depositor)
  | .perform shown (.manage _) => some (shown, .moduleManager)
  | .perform _ (.submit ..) | .perform _ (.requestWithdrawal ..) | .perform _ (.claim ..) => none
  | .grant admin .. | .revoke admin .. => some (admin, .admin)
  | .permit .. | .snapshot | .escrow | .view => none

/-- The answer of a change of the grants, and the pool it leaves. -/
def regrant (s : SharedPool) : Except Fault SharedPool → Answer × SharedPool
  | .ok s' => (.regranted (.ok ()), s')
  | .error cause => (.regranted (.error cause), s)

def call (s : SharedPool) : Call → Answer × SharedPool
  | .perform permit op => (.reply (s.perform permit op).1, (s.perform permit op).2)
  | .permit account role => (.permit (s.permit account role), s)
  | .grant admin account role => s.regrant (s.grant admin account role)
  | .revoke admin account role => s.regrant (s.revoke admin account role)
  | .snapshot => (.snapshot s.snapshot, s)
  | .escrow => (.escrow s.escrow, s)
  | .view => (.view s.view, s)

def calls : SharedPool → List Call → List Answer × SharedPool
  | s, [] => ([], s)
  | s, c :: rest => ((s.call c).1 :: (calls (s.call c).2 rest).1, (calls (s.call c).2 rest).2)

end SharedPool

open SharedPool (Call Answer)

namespace Access

/-- Whether the permit that a call shows is good under these grants, if it needs one. -/
def admits (a : Access) (c : Call) : Except Fault Unit :=
  match c.demand? with
  | none => .ok ()
  | some (permit, role) => a.verify permit role

theorem admits_of_demand {a : Access} {c : Call} {permit : Permit} {role : Role}
    (hc : c.demand? = some (permit, role)) : a.admits c = a.verify permit role := by
  rw [admits, hc]

def admitted? (a : Access) (c : Call) : Option Operation :=
  match c with
  | .perform _ op => (a.admits c).toOption.map (fun _ => op)
  | _ => none

def after (a : Access) : Call → Access
  | .grant admin account role => (a.grant admin account role).toOption.getD a
  | .revoke admin account role => (a.revoke admin account role).toOption.getD a
  | _ => a

/-- The operations of the calls whose permits are good when they are made, in their order. -/
def admitted : Access → List Call → List Operation
  | _, [] => []
  | a, c :: rest => (a.admitted? c).toList ++ (a.after c).admitted rest

end Access

namespace Books

/-- What a call answers on the books themselves, under some grants. -/
def answer (b : Books) (a : Access) (c : Call) : Answer :=
  match c with
  | .perform _ op =>
    match a.admits c with
    | .error cause => .reply (.error (.refused cause))
    | .ok () => .reply (b.run op).1
  | .permit account role => .permit (a.permit account role)
  | .grant admin account role => .regranted ((a.grant admin account role).map (fun _ => ()))
  | .revoke admin account role => .regranted ((a.revoke admin account role).map (fun _ => ()))
  | .snapshot => .snapshot (.ok b.pool.snapshot)
  | .escrow => .escrow (.ok b.escrow)
  | .view => .view (.ofPool b.pool)

def runAll (b : Books) (ops : List Operation) : Books := ops.foldl (fun b op => (b.run op).2) b

/-- What some calls answer on the books themselves, where only the operations of calls with a good
permit are run. -/
def answers : Books → Access → List Call → List Answer
  | _, _, [] => []
  | b, a, c :: rest =>
    b.answer a c :: answers (b.runAll (a.admitted? c).toList) (a.after c) rest

end Books

namespace SharedPool

/-- A shared pool with the books of a reachable pool, an escrow of any kind, and a view of them. -/
structure Fresh (policy : PoolPolicy) (s : SharedPool) : Prop where
  reached : Pool.Reached policy s.books.pool
  view : s.view = .ofPool s.books.pool
  usable : s.poisoned = false

variable {policy : PoolPolicy} {s : SharedPool}

/-- The pool checks for every operation the role that the operation is for. -/
theorem authorize_eq (s : SharedPool) (permit : Permit) (op : Operation) :
    s.authorize permit op = s.access.admits (.perform permit op) := by
  cases op <;> rfl

/-- One call answers what it does on the books, and leaves the books, the grants and the view of
what was run. -/
theorem Fresh.call (hs : s.Fresh policy) (c : Call) :
    (s.call c).1 = s.books.answer s.access c ∧
      (s.call c).2.books = s.books.runAll (s.access.admitted? c).toList ∧
      (s.call c).2.access = s.access.after c ∧ (s.call c).2.Fresh policy := by
  cases c with
  | perform permit op =>
    simp only [SharedPool.call, perform, authorize_eq, Books.answer, Access.admitted?, Access.after]
    cases s.access.admits (.perform permit op) with
    | error cause => exact ⟨rfl, rfl, rfl, hs⟩
    | ok _ =>
      show Answer.reply (s.write op).1 = .reply (s.books.run op).1 ∧
        (s.write op).2.books = (s.books.run op).2 ∧ (s.write op).2.access = s.access ∧
          (s.write op).2.Fresh policy
      have hstep := hs.reached.run s.books.escrow op
      rcases write_eq hs.reached.sound.queue hs.usable op with
        ⟨cause, hrun, hwrite⟩ | ⟨reply, b', hrun, hwrite⟩
      · rw [hrun, hwrite]
        exact ⟨rfl, rfl, rfl, hs⟩
      · rw [hrun] at hstep ⊢
        rw [hwrite]
        exact ⟨rfl, rfl, rfl, hstep, rfl, hs.usable⟩
  | permit account role => exact ⟨rfl, rfl, rfl, hs⟩
  | grant admin account role =>
    simp only [SharedPool.call, SharedPool.grant, Books.answer, Access.after]
    cases s.access.grant admin account role with
    | error cause => exact ⟨rfl, rfl, rfl, hs⟩
    | ok access => exact ⟨rfl, rfl, rfl, hs.reached, hs.view, hs.usable⟩
  | revoke admin account role =>
    simp only [SharedPool.call, SharedPool.revoke, Books.answer, Access.after]
    cases s.access.revoke admin account role with
    | error cause => exact ⟨rfl, rfl, rfl, hs⟩
    | ok access => exact ⟨rfl, rfl, rfl, hs.reached, hs.view, hs.usable⟩
  | snapshot =>
    refine ⟨?_, rfl, rfl, hs⟩
    rw [SharedPool.call, SharedPool.snapshot, locked_of_usable hs.usable]
    rfl
  | escrow =>
    refine ⟨?_, rfl, rfl, hs⟩
    rw [SharedPool.call, SharedPool.escrow, locked_of_usable hs.usable]
    rfl
  | view =>
    refine ⟨?_, rfl, rfl, hs⟩
    rw [SharedPool.call, hs.view]
    rfl

theorem Fresh.calls (hs : s.Fresh policy) (cs : List Call) :
    (s.calls cs).1 = s.books.answers s.access cs ∧
      (s.calls cs).2.books = s.books.runAll (s.access.admitted cs) ∧
      (s.calls cs).2.Fresh policy := by
  induction cs generalizing s with
  | nil => exact ⟨rfl, rfl, hs⟩
  | cons c rest ih =>
    obtain ⟨hanswer, hbooks, haccess, hnext⟩ := hs.call c
    obtain ⟨hanswers, hlast, hfresh⟩ := ih hnext
    refine ⟨?_, ?_, hfresh⟩
    · rw [SharedPool.calls, Books.answers, hanswer, hanswers, hbooks, haccess]
    · rw [SharedPool.calls, hlast, hbooks, haccess, Access.admitted, Books.runAll, Books.runAll,
        Books.runAll, List.foldl_append]

/-- From a new pool on, whatever its escrow and the grants, calls answer what they do on the books
when exactly the operations with a good permit are run there, the books end as those operations
leave them, and the view after the last call is the one of the books.  No call halts. -/
theorem refines_books {p : Pool} (h : Pool.create policy = .ok p) (escrow : Escrow)
    (access : Access) (cs : List Call) :
    ((SharedPool.create ⟨p, escrow⟩ access).calls cs).1 = Books.answers ⟨p, escrow⟩ access cs ∧
      ((SharedPool.create ⟨p, escrow⟩ access).calls cs).2.books =
        Books.runAll ⟨p, escrow⟩ (access.admitted cs) ∧
      ((SharedPool.create ⟨p, escrow⟩ access).calls cs).2.view =
        .ofPool ((SharedPool.create ⟨p, escrow⟩ access).calls cs).2.books.pool ∧
      ((SharedPool.create ⟨p, escrow⟩ access).calls cs).2.poisoned = false := by
  have hs : (SharedPool.create ⟨p, escrow⟩ access).Fresh policy := ⟨.create h, rfl, rfl⟩
  obtain ⟨hanswers, hbooks, hfresh⟩ := hs.calls cs
  exact ⟨hanswers, hbooks, hfresh.view, hfresh.usable⟩

/- An oracle that reports before it may, while it may, and after it no longer may. -/

def revokedCalls (report report' : OracleReport) : List Call :=
  let admin : Permit := ⟨Address.ofCount 1, .admin⟩
  let oracle : Permit := ⟨Address.ofCount 2, .oracle⟩
  [.perform oracle (.submit .zero 1000000), .perform oracle (.report report),
    .grant admin oracle.holder .oracle, .perform oracle (.report report),
    .revoke admin oracle.holder .oracle, .perform oracle (.report report'),
    .perform oracle (.submit .zero Bounded.zero)]

def plainReport (block : Count) (delta : Int) : OracleReport :=
  ⟨block, .ofInt delta, Bounded.zero, none, []⟩

/-- Of three reports the second alone reaches the books, and the deposit of nothing, which fails
there, leaves the view as current as the report left it. -/
theorem refines_books_revoked :
    ∃ s : SharedPool,
      s = ((create ⟨.initial .standard, .empty⟩ (.ofAdmin (Address.ofCount 1))).calls
        (revokedCalls (plainReport 1 500) (plainReport 2 500))).2 ∧
      s.books = Books.runAll ⟨.initial .standard, .empty⟩ [.submit .zero 1000000,
        .report (plainReport 1 500), .submit .zero Bounded.zero] ∧
      s.view = .ofPool s.books.pool ∧ s.view.poolValue.val = 1000500 := by
  have hcreate : Pool.create .standard = .ok (.initial .standard) := rfl
  obtain ⟨-, hbooks, hview, -⟩ := refines_books hcreate .empty (.ofAdmin (Address.ofCount 1))
    (revokedCalls (plainReport 1 500) (plainReport 2 500))
  refine ⟨_, rfl, hbooks, hview, ?_⟩
  rw [hview, hbooks]
  decide +kernel

end SharedPool
end LiquidStaking

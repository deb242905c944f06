/-
Runs of the books.

`Done` says what each operation leaves when it answers.  An operation that fails leaves the books
as they were: once a report is planned, its settlement cannot fail.
-/
import LiquidStaking.Pool.Books
import LiquidStaking.Proofs.Pool.Operations
import LiquidStaking.Proofs.Pool.Planning

namespace LiquidStaking

/-- What can happen to the books: an operation, or a switch of the escrow that lets the payments to
a recipient fail or pass. -/
inductive Move
  | run (op : Operation)
  | reject (recipient : Address)
  | accept (recipient : Address)

namespace Books

def fresh (p : Pool) : Books := ⟨p, .empty⟩

def move (b : Books) : Move → Books
  | .run op => (b.run op).2
  | .reject recipient => { b with escrow := b.escrow.reject recipient }
  | .accept recipient => { b with escrow := b.escrow.accept recipient }

def after (b : Books) (moves : List Move) : Books := moves.foldl move b

/-- An operation on some books that answers, its reply and the books it leaves. -/
inductive Done (b : Books) : Operation → Reply → Books → Prop
  | submit {sender : Address} {amount shares : Amount} {pool : Pool}
      (h : b.pool.submit sender amount = .ok (shares, pool)) :
      Done b (.submit sender amount) (.shares shares) { b with pool }
  | requestWithdrawal {owner : Address} {shares : Amount} {block id : Count} {pool : Pool}
      (h : b.pool.requestWithdrawal owner shares block = .ok (id, pool)) :
      Done b (.requestWithdrawal owner shares block) (.request id) { b with pool }
  | claim {id : Count} {hint : Option Count} {receipt : ClaimReceipt} {pool : Pool}
      {escrow : Escrow}
      (h : b.pool.claim id (hint.map (·.val)) b.escrow = .ok (receipt, pool, escrow)) :
      Done b (.claim id hint) (.receipt receipt) ⟨pool, escrow⟩
  | deposit {limit block : Count} {allocation : DepositAllocation} {pool : Pool}
      (h : b.pool.deposit limit block = .ok (allocation, pool)) :
      Done b (.deposit limit block) (.allocation allocation) { b with pool }
  | report {r : OracleReport} {plan : ReportPlan} (hnewer : b.pool.checkNewer r = .ok ())
      (hplan : b.pool.plan r b.escrow.balance = .ok plan) (hbatch : plan.batch = none) :
      Done b (.report r) (.outcome plan.outcome) { b with pool := b.pool.commit plan b.pool.queue }
  | reportBatch {r : OracleReport} {plan : ReportPlan} {batch : Batch} {escrow : Escrow}
      {queue : WithdrawalQueue} (hnewer : b.pool.checkNewer r = .ok ())
      (hplan : b.pool.plan r b.escrow.balance = .ok plan) (hbatch : plan.batch = some batch)
      (hfund : b.escrow.fund batch.settlement.etherToLock = .ok escrow)
      (hfinalize : b.pool.queue.finalize batch.last batch.settlement.etherToLock batch.poolValue
        batch.shares escrow.balance = .ok queue) :
      Done b (.report r) (.outcome plan.outcome) ⟨b.pool.commit plan queue, escrow⟩
  | manage {change : Registry.Change} {pool : Pool} (h : b.pool.manage change = .ok pool) :
      Done b (.manage change) .done { b with pool }

variable {b b' : Books}

theorem fund_eq_ok {e e' : Escrow} {amount : Amount} (h : e.fund amount = .ok e') :
    e'.balance.val = e.balance.val + amount.val ∧ e' = { e with balance := e'.balance } := by
  unfold Escrow.fund at h
  obtain ⟨balance, hadd, h⟩ := bind_eq_ok.1 h
  cases pure_eq_ok.1 h
  exact ⟨(Bounded.add_eq_ok_iff.1 hadd).symm, rfl⟩

theorem exists_fund {e : Escrow} {amount balance : Amount}
    (h : balance.val = e.balance.val + amount.val) : e.fund amount = .ok { e with balance } := by
  have hadd : e.balance.add amount = .ok balance := Bounded.add_eq_ok_iff.2 h.symm
  rw [Escrow.fund, hadd]
  rfl

theorem update_cases {α : Type} (b : Books) (reply : α → Reply)
    (x : Except Failure (α × Pool)) :
    (∃ failure, b.update reply x = (.error failure, b)) ∨
      ∃ a pool, x = .ok (a, pool) ∧ b.update reply x = (.ok (reply a), { b with pool }) := by
  cases x with
  | error failure => exact .inl ⟨failure, rfl⟩
  | ok out => exact .inr ⟨out.1, out.2, rfl, rfl⟩

/-- The batch of a plan was checked against the funded escrow, and the history takes it. -/
theorem exists_settled (hv : b.pool.queue.Valid) {r : OracleReport} {plan : ReportPlan}
    (hplan : b.pool.plan r b.escrow.balance = .ok plan) {batch : Batch}
    (hbatch : plan.batch = some batch) :
    ∃ escrow queue, b.escrow.fund batch.settlement.etherToLock = .ok escrow ∧
      b.pool.queue.finalize batch.last batch.settlement.etherToLock batch.poolValue batch.shares
        escrow.balance = .ok queue := by
  obtain ⟨s, hs⟩ := Pool.exists_planSteps hplan
  obtain ⟨burn, hb⟩ := hs.of_some hbatch
  obtain ⟨funded, locked, hfunded, hcheck⟩ := hb.checked
  obtain ⟨queue, hfinalize⟩ := hv.finalize_of_check hcheck
  rw [← hb.priced.1, ← hb.priced.2] at hfinalize
  exact ⟨_, queue, exists_fund hfunded, hfinalize⟩

theorem settle_of_plan (hv : b.pool.queue.Valid) {r : OracleReport} {plan : ReportPlan}
    (hnewer : b.pool.checkNewer r = .ok ())
    (hplan : b.pool.plan r b.escrow.balance = .ok plan) :
    ∃ b', b.settle plan = (.ok plan.outcome, b') ∧
      Done b (.report r) (.outcome plan.outcome) b' := by
  cases hbatch : plan.batch with
  | none =>
    refine ⟨_, ?_, .report hnewer hplan hbatch⟩
    rw [settle, hbatch]
  | some batch =>
    obtain ⟨escrow, queue, hfund, hfinalize⟩ := exists_settled hv hplan hbatch
    refine ⟨_, ?_, .reportBatch hnewer hplan hbatch hfund hfinalize⟩
    simp only [settle, hbatch, hfund, hfinalize]

theorem report_cases (hv : b.pool.queue.Valid) (r : OracleReport) :
    (∃ cause, b.report r = (.error (.refused cause), b)) ∨
      ∃ o b', b.report r = (.ok o, b') ∧ Done b (.report r) (.outcome o) b' := by
  cases hnewer : b.pool.checkNewer r with
  | error cause =>
    refine .inl ⟨cause, ?_⟩
    rw [report, hnewer]
  | ok _ =>
    cases hplan : b.pool.plan r b.escrow.balance with
    | error cause =>
      refine .inl ⟨cause, ?_⟩
      simp only [report, hnewer, hplan]
    | ok plan =>
      obtain ⟨b', hsettle, hdone⟩ := settle_of_plan hv hnewer hplan
      refine .inr ⟨plan.outcome, b', ?_, hdone⟩
      simp only [report, hnewer, hplan, hsettle]

theorem exists_plan (hv : b.pool.queue.Valid) {r : OracleReport} {o : ReportOutcome}
    (h : b.report r = (.ok o, b')) :
    ∃ plan, b.pool.plan r b.escrow.balance = .ok plan ∧ o = plan.outcome ∧
      b'.pool = b.pool.commit plan b'.pool.queue := by
  rcases report_cases hv r with ⟨cause, hfailed⟩ | ⟨o', b'', hreport, hdone⟩
  · rw [h] at hfailed
    cases hfailed
  · rw [h] at hreport
    cases hreport
    cases hdone with
    | report _ hplan _ => exact ⟨_, hplan, rfl, rfl⟩
    | reportBatch _ hplan _ _ _ => exact ⟨_, hplan, rfl, rfl⟩

theorem exists_steps (hv : b.pool.queue.Valid) {r : OracleReport} {o : ReportOutcome}
    (h : b.report r = (.ok o, b')) :
    ∃ plan s, Pool.PlanSteps.Make s b.pool r b.escrow.balance plan ∧ o = plan.outcome ∧
      b'.pool = b.pool.commit plan b'.pool.queue := by
  obtain ⟨plan, hplan, houtcome, hpool⟩ := exists_plan hv h
  obtain ⟨s, hs⟩ := Pool.exists_planSteps hplan
  exact ⟨plan, s, hs, houtcome, hpool⟩

/-- Every operation is done, or fails and leaves the books as they were. -/
theorem run_cases (hv : b.pool.queue.Valid) (op : Operation) :
    (∃ failure, b.run op = (.error failure, b)) ∨
      ∃ reply b', b.run op = (.ok reply, b') ∧ Done b op reply b' := by
  cases op with
  | submit sender amount =>
    refine (b.update_cases .shares _).imp id ?_
    rintro ⟨shares, pool, hx, h⟩
    exact ⟨_, _, h, .submit (mapError_eq_ok.1 hx)⟩
  | requestWithdrawal owner shares block =>
    refine (b.update_cases .request _).imp id ?_
    rintro ⟨id, pool, hx, h⟩
    exact ⟨_, _, h, .requestWithdrawal (mapError_eq_ok.1 hx)⟩
  | deposit limit block =>
    refine (b.update_cases .allocation _).imp id ?_
    rintro ⟨allocation, pool, hx, h⟩
    exact ⟨_, _, h, .deposit hx⟩
  | claim id hint =>
    cases h : b.pool.claim id (hint.map (·.val)) b.escrow with
    | error cause => exact .inl ⟨.refused cause, by rw [run, Books.claim, h]⟩
    | ok out =>
      exact .inr ⟨.receipt out.1, ⟨out.2.1, out.2.2⟩, by rw [run, Books.claim, h], .claim h⟩
  | report r =>
    rcases report_cases hv r with ⟨cause, h⟩ | ⟨o, b', h, hdone⟩
    · exact .inl ⟨.refused cause, by rw [run, h]⟩
    · exact .inr ⟨.outcome o, b', by rw [run, h], hdone⟩
  | manage change =>
    cases h : b.pool.manage change with
    | error cause => exact .inl ⟨.refused cause, by rw [run, h]⟩
    | ok pool => exact .inr ⟨.done, { b with pool }, by rw [run, h], .manage h⟩

end Books

/-- The pools that a policy can reach, each operation with an escrow of any kind. -/
inductive Pool.Reached (policy : PoolPolicy) : Pool → Prop
  | create {p : Pool} (h : Pool.create policy = .ok p) : Reached policy p
  | run {p : Pool} (h : Reached policy p) (escrow : Escrow) (op : Operation) :
      Reached policy ((Books.mk p escrow).run op).2.pool

theorem Pool.Reached.after {policy : PoolPolicy} :
    ∀ (moves : List Move) {b : Books}, Pool.Reached policy b.pool →
      Pool.Reached policy (b.after moves).pool
  | [], _, h => h
  | .run op :: rest, b, h => Pool.Reached.after rest (h.run b.escrow op)
  | .reject _ :: rest, _, h => Pool.Reached.after rest h
  | .accept _ :: rest, _, h => Pool.Reached.after rest h

end LiquidStaking

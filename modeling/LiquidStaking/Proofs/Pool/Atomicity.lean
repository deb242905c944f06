/-
All or nothing.

An operation that fails leaves the pool and its escrow as they were.  A report funds the escrow and
finalizes its batch before it takes over the totals, so this rests on its plan: every check of the
settlement is made while planning, and the escrow always holds what is locked.
-/
import LiquidStaking.Proofs.Pool.Refusals
import LiquidStaking.Proofs.Pool.ShareLedger
import LiquidStaking.Proofs.Withdrawal.Claims

namespace LiquidStaking

theorem Pool.create_validate {policy : PoolPolicy} {p : Pool} (h : Pool.create policy = .ok p) :
    policy.validate = .ok () := by
  unfold Pool.create at h
  obtain ⟨_, hvalidate, -⟩ := bind_eq_ok.1 h
  exact hvalidate

namespace Books

open Fault

/-- The books of a new pool whose escrow holds `balance`. -/
def opened (p : Pool) (balance : Amount) : Books := ⟨p, .ofBalance balance⟩

/-- Books of a policy whose escrow holds what is locked, and `spare` ether besides. -/
structure Backed (policy : PoolPolicy) (spare : Nat) (b : Books) : Prop where
  policy : b.pool.policy = policy
  balance : b.escrow.balance.val = b.pool.queue.totalLocked.val + spare

/-- Books that took over a report of a block, or of one after it. -/
def HasReported (block : Count) (b : Books) : Prop :=
  ∃ last, b.pool.lastReport = some last ∧ block.val ≤ last.val

variable {policy : PoolPolicy} {spare : Nat} {b b' : Books} {op : Operation} {reply : Reply}

/-- What the operations of a run keep that answer, and every switch of the escrow, the run keeps. -/
theorem after_keeps_of {P : Books → Prop}
    (hswitch : ∀ {b : Books} (rejecting : AddressSet), P b →
      P { b with escrow := { b.escrow with rejecting } }) :
    ∀ (moves : List Move) {b : Books},
      (∀ {b op reply b'}, .run op ∈ moves → Pool.Reached policy b.pool → P b →
        Done b op reply b' → P b') →
        Pool.Reached policy b.pool → P b → P (b.after moves)
  | [], _, _, _, hb => hb
  | .run op :: rest, b, hdone, hr, hb => by
    refine after_keeps_of hswitch rest (b := (b.run op).2)
      (fun hop => hdone (List.mem_cons_of_mem _ hop)) (hr.run b.escrow op) ?_
    rcases run_cases hr.sound.queue op with ⟨failure, h⟩ | ⟨reply, b', h, hd⟩
    · rw [h]
      exact hb
    · rw [h]
      exact hdone List.mem_cons_self hr hb hd
  | .reject recipient :: rest, b, hdone, hr, hb =>
    after_keeps_of hswitch rest (b := b.move (.reject recipient))
      (fun hop => hdone (List.mem_cons_of_mem _ hop)) hr (hswitch _ hb)
  | .accept recipient :: rest, b, hdone, hr, hb =>
    after_keeps_of hswitch rest (b := b.move (.accept recipient))
      (fun hop => hdone (List.mem_cons_of_mem _ hop)) hr (hswitch _ hb)

theorem after_keeps {P : Books → Prop}
    (hdone : ∀ {b op reply b'}, P b → Done b op reply b' → P b')
    (hswitch : ∀ {b : Books} (rejecting : AddressSet), P b →
      P { b with escrow := { b.escrow with rejecting } })
    (moves : List Move) {b : Books} (hr : Pool.Reached policy b.pool) (hb : P b) :
    P (b.after moves) :=
  after_keeps_of hswitch moves (fun _ _ hb hd => hdone hb hd) hr hb

theorem Done.backed (hb : Backed policy spare b) (h : Done b op reply b') :
    Backed policy spare b' := by
  obtain ⟨hpolicy, hbalance⟩ := hb
  cases h with
  | submit h =>
    obtain ⟨-, -, _, _, _, -, -, -, rfl⟩ := Pool.submit_eq_ok h
    exact ⟨hpolicy, hbalance⟩
  | requestWithdrawal h =>
    obtain ⟨_, _, _, queue, -, -, -, henqueue, rfl⟩ := Pool.requestWithdrawal_eq_ok h
    obtain ⟨-, -, -, -, _, _, -, -, rfl⟩ := WithdrawalQueue.enqueue_eq_ok_iff.1 henqueue
    exact ⟨hpolicy, hbalance⟩
  | @claim id hint receipt pool escrow h =>
    obtain ⟨queue, hclaim, rfl⟩ := Pool.claim_eq_ok h
    obtain ⟨_, _, locked, amount, -, -, -, -, -, hlocked, htransfer, -, rfl⟩ :=
      WithdrawalQueue.claim_eq_ok_iff.1 hclaim
    have hpaid := (Escrow.transfer_eq_ok htransfer).balance
    refine ⟨hpolicy, ?_⟩
    show escrow.balance.val = locked.val + spare
    omega
  | deposit h =>
    obtain ⟨_, _, _, _, -, -, -, rfl⟩ := Pool.deposit_eq_ok h
    exact ⟨hpolicy, hbalance⟩
  | manage h =>
    obtain ⟨_, rfl⟩ := Pool.manage_eq_ok h
    exact ⟨hpolicy, hbalance⟩
  | report _ _ _ => exact ⟨hpolicy, hbalance⟩
  | @reportBatch r plan batch escrow queue _ _ _ hfund hfinalize =>
    obtain ⟨hfunded, -⟩ := fund_eq_ok hfund
    obtain ⟨-, -, -, -, -, -, hlocked, -, -⟩ := WithdrawalQueue.finalize_eq_ok hfinalize
    refine ⟨hpolicy, ?_⟩
    show escrow.balance.val = queue.totalLocked.val + spare
    omega

theorem newer_of_checkNewer {p : Pool} {r : OracleReport} (h : p.checkNewer r = .ok ())
    {last : Count} (hlast : p.lastReport = some last) : last.val < r.block.val := by
  simp only [Pool.checkNewer, hlast] at h
  split at h
  · cases h
  · next hnewer => exact Nat.not_le.1 hnewer

theorem block_of_plan {p : Pool} {r : OracleReport} {balance : Amount} {plan : ReportPlan}
    (h : p.plan r balance = .ok plan) : plan.outcome.block = r.block := by
  obtain ⟨s, hs⟩ := Pool.exists_planSteps h
  exact hs.block

theorem Done.hasReported {block : Count} (hb : HasReported block b) (h : Done b op reply b') :
    HasReported block b' := by
  obtain ⟨last, hlast, hle⟩ := hb
  -- A report that is accepted takes the place of an older one.
  have hlater : ∀ {r : OracleReport} {plan : ReportPlan}, b.pool.checkNewer r = .ok () →
      b.pool.plan r b.escrow.balance = .ok plan → block.val ≤ plan.outcome.block.val := by
    intro r plan hnewer hplan
    have hlt := newer_of_checkNewer hnewer hlast
    rw [block_of_plan hplan]
    omega
  cases h with
  | submit h =>
    obtain ⟨-, -, _, _, _, -, -, -, rfl⟩ := Pool.submit_eq_ok h
    exact ⟨last, hlast, hle⟩
  | requestWithdrawal h =>
    obtain ⟨_, _, _, _, -, -, -, -, rfl⟩ := Pool.requestWithdrawal_eq_ok h
    exact ⟨last, hlast, hle⟩
  | claim h =>
    obtain ⟨_, -, rfl⟩ := Pool.claim_eq_ok h
    exact ⟨last, hlast, hle⟩
  | deposit h =>
    obtain ⟨_, _, _, _, -, -, -, rfl⟩ := Pool.deposit_eq_ok h
    exact ⟨last, hlast, hle⟩
  | manage h =>
    obtain ⟨_, rfl⟩ := Pool.manage_eq_ok h
    exact ⟨last, hlast, hle⟩
  | report hnewer hplan _ => exact ⟨_, rfl, hlater hnewer hplan⟩
  | reportBatch hnewer hplan _ _ _ => exact ⟨_, rfl, hlater hnewer hplan⟩

theorem run_report (b : Books) (r : OracleReport) :
    (b.run (.report r)).2 = (b.report r).2 := by
  rcases h : b.report r with ⟨_ | o, b'⟩
  · rw [run, h]
  · rw [run, h]

theorem hasReported_of_report (hv : b.pool.queue.Valid) {r : OracleReport} {o : ReportOutcome}
    (h : b.report r = (.ok o, b')) : HasReported r.block b' := by
  obtain ⟨plan, hplan, -, hpool⟩ := exists_plan hv h
  refine ⟨plan.outcome.block, ?_, ?_⟩
  · rw [hpool]
    rfl
  · rw [block_of_plan hplan]

theorem report_of_hasReported {block : Count} (hb : HasReported block b) {r : OracleReport}
    (hr : r.block.val ≤ block.val) :
    ∃ last : Count, block.val ≤ last.val ∧
      b.report r = (.error (.refused (.staleReport r.block.val last.val)), b) := by
  obtain ⟨last, hlast, hle⟩ := hb
  have hstale : b.pool.checkNewer r = .error (.staleReport r.block.val last.val) := by
    simp only [Pool.checkNewer, hlast]
    rw [if_pos (Nat.le_trans hr hle)]
  exact ⟨last, hle, by rw [report, hstale]⟩

/-- A report fails with what refuses it while it is checked and planned, and with nothing else. -/
theorem report_fails {P : Fault → Prop} (hP : AllowsReport P)
    (hshort : b.pool.AllowsShortages b.escrow.balance P) (hv : b.pool.queue.Valid)
    (hpolicy : b.pool.policy.validate = .ok ()) {r : OracleReport} {failure : Failure}
    (h : (b.report r).1 = .error failure) : ∃ cause : Fault, failure = .refused cause ∧ P cause := by
  cases hnewer : b.pool.checkNewer r with
  | error cause =>
    simp only [report, hnewer] at h
    cases h
    exact ⟨cause, rfl, Pool.checkNewer_fails hP _ _ cause hnewer⟩
  | ok _ =>
    cases hplan : b.pool.plan r b.escrow.balance with
    | error cause =>
      simp only [report, hnewer, hplan] at h
      cases h
      exact ⟨cause, rfl, Pool.plan_fails hP hshort hv hpolicy r cause hplan⟩
    | ok plan =>
      obtain ⟨b', hsettle, -⟩ := settle_of_plan hv hnewer hplan
      simp only [report, hnewer, hplan, hsettle] at h
      cases h

theorem report_refused (hv : b.pool.queue.Valid) (hpolicy : b.pool.policy.validate = .ok ())
    (hbacked : b.pool.queue.totalLocked.val ≤ b.escrow.balance.val) {r : OracleReport}
    {failure : Failure} (h : (b.report r).1 = .error failure) :
    ∃ cause : Fault, failure = .refused cause ∧ cause.refusesReport = true :=
  report_fails refusesReport_allowsReport
    ⟨fun _ _ _ _ _ _ _ _ _ _ => rfl, fun hless => absurd hless (Nat.not_lt.2 hbacked)⟩ hv hpolicy h

/-- What makes operations on some books all or nothing. -/
structure Atomic (b : Books) : Prop where
  /-- An operation that fails leaves the pool and the escrow as they were. -/
  unchanged : ∀ (op : Operation) (failure : Failure),
    (b.run op).1 = .error failure → (b.run op).2 = b
  /-- A batch that is planned is funded and finalized. -/
  settled : ∀ (r : OracleReport) (plan : ReportPlan) (batch : Batch),
    b.pool.plan r b.escrow.balance = .ok plan → plan.batch = some batch →
      ∃ escrow queue, b.escrow.fund batch.settlement.etherToLock = .ok escrow ∧
        b.pool.queue.finalize batch.last batch.settlement.etherToLock batch.poolValue batch.shares
          escrow.balance = .ok queue
  /-- A report that fails is refused; never because its budget was used, nor because the escrow
  holds too little. -/
  refused : ∀ (r : OracleReport) (failure : Failure), (b.report r).1 = .error failure →
    ∃ cause : Fault, failure = .refused cause ∧ cause.refusesReport = true ∧
      (∀ used limit, cause ≠ .budgetConsumed used limit) ∧
      ∀ required available, cause ≠ .insufficientEscrow required available

theorem atomic_of_backed (hreached : Pool.Reached policy b.pool)
    (hpolicy : policy.validate = .ok ()) (hb : Backed policy spare b) : Atomic b where
  unchanged := by
    intro op failure hfail
    rcases run_cases hreached.sound.queue op with ⟨failure', h⟩ | ⟨reply, b', h, -⟩
    · rw [h]
    · rw [h] at hfail
      cases hfail
  settled := fun r plan batch hplan hbatch => exists_settled hreached.sound.queue hplan hbatch
  refused := by
    intro r failure hfail
    have hle : b.pool.queue.totalLocked.val ≤ b.escrow.balance.val := by
      rw [hb.balance]
      exact Nat.le_add_right _ _
    obtain ⟨cause, hcause, hrefuses⟩ :=
      report_refused hreached.sound.queue (hb.policy ▸ hpolicy) hle hfail
    refine ⟨cause, hcause, hrefuses, fun used limit h => ?_, fun required available h => ?_⟩
    · rw [h] at hrefuses
      cases hrefuses
    · rw [h] at hrefuses
      cases hrefuses

/-- After any run every operation is all or nothing, and a report that is not newer than one that
was accepted is refused and changes nothing. -/
theorem all_or_nothing {p : Pool} (h : Pool.create policy = .ok p) (balance : Amount)
    (moves : List Move) :
    Atomic ((opened p balance).after moves) ∧
      ∀ (earlier later : List Move) (accepted r : OracleReport) (o : ReportOutcome),
        moves = earlier ++ .run (.report accepted) :: later →
          (((opened p balance).after earlier).report accepted).1 = .ok o →
            r.block.val ≤ accepted.block.val →
              ∃ last : Count, accepted.block.val ≤ last.val ∧
                ((opened p balance).after moves).report r =
                  (.error (.refused (.staleReport r.block.val last.val)),
                    (opened p balance).after moves) := by
  have hreached : Pool.Reached policy (opened p balance).pool := .create h
  have hfresh : Backed policy balance.val (opened p balance) := by
    obtain rfl := Pool.create_eq_ok h
    exact ⟨rfl, (Nat.zero_add _).symm⟩
  refine ⟨?_, fun earlier later accepted r o hmoves hok hr => ?_⟩
  · exact atomic_of_backed (Pool.Reached.after moves hreached) (Pool.create_validate h)
      (after_keeps (fun hb hd => hd.backed hb) (fun _ hb => ⟨hb.policy, hb.balance⟩) moves hreached
        hfresh)
  · have hbefore := Pool.Reached.after earlier hreached
    have hmid : HasReported accepted.block
        (((opened p balance).after earlier).move (.run (.report accepted))) := by
      rw [move, run_report]
      exact hasReported_of_report hbefore.sound.queue (Prod.ext hok rfl)
    have hlast : HasReported accepted.block ((opened p balance).after moves) := by
      rw [hmoves, after, List.foldl_append, List.foldl_cons]
      exact after_keeps (fun hb hd => hd.hasReported hb) (fun _ hb => hb) later
        (hbefore.run _ (.report accepted)) hmid
    exact report_of_hasReported hlast hr

def beforeBatch : List Move :=
  [.run (.submit .zero 100000), .run (.submit .zero 20000),
    .run (.requestWithdrawal .zero 40000 Bounded.zero),
    .run (.report ⟨1, .ofInt 5000, Bounded.zero, none, []⟩)]

def batchOfOne : OracleReport := ⟨2, .ofInt (-2000), 300, some Bounded.zero, []⟩

/-- A claim that is rejected and retried, and a report that asks for the same batch again. -/
def afterBatch : List Move :=
  [.reject .zero, .run (.claim Bounded.zero none), .accept .zero,
    .run (.claim Bounded.zero none), .run (.report { batchOfOne with block := 3 })]

theorem all_or_nothing_batch :
    Pool.create .standard = .ok (Pool.initial .standard) ∧
      Atomic ((opened (Pool.initial .standard) 7).after
        (beforeBatch ++ .run (.report batchOfOne) :: afterBatch)) ∧
      ∃ last : Count, 2 ≤ last.val ∧
        ((opened (Pool.initial .standard) 7).after
          (beforeBatch ++ .run (.report batchOfOne) :: afterBatch)).report batchOfOne =
            (.error (.refused (.staleReport 2 last.val)),
              (opened (Pool.initial .standard) 7).after
                (beforeBatch ++ .run (.report batchOfOne) :: afterBatch)) := by
  have hcreate : Pool.create .standard = .ok (Pool.initial .standard) := rfl
  obtain ⟨hatomic, hstale⟩ := all_or_nothing hcreate 7
    (beforeBatch ++ .run (.report batchOfOne) :: afterBatch)
  cases h : (((opened (Pool.initial .standard) 7).after beforeBatch).report batchOfOne).1 with
  | error failure =>
    have hok : (((opened (Pool.initial .standard) 7).after beforeBatch).report
        batchOfOne).1.toBool = true := by decide +kernel
    rw [h] at hok
    cases hok
  | ok o =>
    exact ⟨hcreate, hatomic,
      hstale beforeBatch afterBatch batchOfOne batchOfOne o rfl h (Nat.le_refl 2)⟩

end Books
end LiquidStaking

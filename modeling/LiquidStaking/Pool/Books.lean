/-
A pool together with its escrow.

The books run operations.  Each answers a reply or a failure, and always the books it leaves: a
report that fails after its ether has gone into escrow leaves it there.
-/
import LiquidStaking.Pool.Report

namespace LiquidStaking

structure Books where
  pool : Pool
  escrow : Escrow
deriving DecidableEq

inductive Operation
  | submit (sender : Address) (amount : Amount)
  | requestWithdrawal (owner : Address) (shares : Amount) (block : Count)
  | claim (id : Count) (hint : Option Count)
  | deposit (limit block : Count)
  | report (r : OracleReport)
  | manage (change : Registry.Change)

inductive Reply
  | shares (n : Amount)
  | request (id : Count)
  | receipt (r : ClaimReceipt)
  | allocation (a : DepositAllocation)
  | outcome (o : ReportOutcome)
  | done

namespace Books

/-- Carry out a plan: fund the escrow for its batch, finalize the batch, and take over the rest. -/
def settle (b : Books) (plan : ReportPlan) : Except Failure ReportOutcome × Books :=
  match plan.batch with
  | none => (.ok plan.outcome, { b with pool := b.pool.commit plan b.pool.queue })
  | some batch =>
    match b.escrow.fund batch.settlement.etherToLock with
    | .error cause => (.error (.refused cause), b)
    | .ok escrow =>
      match b.pool.queue.finalize batch.last batch.settlement.etherToLock batch.poolValue
          batch.shares escrow.balance with
      | .error failure => (.error failure, { b with escrow })
      | .ok queue => (.ok plan.outcome, ⟨b.pool.commit plan queue, escrow⟩)

def report (b : Books) (r : OracleReport) : Except Failure ReportOutcome × Books :=
  match b.pool.checkNewer r with
  | .error cause => (.error (.refused cause), b)
  | .ok () =>
    match b.pool.plan r b.escrow.balance with
    | .error cause => (.error (.refused cause), b)
    | .ok plan => b.settle plan

def update (b : Books) {α : Type} (reply : α → Reply) :
    Except Failure (α × Pool) → Except Failure Reply × Books
  | .ok (a, pool) => (.ok (reply a), { b with pool })
  | .error failure => (.error failure, b)

def claim (b : Books) (id : Count) (hint : Option Nat) : Except Failure Reply × Books :=
  match b.pool.claim id hint b.escrow with
  | .ok (receipt, pool, escrow) => (.ok (.receipt receipt), ⟨pool, escrow⟩)
  | .error cause => (.error (.refused cause), b)

def run (b : Books) : Operation → Except Failure Reply × Books
  | .submit sender amount => b.update .shares ((b.pool.submit sender amount).mapError .refused)
  | .requestWithdrawal owner shares block =>
    b.update .request ((b.pool.requestWithdrawal owner shares block).mapError .refused)
  | .claim id hint => b.claim id (hint.map (·.val))
  | .deposit limit block => b.update .allocation (b.pool.deposit limit block)
  | .report r =>
    match b.report r with
    | (.ok outcome, b) => (.ok (.outcome outcome), b)
    | (.error failure, b) => (.error failure, b)
  | .manage change =>
    match b.pool.manage change with
    | .ok pool => (.ok .done, { b with pool })
    | .error cause => (.error (.refused cause), b)

end Books

end LiquidStaking

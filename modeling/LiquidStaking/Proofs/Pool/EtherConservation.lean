/-
Ether conservation.

Ether is buffered, staked, held in escrow or paid out.  It comes in with deposits and with reports,
whose balance change may be a loss, and every other move only carries it from one holder to
another.
-/
import LiquidStaking.Proofs.Escrow
import LiquidStaking.Proofs.Pool.ShareLedger

namespace LiquidStaking

namespace Escrow

variable {e e' : Escrow}

/-- All that an escrow holds and has paid out. -/
def handled (e : Escrow) : Nat := e.balance.val + Bounded.total e.paid.values

theorem transfer_handled {recipient : Address} {amount : Amount}
    (h : e.transfer recipient amount = .ok e') : e'.handled = e.handled := by
  obtain ⟨-, balance, credit, hbalance, hcredit, rfl⟩ := transfer_eq_ok_iff.1 h
  have hbefore : e.paid.amountAt recipient = (e.paidTo recipient).val := rfl
  have htotal := AddressMap.total_insert e.paid recipient credit
  show balance.val + Bounded.total (e.paid.insert recipient credit).values = e.handled
  unfold handled
  omega

end Escrow

def PoolTotals.ether (t : PoolTotals) : Nat := t.bufferedEther.val + t.stakedEther.val

namespace Operation

def deposited : Operation → Except Failure Reply → Int
  | .submit _ amount, .ok _ => amount.val
  | _, _ => 0

def balanceChange : Operation → Except Failure Reply → Int
  | .report r, .ok _ => r.delta.val
  | _, _ => 0

def rewardsPulled : Operation → Except Failure Reply → Int
  | .report _, .ok (.outcome o) => o.rewardsApplied.val
  | _, _ => 0

/-- The ether that an accepted report locks for its batch. -/
def lockedFor : Operation → Except Failure Reply → Int
  | .report _, .ok (.outcome o) => o.finalization.elim 0 (fun s => (s.etherToLock.val : Int))
  | _, _ => 0

/-- Whether an operation only carries ether from one holder to another. -/
def isInternal : Operation → Bool
  | .submit .. | .report _ => false
  | .requestWithdrawal .. | .claim .. | .deposit .. | .manage _ => true

theorem brings_nothing_of_internal {op : Operation} (h : op.isInternal = true)
    (answer : Except Failure Reply) :
    op.deposited answer = 0 ∧ op.balanceChange answer = 0 ∧ op.rewardsPulled answer = 0 := by
  cases op with
  | submit => cases h
  | report => cases h
  | requestWithdrawal => exact ⟨rfl, rfl, rfl⟩
  | claim => exact ⟨rfl, rfl, rfl⟩
  | deposit => exact ⟨rfl, rfl, rfl⟩
  | manage => exact ⟨rfl, rfl, rfl⟩

theorem brings_nothing_of_error (op : Operation) (failure : Failure) :
    op.deposited (.error failure) = 0 ∧ op.balanceChange (.error failure) = 0 ∧
      op.rewardsPulled (.error failure) = 0 := by
  cases op <;> exact ⟨rfl, rfl, rfl⟩

/-- The ether that an operation brings into the pool, negative for a loss. -/
def brought (op : Operation) (answer : Except Failure Reply) : Int :=
  op.deposited answer + op.balanceChange answer + op.rewardsPulled answer

theorem brought_of_error (op : Operation) (failure : Failure) : op.brought (.error failure) = 0 := by
  obtain ⟨hdeposited, hchange, hpulled⟩ := op.brings_nothing_of_error failure
  rw [brought, hdeposited, hchange, hpulled]
  rfl

theorem locks_nothing_of_error (op : Operation) (failure : Failure) :
    op.lockedFor (.error failure) = 0 := by
  cases op <;> rfl

theorem brought_of_internal {op : Operation} (h : op.isInternal = true)
    (answer : Except Failure Reply) : op.brought answer = 0 := by
  obtain ⟨hdeposited, hchange, hpulled⟩ := brings_nothing_of_internal h answer
  rw [brought, hdeposited, hchange, hpulled]
  rfl

theorem brought_report (r : OracleReport) (o : ReportOutcome) :
    (Operation.report r).brought (.ok (.outcome o)) = r.delta.val + o.rewardsApplied.val := by
  simp only [brought, deposited, balanceChange, rewardsPulled, Int.zero_add]

theorem brought_submit (sender : Address) (amount shares : Amount) :
    (Operation.submit sender amount).brought (.ok (.shares shares)) = amount.val := by
  simp only [brought, deposited, balanceChange, rewardsPulled, Int.add_zero]

end Operation

theorem Pool.PlanSteps.Make.lockedFor_eq {s : PlanSteps} {p : Pool} {r : OracleReport}
    {balance : Amount} {plan : ReportPlan} (hs : s.Make p r balance plan) :
    (Operation.report r).lockedFor (.ok (.outcome plan.outcome)) = plan.locked := by
  rw [Operation.lockedFor, hs.finalization, ← hs.batch, ReportPlan.locked]
  cases plan.batch <;> rfl

namespace Books

def holdings (b : Books) : Nat :=
  b.pool.totals.bufferedEther.val + b.pool.totals.stakedEther.val + b.escrow.handled

/-- A quantity of the operations of a run and their answers, added up. -/
def sumOver (f : Operation → Except Failure Reply → Int) : Books → List Move → Int
  | _, [] => 0
  | b, .run op :: rest => f op (b.run op).1 + sumOver f (b.move (.run op)) rest
  | b, m :: rest => sumOver f (b.move m) rest

variable {b b' : Books}

theorem sumOver_add (f g : Operation → Except Failure Reply → Int) :
    ∀ (b : Books) (moves : List Move),
      sumOver (fun op answer => f op answer + g op answer) b moves =
        sumOver f b moves + sumOver g b moves
  | _, [] => rfl
  | b, .run op :: rest => by
    simp only [sumOver, sumOver_add f g (b.move (.run op)) rest]
    omega
  | b, .reject recipient :: rest => sumOver_add f g (b.move (.reject recipient)) rest
  | b, .accept recipient :: rest => sumOver_add f g (b.move (.accept recipient)) rest

theorem sumOver_neg (f : Operation → Except Failure Reply → Int) :
    ∀ (b : Books) (moves : List Move),
      sumOver (fun op answer => - f op answer) b moves = - sumOver f b moves
  | _, [] => rfl
  | b, .run op :: rest => by
    simp only [sumOver, sumOver_neg f (b.move (.run op)) rest]
    omega
  | b, .reject recipient :: rest => sumOver_neg f (b.move (.reject recipient)) rest
  | b, .accept recipient :: rest => sumOver_neg f (b.move (.accept recipient)) rest

/-- What every operation changes by some amount, and no switch of the escrow, a run changes by
the sum. -/
theorem after_sums {policy : PoolPolicy} {φ : Books → Int}
    {f : Operation → Except Failure Reply → Int}
    (hrun : ∀ {b : Books}, Pool.Reached policy b.pool → ∀ op : Operation,
      φ (b.run op).2 = φ b + f op (b.run op).1)
    (hswitch : ∀ (b : Books) (rejecting : AddressSet),
      φ { b with escrow := { b.escrow with rejecting } } = φ b) :
    ∀ (moves : List Move) {b : Books}, Pool.Reached policy b.pool →
      φ (b.after moves) = φ b + sumOver f b moves
  | [], b, _ => (Int.add_zero (φ b)).symm
  | .run op :: rest, b, hb => by
    have hstep := hrun hb op
    have hrest := after_sums hrun hswitch rest (b := (b.run op).2) (hb.run b.escrow op)
    show φ (Books.after (b.run op).2 rest) = φ b + (f op (b.run op).1 + sumOver f (b.run op).2 rest)
    omega
  | .reject recipient :: rest, b, hb =>
    (after_sums hrun hswitch rest (b := b.move (.reject recipient)) hb).trans
      (congrArg (· + _) (hswitch b _))
  | .accept recipient :: rest, b, hb =>
    (after_sums hrun hswitch rest (b := b.move (.accept recipient)) hb).trans
      (congrArg (· + _) (hswitch b _))

theorem ether_of_plan {r : OracleReport} {plan : ReportPlan}
    (hplan : b.pool.plan r b.escrow.balance = .ok plan) :
    (plan.totals.ether : Int) + (Operation.report r).lockedFor (.ok (.outcome plan.outcome)) =
      b.pool.totals.ether + (Operation.report r).brought (.ok (.outcome plan.outcome)) := by
  obtain ⟨s, hs⟩ := Pool.exists_planSteps hplan
  have hether := Pool.plan_ether hplan
  rw [hs.lockedFor_eq, Operation.brought_report, PoolTotals.ether, PoolTotals.ether]
  omega

/-- What comes in is pooled, but for what a report locks. -/
theorem Done.ether {op : Operation} {reply : Reply} (h : Done b op reply b') :
    (b'.pool.totals.ether : Int) + op.lockedFor (.ok reply) =
      b.pool.totals.ether + op.brought (.ok reply) := by
  cases h with
  | submit h =>
    obtain ⟨-, -, buffered, total, balance, hbuffered, -, -, rfl⟩ := Pool.submit_eq_ok h
    rw [Operation.brought_submit]
    simp only [PoolTotals.ether, Operation.lockedFor]
    omega
  | requestWithdrawal h =>
    obtain ⟨_, _, _, _, -, -, -, -, rfl⟩ := Pool.requestWithdrawal_eq_ok h
    rfl
  | claim h =>
    obtain ⟨_, -, rfl⟩ := Pool.claim_eq_ok h
    rfl
  | deposit h =>
    obtain ⟨buffered, staked, moved, registry, hbuffered, hstaked, -, rfl⟩ := Pool.deposit_eq_ok h
    rw [Operation.brought_of_internal rfl]
    simp only [PoolTotals.ether, Operation.lockedFor]
    omega
  | manage h =>
    obtain ⟨_, rfl⟩ := Pool.manage_eq_ok h
    rfl
  | report _ hplan _ => exact ether_of_plan hplan
  | reportBatch _ hplan _ _ _ => exact ether_of_plan hplan

/-- Only what a report locks gets to the escrow; a claim pays out of it. -/
theorem Done.handled {op : Operation} {reply : Reply} (h : Done b op reply b') :
    (b'.escrow.handled : Int) = b.escrow.handled + op.lockedFor (.ok reply) := by
  cases h with
  | submit | requestWithdrawal | deposit | manage => exact (Int.add_zero _).symm
  | claim h =>
    obtain ⟨queue, hclaim, rfl⟩ := Pool.claim_eq_ok h
    obtain ⟨_, _, _, _, -, -, -, -, -, -, htransfer, -, -⟩ :=
      WithdrawalQueue.claim_eq_ok_iff.1 hclaim
    rw [Escrow.transfer_handled htransfer]
    exact (Int.add_zero _).symm
  | report _ hplan hbatch =>
    obtain ⟨s, hs⟩ := Pool.exists_planSteps hplan
    rw [hs.lockedFor_eq, ReportPlan.locked, hbatch]
    exact (Int.add_zero _).symm
  | @reportBatch r plan batch escrow queue _ hplan hbatch hfund _ =>
    obtain ⟨s, hs⟩ := Pool.exists_planSteps hplan
    obtain ⟨hbalance, hescrow⟩ := fund_eq_ok hfund
    rw [hs.lockedFor_eq, ReportPlan.locked, hbatch, Option.elim_some, hescrow]
    simp only [Escrow.handled]
    omega

/-- Ether that a report locks for a batch goes from the buffer to the escrow. -/
theorem Done.holdings {op : Operation} {reply : Reply} (h : Done b op reply b') :
    (b'.holdings : Int) = b.holdings + op.deposited (.ok reply) + op.balanceChange (.ok reply) +
      op.rewardsPulled (.ok reply) := by
  have hether := h.ether
  have hhandled := h.handled
  simp only [PoolTotals.ether, Operation.brought] at hether
  simp only [Books.holdings]
  omega

theorem run_ether (hv : b.pool.queue.Valid) (op : Operation) :
    ((b.run op).2.pool.totals.ether : Int) + op.lockedFor (b.run op).1 =
      b.pool.totals.ether + op.brought (b.run op).1 := by
  rcases run_cases hv op with ⟨failure, h⟩ | ⟨reply, b', h, hdone⟩
  · rw [h, op.brought_of_error, op.locks_nothing_of_error]
  · rw [h]
    exact hdone.ether

theorem run_holdings (hv : b.pool.queue.Valid) (op : Operation) :
    ((b.run op).2.holdings : Int) = b.holdings + op.deposited (b.run op).1 +
      op.balanceChange (b.run op).1 + op.rewardsPulled (b.run op).1 := by
  rcases run_cases hv op with ⟨failure, h⟩ | ⟨reply, b', h, hdone⟩
  · obtain ⟨hdeposited, hchange, hpulled⟩ := op.brings_nothing_of_error failure
    simp only [h]
    omega
  · rw [h]
    exact hdone.holdings

theorem after_holdings (moves : List Move) {policy : PoolPolicy} {b : Books}
    (hb : Pool.Reached policy b.pool) :
    ((b.after moves).holdings : Int) = b.holdings + sumOver Operation.deposited b moves +
      sumOver Operation.balanceChange b moves + sumOver Operation.rewardsPulled b moves := by
  have hafter := after_sums (φ := fun b => (b.holdings : Int))
    (f := fun op answer => op.deposited answer + op.balanceChange answer +
      op.rewardsPulled answer)
    (fun hb op => by have := run_holdings hb.sound.queue op; omega) (fun _ _ => rfl) moves hb
  rw [sumOver_add, sumOver_add] at hafter
  omega

/-- All ether came in with a deposit or a report, and no other operation changes how much there
is; nor does one that fails. -/
theorem ether_conserved {policy : PoolPolicy} {p : Pool} (h : Pool.create policy = .ok p)
    (moves : List Move) :
    (((fresh p).after moves).holdings : Int) =
        sumOver Operation.deposited (fresh p) moves +
          sumOver Operation.balanceChange (fresh p) moves +
          sumOver Operation.rewardsPulled (fresh p) moves ∧
      ∀ op : Operation,
        ((∃ failure, (((fresh p).after moves).run op).1 = .error failure) ∨ op.isInternal = true) →
          (((fresh p).after moves).run op).2.holdings = ((fresh p).after moves).holdings := by
  have hcreate : Pool.Reached policy (fresh p).pool := .create h
  have hzero : (fresh p).holdings = 0 := by
    rw [Pool.create_eq_ok h]
    rfl
  refine ⟨?_, ?_⟩
  · have hafter := after_holdings moves hcreate
    omega
  · intro op hop
    have hreached := Pool.Reached.after moves hcreate
    have hrun := run_holdings hreached.sound.queue op
    rcases hop with ⟨failure, hfail⟩ | hinternal
    · obtain ⟨hdeposited, hchange, hpulled⟩ := op.brings_nothing_of_error failure
      rw [hfail] at hrun
      omega
    · obtain ⟨hdeposited, hchange, hpulled⟩ := Operation.brings_nothing_of_internal hinternal
        (((fresh p).after moves).run op).1
      omega

/-- A deposit, a withdrawal, a loss with rewards, and a claim that fails before it is paid. -/
def paidMoves : List Move :=
  [.run (.submit .zero 100000),
    .run (.requestWithdrawal .zero 40000 Bounded.zero),
    .run (.report ⟨1, .ofInt 5000, Bounded.zero, none, []⟩),
    .run (.report ⟨2, .ofInt (-2000), 300, some Bounded.zero, []⟩),
    .reject .zero, .run (.claim Bounded.zero none), .accept .zero,
    .run (.claim Bounded.zero none)]

theorem ether_conserved_paid :
    Pool.create .standard = .ok (Pool.initial .standard) ∧
      Bounded.total ((fresh (Pool.initial .standard)).after paidMoves).escrow.paid.values = 40000 ∧
      (((fresh (Pool.initial .standard)).after paidMoves).holdings : Int) =
        sumOver Operation.deposited (fresh (Pool.initial .standard)) paidMoves +
          sumOver Operation.balanceChange (fresh (Pool.initial .standard)) paidMoves +
          sumOver Operation.rewardsPulled (fresh (Pool.initial .standard)) paidMoves := by
  have hcreate : Pool.create .standard = .ok (Pool.initial .standard) := rfl
  exact ⟨hcreate, by decide +kernel, (ether_conserved hcreate paidMoves).1⟩

end Books
end LiquidStaking

/-
Escrow backing.

Claims pay what reports locked.  Both go through the queue, which counts the ether it has locked,
and through the escrow, which holds it; after every step of a run the two agree.
-/
import LiquidStaking.Proofs.Pool.Atomicity
import LiquidStaking.Proofs.Pool.EtherConservation

namespace LiquidStaking

namespace Operation

def paidOut : Operation → Except Failure Reply → Int
  | .claim .., .ok (.receipt r) => r.amount.val
  | _, _ => 0

theorem pays_nothing_of_error (op : Operation) (failure : Failure) :
    op.paidOut (.error failure) = 0 := by
  cases op <;> rfl

end Operation

namespace Books

variable {b b' : Books}

def locked (b : Books) : Nat := b.pool.queue.totalLocked.val

theorem Done.locked {op : Operation} {reply : Reply} (h : Done b op reply b') :
    (b'.locked : Int) + op.paidOut (.ok reply) = b.locked + op.lockedFor (.ok reply) := by
  cases h with
  | submit h =>
    obtain ⟨-, -, _, _, _, -, -, -, rfl⟩ := Pool.submit_eq_ok h
    rfl
  | requestWithdrawal h =>
    obtain ⟨_, _, _, queue, -, -, -, henqueue, rfl⟩ := Pool.requestWithdrawal_eq_ok h
    obtain ⟨-, -, -, -, _, _, -, -, rfl⟩ := WithdrawalQueue.enqueue_eq_ok_iff.1 henqueue
    rfl
  | claim h =>
    obtain ⟨queue, hclaim, rfl⟩ := Pool.claim_eq_ok h
    obtain ⟨_, _, rest, amount, -, -, -, -, -, hlocked, -, rfl, rfl⟩ :=
      WithdrawalQueue.claim_eq_ok_iff.1 hclaim
    simp only [Books.locked, Operation.paidOut, Operation.lockedFor]
    omega
  | deposit h =>
    obtain ⟨_, _, _, _, -, -, -, rfl⟩ := Pool.deposit_eq_ok h
    rfl
  | manage h =>
    obtain ⟨_, rfl⟩ := Pool.manage_eq_ok h
    rfl
  | report _ hplan hbatch =>
    obtain ⟨s, hs⟩ := Pool.exists_planSteps hplan
    rw [hs.lockedFor_eq, ReportPlan.locked, hbatch]
    rfl
  | @reportBatch r plan batch escrow queue _ hplan hbatch _ hfinalize =>
    obtain ⟨s, hs⟩ := Pool.exists_planSteps hplan
    obtain ⟨-, -, -, -, -, -, hlocked, -, -⟩ := WithdrawalQueue.finalize_eq_ok hfinalize
    rw [hs.lockedFor_eq, ReportPlan.locked, hbatch, Option.elim_some]
    show (queue.totalLocked.val : Int) + 0 = b.pool.queue.totalLocked.val + _
    omega

/-- A claim takes from what is locked, a report adds to it, and nothing else changes it. -/
theorem run_locked (hv : b.pool.queue.Valid) (op : Operation) :
    ((b.run op).2.locked : Int) + op.paidOut (b.run op).1 =
      b.locked + op.lockedFor (b.run op).1 := by
  rcases run_cases hv op with ⟨failure, h⟩ | ⟨reply, b', h, hdone⟩
  · rw [h, op.locks_nothing_of_error, op.pays_nothing_of_error]
  · rw [h]
    exact hdone.locked

theorem after_locked {policy : PoolPolicy} (moves : List Move) (hb : Pool.Reached policy b.pool) :
    ((b.after moves).locked : Int) + sumOver Operation.paidOut b moves =
      b.locked + sumOver Operation.lockedFor b moves := by
  have hafter := after_sums (φ := fun b => (b.locked : Int))
    (f := fun op answer => op.lockedFor answer + - op.paidOut answer)
    (fun hb op => by have := run_locked hb.sound.queue op; omega) (fun _ _ => rfl) moves hb
  rw [sumOver_add, sumOver_neg] at hafter
  omega

theorem after_backed {policy : PoolPolicy} {p : Pool} (h : Pool.create policy = .ok p)
    (moves : List Move) : Backed policy 0 ((fresh p).after moves) := by
  refine after_keeps (fun hb hd => hd.backed hb) (fun _ hb => ⟨hb.policy, hb.balance⟩) moves
    (.create h) ?_
  obtain rfl := Pool.create_eq_ok h
  exact ⟨rfl, rfl⟩

end Books
end LiquidStaking

/-
What a run computes without a check.

The queue and the registry of a reachable pool are valid, and a budget never uses more than its
limit.  What the escrow paid is bounded by the queue: each request is paid once, and never more
than it asked for.
-/
import LiquidStaking.Proofs.Deposit.Widths
import LiquidStaking.Proofs.Pool.RateCap
import LiquidStaking.Proofs.Pool.Shared
import LiquidStaking.Proofs.Withdrawal.Payments
import LiquidStaking.Proofs.Withdrawal.Widths

namespace LiquidStaking

namespace Pool

/-- The budgets that a report goes through before it burns shares. -/
inductive Budgets (p : Pool) (r : OracleReport) : RebaseBudget → Prop
  | start {budget : RebaseBudget}
      (h : RebaseBudget.start p.policy.maxRebase p.poolValue.val p.totals.totalShares.val =
        .ok budget) : Budgets p r budget
  | delta {budget budget' : RebaseBudget} (hb : Budgets p r budget)
      (h : applyDelta budget r.delta = .ok budget') : Budgets p r budget'
  | rewards {budget budget' : RebaseBudget} {applied : Amount} (hb : Budgets p r budget)
      (h : applyRewards budget r.rewards = .ok (applied, budget')) : Budgets p r budget'

/-- What the queue and the registry of a pool compute, also with the key counts of a report, and
what a report computes of its budget and of its rewards. -/
inductive Computes (p : Pool) : Unchecked → Prop
  | queue {u : Unchecked} (h : p.queue.Computes u) : Computes p u
  | registry {updates : List KeyUpdate} {registry : Registry} {u : Unchecked}
      (hr : updates.foldlM applyKeyUpdate p.registry = .ok registry) (h : registry.Computes u) :
      Computes p u
  | remaining {r : OracleReport} {budget : RebaseBudget} (hb : p.Budgets r budget) :
      Computes p (.difference budget.limit.val budget.used.val)
  | deferred {r : OracleReport} {budget budget' : RebaseBudget} {applied : Amount}
      (hb : p.Budgets r budget) (h : applyRewards budget r.rewards = .ok (applied, budget')) :
      Computes p (.difference r.rewards.val applied.val)

variable {p : Pool} {u : Unchecked}

theorem Budgets.within {r : OracleReport} {budget : RebaseBudget} (hb : p.Budgets r budget) :
    budget.used.val ≤ budget.limit.val := by
  induction hb with
  | start h =>
    rw [RebaseBudget.start_eq_ok h]
    exact Nat.zero_le _
  | delta _ h ih => exact (applyDelta_keeps h).2.2 ih
  | rewards _ h ih => exact (applyRewards_eq_ok h).2.2.within ih

theorem Computes.fits (hu : p.Computes u) {policy : PoolPolicy} (hp : Reached policy p) :
    u.Fits := by
  cases hu with
  | queue h => exact h.fits hp.sound.queue
  | registry hr h => exact h.fits (keyUpdates_valid hp.governed.registry hr).1
  | remaining hb => exact hb.within
  | deferred _ h => exact (applyRewards_eq_ok h).2.1

end Pool

theorem Escrow.transfer_total {e e' : Escrow} {recipient : Address} {amount : Amount}
    (h : e.transfer recipient amount = .ok e') :
    Bounded.total e'.paid.values = Bounded.total e.paid.values + amount.val := by
  have hhandled := transfer_handled h
  have hbalance := (transfer_eq_ok h).balance
  unfold handled at hhandled
  omega

namespace Books

inductive Computes (b : Books) : Unchecked → Prop
  | pool {u : Unchecked} (h : b.pool.Computes u) : Computes b u
  | paid : Computes b (.sum 128 (Bounded.total b.escrow.paid.values))

/-- Books whose escrow paid what the requests of the queue were paid. -/
structure Paid (b : Books) : Prop where
  sound : b.pool.Sound
  total : Bounded.total b.escrow.paid.values = b.pool.queue.payments

variable {b b' : Books}

theorem Done.paid (hb : b.Paid) {op : Operation} {reply : Reply} (h : Done b op reply b') :
    b'.Paid := by
  refine ⟨h.sound hb.sound, ?_⟩
  have htotal := hb.total
  have hv := hb.sound.queue
  cases h with
  | submit h =>
    obtain ⟨-, -, _, _, _, -, -, -, rfl⟩ := Pool.submit_eq_ok h
    exact htotal
  | requestWithdrawal h =>
    obtain ⟨_, _, _, queue, -, -, -, henqueue, rfl⟩ := Pool.requestWithdrawal_eq_ok h
    exact htotal.trans (WithdrawalQueue.payments_enqueue hv henqueue).symm
  | @claim id hint receipt pool escrow h =>
    obtain ⟨queue, hclaim, rfl⟩ := Pool.claim_eq_ok h
    have hpaid := WithdrawalQueue.payments_claim hv hclaim
    obtain ⟨_, _, _, amount, -, -, -, -, -, -, htransfer, rfl, -⟩ :=
      WithdrawalQueue.claim_eq_ok_iff.1 hclaim
    show Bounded.total escrow.paid.values = queue.payments
    rw [Escrow.transfer_total htransfer, hpaid, htotal]
  | deposit h =>
    obtain ⟨_, _, _, _, -, -, -, rfl⟩ := Pool.deposit_eq_ok h
    exact htotal
  | manage h =>
    obtain ⟨_, rfl⟩ := Pool.manage_eq_ok h
    exact htotal
  | report _ _ _ => exact htotal
  | @reportBatch r plan batch escrow queue _ _ _ hfund hfinalize =>
    obtain ⟨-, hescrow⟩ := fund_eq_ok hfund
    show Bounded.total escrow.paid.values = queue.payments
    rw [hescrow, WithdrawalQueue.payments_finalize hv hfinalize]
    exact htotal

theorem after_paid {policy : PoolPolicy} {p : Pool} (h : Pool.create policy = .ok p)
    (moves : List Move) : ((fresh p).after moves).Paid := by
  refine after_keeps (fun hb hd => hd.paid hb) (fun _ hb => ⟨hb.sound, hb.total⟩) moves
    (.create h) ⟨Pool.create_sound h, ?_⟩
  obtain rfl := Pool.create_eq_ok h
  rfl

theorem Computes.fits {u : Unchecked} (hu : b.Computes u) {policy : PoolPolicy}
    (hp : Pool.Reached policy b.pool) (hb : b.Paid) : u.Fits := by
  cases hu with
  | pool h => exact h.fits hp
  | paid =>
    show Bounded.total b.escrow.paid.values < Bounded.bound 128
    rw [hb.total]
    exact WithdrawalQueue.payments_lt hb.sound.queue

/-- Whatever was done with the books of a new pool, all that they compute without a check has an
outcome: no operation halts, and neither do the totals of the queue and of the escrow. -/
theorem never_halts {policy : PoolPolicy} {p : Pool} (h : Pool.create policy = .ok p)
    (moves : List Move) {b : Books} (hb : b = (fresh p).after moves) :
    (∀ u, b.Computes u → u.Fits) ∧
      (∀ op, FailsOnly Failure.IsRefusal (b.run op).1) ∧
      (∃ ether, b.pool.queue.unfinalizedEther = .ok ether) ∧
      (∃ shares, b.pool.queue.unfinalizedShares = .ok shares) ∧
      ∃ total, b.escrow.totalPaid = .ok total ∧ total.val = Bounded.total b.escrow.paid.values := by
  have hreached : Pool.Reached policy b.pool := by
    rw [hb]
    exact Pool.Reached.after moves (.create h)
  have hpaid : b.Paid := by
    rw [hb]
    exact after_paid h moves
  have hv := hreached.sound.queue
  have hfits : ∀ u, b.Computes u → u.Fits := fun u hu => hu.fits hreached hpaid
  obtain ⟨t, ht, -, -⟩ := hv.unfinalizedTotals_eq
  refine ⟨hfits, run_refuses hv, ⟨t.1, ?_⟩, ⟨t.2, ?_⟩, ⟨_, hfits _ .paid⟩, ?_, rfl⟩
  · rw [WithdrawalQueue.unfinalizedEther, ht]
    rfl
  · rw [WithdrawalQueue.unfinalizedShares, ht]
    rfl
  · have hfit : Bounded.total b.escrow.paid.values < Bounded.bound 128 := hfits _ .paid
    rw [Escrow.totalPaid, Bounded.ofNat?, dif_pos hfit]

/-- Books that locked and paid one request. -/
theorem never_halts_paid :
    Pool.create .standard = .ok (Pool.initial .standard) ∧
      (∀ u, ((fresh (Pool.initial .standard)).after paidMoves).Computes u → u.Fits) ∧
      ∃ total, ((fresh (Pool.initial .standard)).after paidMoves).escrow.totalPaid = .ok total ∧
        total.val = 40000 := by
  have hcreate : Pool.create .standard = .ok (Pool.initial .standard) := rfl
  obtain ⟨hfits, -, -, -, total, htotal, hvalue⟩ := never_halts hcreate paidMoves rfl
  exact ⟨hcreate, hfits, total, htotal, hvalue.trans (by decide +kernel)⟩

end Books
end LiquidStaking

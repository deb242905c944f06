/-
The reserve for withdrawals.

A buffer that covers what unfinalized requests ask for is drained by two operations.  A deposit
leaves that much in it.  A batch takes out at most what its requests ask for, and they ask for
nothing afterwards.  Only a new request asks for ether without bringing any.
-/
import LiquidStaking.Proofs.Pool.Deposits

namespace LiquidStaking

namespace WithdrawalQueue

/-- The ether that the requests that are not finalized ask for. -/
def waitingEther (q : WithdrawalQueue) : Nat :=
  q.etherUpTo q.length - q.etherUpTo q.finalizedCount.val

variable {q q' : WithdrawalQueue}

theorem waitingEther_claim {id : Count} {hint : Option Nat} {escrow escrow' : Escrow}
    {receipt : ClaimReceipt} (h : q.claim id hint escrow = .ok (receipt, q', escrow')) :
    q'.waitingEther = q.waitingEther := by
  obtain ⟨hcount, hlen, hsums⟩ := ledger_of_claim h
  rw [waitingEther, waitingEther, hlen, hcount, (hsums _).1, (hsums _).1]

namespace Valid

theorem lock_le_waitingEther (hv : q.Valid) {last : Count} {poolValue shares : Amount}
    {s : Settlement} (h : q.settlement last poolValue shares = .ok s) :
    s.etherToLock.val + q.etherUpTo q.finalizedCount.val ≤ q.etherUpTo (last.val + 1) ∧
      s.etherToLock.val ≤ q.waitingEther := by
  obtain ⟨-, hlast, -, -, -, ether, hrange, hlock⟩ := settlement_eq_ok h
  have hend := hv.etherUpTo_mono (Nat.succ_le_of_lt hlast) (Nat.le_refl _)
  rw [Nat.succ_eq_add_one] at hend
  unfold waitingEther
  omega

theorem waitingEther_finalize (hv : q.Valid) {last : Count}
    {poolValue shares lock poolValue' shares' balance : Amount} {s : Settlement}
    (hs : q.settlement last poolValue shares = .ok s)
    (h : q.finalize last lock poolValue' shares' balance = .ok q') :
    q'.waitingEther + s.etherToLock.val ≤ q.waitingEther := by
  obtain ⟨-, hlast, -, hreq, -, hcount, -, -, -⟩ := finalize_eq_ok h
  have hsums : ∀ n, q'.etherUpTo n = q.etherUpTo n := fun n => (upTo_of_requests hreq n).1
  have hlen : q'.length = q.length := congrArg List.length hreq
  have hlock := (hv.lock_le_waitingEther hs).1
  have hend := hv.etherUpTo_mono (Nat.succ_le_of_lt hlast) (Nat.le_refl _)
  rw [Nat.succ_eq_add_one] at hend
  rw [waitingEther, waitingEther, hsums, hsums, hlen, hcount]
  omega

end Valid
end WithdrawalQueue

namespace Fault

def NotShortOfBuffer (f : Fault) : Prop :=
  ∀ required available, f ≠ .insufficientBuffer required available

theorem notShortOfBuffer_allowsReport : AllowsReport NotShortOfBuffer where
  overflow := fun _ _ h => nomatch h
  divisionByZero := fun _ _ h => nomatch h
  productOverflow := fun _ _ h => nomatch h
  conversion := fun _ _ h => nomatch h
  zeroShares := fun _ _ _ h => nomatch h
  invalidRange := fun _ _ _ _ _ h => nomatch h
  underflow := fun _ _ h => nomatch h
  staleReport := fun _ _ _ _ h => nomatch h
  feeExceedsTotal := fun _ _ _ _ h => nomatch h
  unknownModule := fun _ _ _ h => nomatch h

end Fault

namespace Pool

variable {policy : PoolPolicy} {p : Pool}

/-- Whether the buffer covers what unfinalized requests ask for. -/
def Reserves (p : Pool) : Prop :=
  ∃ reserved, p.queue.unfinalizedEther = .ok reserved ∧ reserved.val ≤ p.totals.bufferedEther.val

theorem reserves_iff (hv : p.queue.Valid) :
    p.Reserves ↔ p.queue.waitingEther ≤ p.totals.bufferedEther.val := by
  obtain ⟨a, ha, hval⟩ := hv.exists_unfinalizedEther
  rw [WithdrawalQueue.waitingEther, ← hval]
  constructor
  · rintro ⟨reserved, hreserved, hle⟩
    cases Except.ok.inj (ha.symm.trans hreserved)
    exact hle
  · intro hle
    exact ⟨a, ha, hle⟩

theorem Reached.reserves_of_deposit (h : Reached policy p) {limit block : Count}
    {a : DepositAllocation} {p' : Pool} (hdeposit : p.deposit limit block = .ok (a, p'))
    (hp : p.Reserves) : p'.Reserves := by
  obtain ⟨reserved, hreserved, hle⟩ := hp
  rcases deposit_cases h.governed h.validate hreserved limit block with
    ⟨-, herror⟩ | ⟨-, _, _, hok, hdeposited⟩
  · rw [hdeposit] at herror
    cases herror
  · cases Except.ok.inj (hdeposit.symm.trans hok)
    have hreserve := hdeposited.reserve
    rw [Nat.min_eq_right hle] at hreserve
    refine ⟨reserved, ?_, hreserve⟩
    rw [hdeposited.others]
    exact hreserved

theorem buffered_of_plan {r : OracleReport} {balance : Amount} {plan : ReportPlan}
    (h : p.plan r balance = .ok plan) :
    p.totals.bufferedEther.val ≤ plan.totals.bufferedEther.val + plan.locked := by
  obtain ⟨s, hs⟩ := exists_planSteps h
  have hbuffered := hs.buffered
  rw [hs.totals]
  show _ ≤ s.burnt.bufferedEther.val + _
  rw [hs.burning.buffered]
  cases hbatch : plan.batch with
  | none =>
    rw [hs.of_none hbatch]
    show _ ≤ s.bufferedEther.val + _
    omega
  | some b =>
    obtain ⟨burn, hb⟩ := hs.of_some hbatch
    have htaken : s.bufferedEther.val =
        s.batched.bufferedEther.val + b.settlement.etherToLock.val := hb.takes.buffered
    rw [ReportPlan.locked, hbatch, Option.elim_some]
    omega

/-- A buffer that covers what requests ask for covers every batch. -/
theorem Reserves.allowsShortages (hp : p.Reserves) (hv : p.queue.Valid) (balance : Amount) :
    p.AllowsShortages balance Fault.NotShortOfBuffer where
  buffer := by
    intro buffered poolValue shares last s hgrown hs hless
    have hlock := (hv.lock_le_waitingEther hs).2
    have hcovered := (reserves_iff hv).1 hp
    omega
  escrow := fun _ _ _ _ _ h => nomatch h

end Pool

namespace Books

open Pool

variable {policy : PoolPolicy} {p : Pool} {b b' : Books} {op : Operation} {reply : Reply}

/-- No operation but a request leaves less in the buffer than requests ask for. -/
theorem Done.reserves (h : Done b op reply b') (hr : Reached policy b.pool)
    (hop : ∀ owner shares block, op ≠ .requestWithdrawal owner shares block)
    (hb : b.pool.Reserves) : b'.pool.Reserves := by
  have hv := hr.sound.queue
  have hv' := (h.sound hr.sound).queue
  have hcovered := (reserves_iff hv).1 hb
  refine (reserves_iff hv').2 ?_
  cases h with
  | submit h =>
    obtain ⟨-, -, buffered, _, _, hbuffered, -, -, rfl⟩ := submit_eq_ok h
    show b.pool.queue.waitingEther ≤ buffered.val
    omega
  | requestWithdrawal h => exact absurd rfl (hop _ _ _)
  | claim h =>
    obtain ⟨queue, hclaim, rfl⟩ := claim_eq_ok h
    show queue.waitingEther ≤ b.pool.totals.bufferedEther.val
    rw [WithdrawalQueue.waitingEther_claim hclaim]
    exact hcovered
  | deposit h => exact (reserves_iff hv').1 (hr.reserves_of_deposit h hb)
  | manage h =>
    obtain ⟨_, rfl⟩ := manage_eq_ok h
    exact hcovered
  | @report r plan _ hplan hbatch =>
    have hbuffered := buffered_of_plan hplan
    rw [ReportPlan.locked, hbatch] at hbuffered
    exact Nat.le_trans hcovered hbuffered
  | @reportBatch r plan batch escrow queue _ hplan hbatch _ hfinalize =>
    have hbuffered := buffered_of_plan hplan
    rw [ReportPlan.locked, hbatch, Option.elim_some] at hbuffered
    obtain ⟨s, hs⟩ := exists_planSteps hplan
    obtain ⟨burn, hsettled⟩ := hs.of_some hbatch
    have hwaiting := hv.waitingEther_finalize hsettled.settled hfinalize
    show queue.waitingEther ≤ plan.totals.bufferedEther.val
    omega

/-- A buffer that covers what unfinalized requests ask for goes on doing so through every operation
but a request, and no report finds it too small for a batch. -/
theorem reserve_kept (h : Reached policy p) (hp : p.Reserves) (escrow : Escrow)
    (moves : List Move)
    (hmoves : ∀ owner shares block, .run (.requestWithdrawal owner shares block) ∉ moves) :
    ((Books.mk p escrow).after moves).pool.Reserves ∧
      ∀ (r : OracleReport) (required available : Nat),
        (((Books.mk p escrow).after moves).report r).1 ≠
          .error (.refused (.insufficientBuffer required available)) := by
  have hreached := Reached.after moves (b := Books.mk p escrow) h
  have hreserves : ((Books.mk p escrow).after moves).pool.Reserves := by
    refine after_keeps_of (P := fun b => b.pool.Reserves) (fun _ hb => hb) moves ?_ h hp
    intro b op reply b' hop hr hb hdone
    exact hdone.reserves hr (fun owner shares block heq => hmoves owner shares block (heq ▸ hop)) hb
  refine ⟨hreserves, fun r required available hfail => ?_⟩
  have hpolicy : ((Books.mk p escrow).after moves).pool.policy.validate = .ok () := by
    rw [hreached.governed.policy]
    exact h.validate
  obtain ⟨cause, hcause, hother⟩ := report_fails Fault.notShortOfBuffer_allowsReport
    (hreserves.allowsShortages hreached.sound.queue _) hreached.sound.queue hpolicy hfail
  exact hother required available (Failure.refused.inj hcause).symm

/-- Two deposits, a report that finalizes the withdrawal at a loss of a quarter, and its claim. -/
def lossyMoves : List Move :=
  [.run (.deposit 10 9),
    .run (.report ⟨3, .ofInt (-50000000000000000000), Bounded.zero, some Bounded.zero, []⟩),
    .run (.claim Bounded.zero none)]

/-- Of 40 ether that were asked for 30 are locked and paid, out of 136 that the deposits left. -/
theorem reserve_kept_lossy :
    Reached .standard reservingPool ∧ reservingPool.Reserves ∧
      (∀ owner shares block, .run (.requestWithdrawal owner shares block) ∉ lossyMoves) ∧
      ((Books.mk reservingPool .empty).after lossyMoves).pool.Reserves ∧
      ((Books.mk reservingPool .empty).after lossyMoves).pool.totals.bufferedEther.val =
        106 * oneEther ∧
      ((Books.mk reservingPool .empty).after lossyMoves).escrow.paid.values.map (·.val) =
        [30 * oneEther] ∧
      ∀ (r : OracleReport) (required available : Nat),
        (((Books.mk reservingPool .empty).after lossyMoves).report r).1 ≠
          .error (.refused (.insufficientBuffer required available)) := by
  have hreached : Reached .standard reservingPool :=
    Reached.after (b := Books.fresh (initial .standard)) reservingMoves (.create rfl)
  have hreserves : reservingPool.Reserves :=
    ⟨40000000000000000000, by decide +kernel, by decide +kernel⟩
  have hmoves : ∀ owner shares block,
      .run (.requestWithdrawal owner shares block) ∉ lossyMoves := by
    intro owner shares block
    simp [lossyMoves]
  obtain ⟨hkept, hreports⟩ := reserve_kept hreached hreserves .empty lossyMoves hmoves
  exact ⟨hreached, hreserves, hmoves, hkept, by decide +kernel, by decide +kernel, hreports⟩

end Books
end LiquidStaking

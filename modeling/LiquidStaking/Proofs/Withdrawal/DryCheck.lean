/-
The check of a batch before it is finalized.

The check reads the ledger, the locked ether and the rate.  Finalizing goes on to record the price,
which makes checks of its own, and to count to the next request.  In a valid ledger the price
history ends where the finalized requests do, so nothing fails after the check.
-/
import LiquidStaking.Proofs.Withdrawal.Desk

namespace LiquidStaking

namespace WithdrawalQueue

/-- Whether a queue is another with the requests up to `last` finalized and `locked` ether locked in
all. -/
structure Finalizes (q q' : WithdrawalQueue) (last : Count) (locked : Amount) : Prop where
  locked : q'.totalLocked = locked
  count : q'.finalizedCount.val = last.val + 1
  requests : q'.requests = q.requests
  limits : q'.limits = q.limits

variable {q : WithdrawalQueue} {last : Count} {lock poolValue shares balance : Amount}

theorem finalize_of_check_error {cause : Fault}
    (h : q.checkFinalize last lock poolValue shares balance = .error cause) :
    q.finalize last lock poolValue shares balance = .error (.refused cause) := by
  rw [finalize, h]
  rfl

namespace Valid

theorem exists_finalizes (hv : q.Valid) {locked : Amount}
    (h : q.checkFinalize last lock poolValue shares balance = .ok locked) :
    ∃ q', q.finalize last lock poolValue shares balance = .ok q' ∧
      q.Finalizes q' last locked := by
  obtain ⟨q', hq'⟩ := hv.finalize_of_check h
  obtain ⟨-, -, -, hrequests, hlimits, hcount, hlocked, -, -⟩ := finalize_eq_ok hq'
  obtain ⟨-, -, htotal, -, -⟩ := checkFinalize_eq_ok_iff.1 h
  exact ⟨q', hq', Bounded.ext (hlocked.trans htotal.symm), hcount, hrequests, hlimits⟩

theorem check_eq_ok_iff (hv : q.Valid) {locked : Amount} :
    q.checkFinalize last lock poolValue shares balance = .ok locked ↔
      ∃ q', q.finalize last lock poolValue shares balance = .ok q' ∧
        q.Finalizes q' last locked := by
  refine ⟨hv.exists_finalizes, ?_⟩
  rintro ⟨q', hq', hfinal⟩
  cases hcheck : q.checkFinalize last lock poolValue shares balance with
  | error cause =>
    rw [finalize_of_check_error hcheck] at hq'
    cases hq'
  | ok total =>
    obtain ⟨q'', hq'', htotal⟩ := hv.exists_finalizes hcheck
    rw [hq'] at hq''
    cases hq''
    rw [← htotal.locked, hfinal.locked]

theorem finalize_eq_error_iff (hv : q.Valid) {failure : Failure} :
    q.finalize last lock poolValue shares balance = .error failure ↔
      ∃ cause, q.checkFinalize last lock poolValue shares balance = .error cause ∧
        failure = .refused cause := by
  cases hcheck : q.checkFinalize last lock poolValue shares balance with
  | error cause =>
    rw [finalize_of_check_error hcheck]
    simp [eq_comm]
  | ok locked =>
    obtain ⟨q', hq', -⟩ := hv.exists_finalizes hcheck
    simp [hq']

end Valid

/-- The check finds the escrow short exactly when a batch within the ledger would lock, together
with what is locked already, more than it holds. -/
theorem check_short_iff {required available : Nat} :
    q.checkFinalize last lock poolValue shares balance =
        .error (.insufficientEscrow required available) ↔
      q.finalizedCount.val ≤ last.val ∧ last.val < q.length ∧
        required = q.totalLocked.val + lock.val ∧ required < Bounded.bound 128 ∧
        available = balance.val ∧ balance.val < required := by
  unfold checkFinalize
  by_cases hrange : q.finalizedCount.val ≤ last.val ∧ last.val < q.length
  · rw [(checkRange_eq_ok_iff (u := ())).2 hrange, ok_bind]
    by_cases hfits : q.totalLocked.val + lock.val < Bounded.bound 128
    · obtain ⟨total, htotal⟩ := Bounded.exists_val hfits
      rw [Bounded.add_eq_ok_iff.2 htotal.symm, ok_bind]
      by_cases hshort : balance.val < total.val
      · rw [if_pos hshort, throw_eq]
        simp only [Except.error.injEq, Fault.insufficientEscrow.injEq]
        omega
      · -- The steps after the shortage fail with faults of their own.
        have hrest : FailsOnly (· ≠ .insufficientEscrow required available)
            (Rate.ofAmounts poolValue shares >>= fun rate => rate.price >>= fun _ =>
              (pure total : Except Fault Amount)) := by
          refine FailsOnly.bind ?_ (fun rate _ => ?_)
          · exact Rate.ofAmounts_fails (fun _ h => nomatch h) poolValue shares
          · exact (mulDiv_fails (fun _ h => nomatch h) (fun h => nomatch h)).bind
              (fun _ _ => .pure _)
        rw [if_neg hshort]
        refine ⟨fun h => absurd rfl (hrest _ h), fun h => ?_⟩
        omega
    · rw [Bounded.add_eq_error (Nat.not_lt.1 hfits), error_bind]
      simp only [Except.error.injEq, reduceCtorEq, false_iff]
      omega
  · rw [checkRange, if_pos (by omega), error_bind]
    simp only [Except.error.injEq, reduceCtorEq, false_iff]
    omega

/-- With the ether its settlement asks for, a batch is finalized exactly if the escrow holds that
and all that is locked. -/
theorem Valid.finalizes_settlement_iff (hv : q.Valid) {s : Settlement}
    (hs : q.settlement last poolValue shares = .ok s) :
    (∃ q', q.finalize last s.etherToLock poolValue shares balance = .ok q') ↔
      q.totalLocked.val + s.etherToLock.val ≤ balance.val := by
  refine ⟨?_, hv.exists_finalize_of_balance hs⟩
  rintro ⟨q', hq'⟩
  obtain ⟨-, -, -, -, -, -, hlocked, hheld, -⟩ := finalize_eq_ok hq'
  omega

end WithdrawalQueue

namespace WithdrawalDesk

open WithdrawalQueue

theorem move_finalize_of_error {d : WithdrawalDesk} {last : Count}
    {lock poolValue shares balance : Amount} {failure : Failure}
    (h : d.queue.finalize last lock poolValue shares balance = .error failure) :
    d.move (.finalize last lock poolValue shares balance) = d := by
  simp only [move, h]

/-- The check of a batch foretells what finalizing it does: the total it answers is what is locked
afterwards, the fault it answers is what finalizing is refused with, and then nothing changes.  The
escrow is found short only where it is, and never of a batch that it can pay for. -/
theorem finalize_as_checked (limits : WithdrawalLimits) (escrow : Escrow) (moves : List Move)
    {d : WithdrawalDesk} (hd : d = (opened limits escrow).after moves) (last : Count)
    (lock poolValue shares balance : Amount) :
    (∀ locked, d.queue.checkFinalize last lock poolValue shares balance = .ok locked ↔
      ∃ queue, d.queue.finalize last lock poolValue shares balance = .ok queue ∧
        d.queue.Finalizes queue last locked) ∧
    (∀ failure, d.queue.finalize last lock poolValue shares balance = .error failure ↔
      ∃ cause, d.queue.checkFinalize last lock poolValue shares balance = .error cause ∧
        failure = .refused cause) ∧
    (∀ failure, d.queue.finalize last lock poolValue shares balance = .error failure →
      d.move (.finalize last lock poolValue shares balance) = d) ∧
    (∀ required available, d.queue.finalize last lock poolValue shares balance =
        .error (.refused (.insufficientEscrow required available)) ↔
      d.queue.finalizedCount.val ≤ last.val ∧ last.val < d.queue.length ∧
        required = d.queue.totalLocked.val + lock.val ∧ required < Bounded.bound 128 ∧
        available = balance.val ∧ balance.val < required) ∧
    ∀ s, d.queue.settlement last poolValue shares = .ok s →
      ((∃ queue, d.queue.finalize last s.etherToLock poolValue shares balance = .ok queue) ↔
        d.queue.totalLocked.val + s.etherToLock.val ≤ balance.val) ∧
      ∀ required available, d.queue.finalize last s.etherToLock poolValue shares balance =
          .error (.refused (.insufficientEscrow required available)) →
        balance.val < d.queue.totalLocked.val + s.etherToLock.val := by
  have hv : d.queue.Valid := hd ▸ valid_after limits escrow moves
  have hshort : ∀ (lock : Amount) required available,
      d.queue.finalize last lock poolValue shares balance =
          .error (.refused (.insufficientEscrow required available)) ↔
        d.queue.checkFinalize last lock poolValue shares balance =
          .error (.insufficientEscrow required available) := by
    intro lock required available
    rw [hv.finalize_eq_error_iff]
    constructor
    · rintro ⟨cause, hcheck, hcause⟩
      cases hcause
      exact hcheck
    · intro hcheck
      exact ⟨_, hcheck, rfl⟩
  refine ⟨fun locked => hv.check_eq_ok_iff, fun failure => hv.finalize_eq_error_iff,
    fun failure => move_finalize_of_error, fun required available => ?_, fun s hs => ?_⟩
  · rw [hshort]
    exact check_short_iff
  · refine ⟨hv.finalizes_settlement_iff hs, fun required available hfail => ?_⟩
    obtain ⟨-, -, hrequired, -, -, hless⟩ := check_short_iff.1 ((hshort _ _ _).1 hfail)
    exact hrequired ▸ hless

/-- Two requests of which the first is finalized at a third. -/
def thirdMoves : List Move :=
  [.enqueue .zero 100 300 Bounded.zero, .enqueue .zero 100 300 Bounded.zero,
    .finalize Bounded.zero 100 1 3 100]

def atThird : WithdrawalDesk := (opened ⟨Bounded.zero, 1000⟩ .empty).after thirdMoves

/-- A little less than a third, with the same integer price. -/
def underThird : Amount × Amount := (333333333333333333333333333, 1000000000000000000000000000)

/-- At a rate a little lower the second request joins the run of the first.  Its settlement asks for
99 ether; with them 199 are locked, and an escrow that holds 198 is too small. -/
theorem finalize_as_checked_joining :
    atThird.queue.settlement 1 underThird.1 underThird.2 = .ok ⟨99, 300⟩ ∧
      (∃ queue, atThird.queue.finalize 1 99 underThird.1 underThird.2 199 = .ok queue ∧
        queue.prices.size = 1 ∧ atThird.queue.Finalizes queue 1 199) ∧
      atThird.queue.finalize 1 99 underThird.1 underThird.2 198 =
        .error (.refused (.insufficientEscrow 199 198)) ∧
      atThird.move (.finalize 1 99 underThird.1 underThird.2 198) = atThird := by
  have hsettle : atThird.queue.settlement 1 underThird.1 underThird.2 = .ok ⟨99, 300⟩ := by
    decide +kernel
  have hcheck : atThird.queue.checkFinalize 1 99 underThird.1 underThird.2 199 = .ok 199 := by
    decide +kernel
  obtain ⟨queue, hqueue, hsize⟩ := exists_ok_of_any
    (atThird.queue.finalize 1 99 underThird.1 underThird.2 199)
    (fun queue => queue.prices.size == 1) (by decide +kernel)
  obtain ⟨hfinal, -⟩ := finalize_as_checked ⟨Bounded.zero, 1000⟩ .empty thirdMoves rfl 1 99
    underThird.1 underThird.2 199
  obtain ⟨-, -, hkept, hshort, -⟩ := finalize_as_checked ⟨Bounded.zero, 1000⟩ .empty thirdMoves
    rfl 1 99 underThird.1 underThird.2 198
  have hfail := (hshort 199 198).2 (by decide +kernel)
  obtain ⟨queue', hqueue', hchanged⟩ := (hfinal 199).1 hcheck
  cases Except.ok.inj (hqueue.symm.trans hqueue')
  exact ⟨hsettle, ⟨queue, hqueue, beq_iff_eq.1 hsize, hchanged⟩, hfail, hkept _ hfail⟩

end WithdrawalDesk
end LiquidStaking

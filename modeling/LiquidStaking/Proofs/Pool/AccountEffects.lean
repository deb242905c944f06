/-
What an operation does to one account.

An account gets the shares it buys and loses those it queues for withdrawal.  A report pays it a
part of the fees for every module that names it, and the rest of them if it is the treasury.
Nothing else touches it.
-/
import LiquidStaking.Proofs.Pool.EtherConservation
import LiquidStaking.Proofs.Pool.Restoration

namespace LiquidStaking

/-- The shares of a mint that go to an account: a part for every module that names it, and the
treasury's if it is the treasury. -/
def FeeMint.paidTo (mint : FeeMint) (treasury account : Address) : Nat :=
  Bounded.total ((mint.moduleShares.filter (·.recipient = account)).map (·.shares)) +
    if treasury = account then mint.treasuryShares.val else 0

namespace Operation

/-- The shares that an operation adds to an account. -/
def credited (treasury account : Address) : Operation → Except Failure Reply → Int
  | .submit sender _, .ok (.shares n) => if sender = account then n.val else 0
  | .report _, .ok (.outcome o) => o.feeMint.paidTo treasury account
  | _, _ => 0

/-- The shares that an operation takes from an account. -/
def debited (account : Address) : Operation → Except Failure Reply → Int
  | .requestWithdrawal owner shares _, .ok _ => if owner = account then shares.val else 0
  | _, _ => 0

theorem leaves_accounts_of_error (op : Operation) (failure : Failure) (treasury account : Address) :
    op.credited treasury account (.error failure) = 0 ∧
      op.debited account (.error failure) = 0 := by
  cases op <;> exact ⟨rfl, rfl⟩

end Operation

namespace Pool

variable {p : Pool}

/-- What some payments bring an account. -/
def paymentsTo (account : Address) (payments : List (Address × Amount)) : Nat :=
  Bounded.total ((payments.filter (·.1 = account)).map (·.2))

theorem paymentsTo_cons (account : Address) (payment : Address × Amount)
    (rest : List (Address × Amount)) :
    paymentsTo account (payment :: rest) =
      (if payment.1 = account then payment.2.val else 0) + paymentsTo account rest := by
  unfold paymentsTo
  by_cases h : payment.1 = account
  · rw [List.filter_cons_of_pos (by simpa using h), List.map_cons, Bounded.total_cons, if_pos h]
  · rw [List.filter_cons_of_neg (by simpa using h), if_neg h, Nat.zero_add]

theorem paymentsTo_feePayments (p : Pool) (mint : FeeMint) (account : Address) :
    paymentsTo account (p.feePayments mint) = mint.paidTo p.policy.treasury account := by
  have htreasury : paymentsTo account [(p.policy.treasury, mint.treasuryShares)] =
      if p.policy.treasury = account then mint.treasuryShares.val else 0 := by
    rw [paymentsTo_cons]
    exact Nat.add_zero _
  rw [FeeMint.paidTo, ← htreasury]
  unfold feePayments paymentsTo
  rw [List.filter_append, List.map_append, Bounded.total_append, List.filter_map, List.map_map]
  rfl

theorem amountAt_addCredit {credits credits' : AddressMap Amount} {payment : Address × Amount}
    (h : p.addCredit credits payment = .ok credits') (account : Address) :
    (p.credited credits').amountAt account =
      (p.credited credits).amountAt account +
        if payment.1 = account then payment.2.val else 0 := by
  rcases addCredit_eq_ok h with ⟨hzero, rfl⟩ | ⟨-, held, hheld, hover⟩
  · rw [hzero, ite_self, Nat.add_zero]
  · rw [hover, AddressMap.amountAt_insert]
    by_cases hpaid : payment.1 = account
    · rw [if_pos hpaid.symm, if_pos hpaid, hheld, hpaid]
    · rw [if_neg (Ne.symm hpaid), if_neg hpaid, Nat.add_zero]

theorem amountAt_foldlM_addCredit (account : Address) :
    ∀ (payments : List (Address × Amount)) {credits credits' : AddressMap Amount},
      payments.foldlM p.addCredit credits = .ok credits' →
        (p.credited credits').amountAt account =
          (p.credited credits).amountAt account + paymentsTo account payments
  | [], credits, credits', h => by
    cases pure_eq_ok.1 h
    rfl
  | payment :: rest, credits, credits', h => by
    rw [List.foldlM_cons, bind_eq_ok] at h
    obtain ⟨next, hnext, h⟩ := h
    rw [amountAt_foldlM_addCredit account rest h, amountAt_addCredit hnext, paymentsTo_cons,
      Nat.add_assoc]

theorem amountAt_feeCredits {mint : FeeMint} {credits : AddressMap Amount}
    (h : p.feeCredits mint = .ok credits) (account : Address) :
    (p.credited credits).amountAt account =
      p.balances.amountAt account + mint.paidTo p.policy.treasury account := by
  rw [← paymentsTo_feePayments]
  exact amountAt_foldlM_addCredit account _ h

theorem amountAt_setBalance (p : Pool) (owner : Address) (shares : Amount) (account : Address) :
    (p.setBalance owner shares).amountAt account =
      if account = owner then shares.val else p.balances.amountAt account := by
  unfold setBalance
  split
  · next hzero => rw [AddressMap.amountAt_erase, hzero]
  · exact AddressMap.amountAt_insert _ _ _ _

/-- No account is stored without shares, so how much it has says whether it is stored. -/
theorem get?_eq_of_amountAt {m n : AddressMap Amount} (hm : Held m) (hn : Held n)
    {account : Address} (h : m.amountAt account = n.amountAt account) :
    m.get? account = n.get? account := by
  unfold AddressMap.amountAt at h
  cases hget : m.get? account with
  | none =>
    cases hget' : n.get? account with
    | none => rfl
    | some s' =>
      rw [hget, hget'] at h
      exact absurd h.symm (hn account s' hget')
  | some s =>
    cases hget' : n.get? account with
    | none =>
      rw [hget, hget'] at h
      exact absurd h (hm account s hget)
    | some s' =>
      rw [hget, hget'] at h
      exact congrArg some (Bounded.ext h)

end Pool

namespace Books

open Pool

variable {b b' : Books}

def sharesOf (account : Address) (b : Books) : Int := (b.pool.sharesOf account).val

theorem sharesOf_eq (account : Address) (b : Books) :
    sharesOf account b = b.pool.balances.amountAt account := rfl

/-- What is settled credits the fees of the plan, and nothing else. -/
theorem sharesOf_commit {r : OracleReport} {plan : ReportPlan} {balance : Amount}
    (hplan : b.pool.plan r balance = .ok plan) (queue : WithdrawalQueue) (escrow : Escrow)
    (account : Address) :
    sharesOf account ⟨b.pool.commit plan queue, escrow⟩ =
      sharesOf account b + plan.outcome.feeMint.paidTo b.pool.policy.treasury account := by
  obtain ⟨s, hs⟩ := exists_planSteps hplan
  have hbalances : (b.pool.commit plan queue).balances = b.pool.credited s.credits := by
    rw [commit, hs.credits]
    rfl
  rw [sharesOf_eq, sharesOf_eq, hbalances, amountAt_feeCredits hs.crediting, hs.feeMint]
  exact Int.natCast_add _ _

theorem Done.sharesOf {op : Operation} {reply : Reply} (h : Done b op reply b')
    (account : Address) :
    b'.sharesOf account + op.debited account (.ok reply) =
      b.sharesOf account + op.credited b.pool.policy.treasury account (.ok reply) := by
  cases h with
  | @submit sender amount shares pool h =>
    obtain ⟨-, -, buffered, total, balance, -, -, hbalance, rfl⟩ := submit_eq_ok h
    have hbefore : (b.pool.sharesOf sender).val = b.pool.balances.amountAt sender := rfl
    rw [sharesOf_eq, sharesOf_eq, AddressMap.amountAt_insert]
    simp only [Operation.credited, Operation.debited]
    by_cases hsender : sender = account
    · subst hsender
      rw [if_pos rfl, if_pos rfl]
      omega
    · rw [if_neg (Ne.symm hsender), if_neg hsender]
  | @requestWithdrawal owner shares block id pool h =>
    obtain ⟨remaining, ether, queued, queue, hremaining, -, -, -, rfl⟩ :=
      requestWithdrawal_eq_ok h
    have hbefore : (b.pool.sharesOf owner).val = b.pool.balances.amountAt owner := rfl
    rw [sharesOf_eq, sharesOf_eq, amountAt_setBalance]
    simp only [Operation.credited, Operation.debited]
    by_cases howner : owner = account
    · subst howner
      rw [if_pos rfl, if_pos rfl]
      omega
    · rw [if_neg (Ne.symm howner), if_neg howner]
  | claim h =>
    obtain ⟨queue, -, rfl⟩ := claim_eq_ok h
    rfl
  | deposit h =>
    obtain ⟨_, _, _, _, -, -, -, rfl⟩ := deposit_eq_ok h
    rfl
  | manage h =>
    obtain ⟨_, rfl⟩ := manage_eq_ok h
    rfl
  | report _ hplan _ =>
    rw [sharesOf_commit hplan]
    exact Int.add_zero _
  | reportBatch _ hplan _ _ _ =>
    rw [sharesOf_commit hplan]
    exact Int.add_zero _

theorem run_sharesOf (hv : b.pool.queue.Valid) (op : Operation) (account : Address) :
    (b.run op).2.sharesOf account + op.debited account (b.run op).1 =
      b.sharesOf account + op.credited b.pool.policy.treasury account (b.run op).1 := by
  rcases run_cases hv op with ⟨failure, h⟩ | ⟨reply, b', h, hdone⟩
  · obtain ⟨hcredited, hdebited⟩ :=
      op.leaves_accounts_of_error failure b.pool.policy.treasury account
    rw [h, hcredited, hdebited]
  · rw [h]
    exact hdone.sharesOf account

/-- Along a run, an account holds all that it was credited and was not debited. -/
theorem after_sharesOf {policy : PoolPolicy} {p : Pool} (h : Pool.create policy = .ok p)
    (moves : List Move) (account : Address) :
    ((fresh p).after moves).sharesOf account + sumOver (Operation.debited account) (fresh p) moves =
      sumOver (Operation.credited policy.treasury account) (fresh p) moves := by
  have hcreate : Pool.Reached policy (fresh p).pool := .create h
  have hafter := after_sums (φ := sharesOf account)
    (f := fun op answer => op.credited policy.treasury account answer + - op.debited account answer)
    (fun {b} hb op => by
      have hrun := run_sharesOf hb.sound.queue op account
      rw [hb.governed.policy] at hrun
      omega)
    (fun _ _ => rfl) moves hcreate
  rw [sumOver_add, sumOver_neg] at hafter
  have hzero : sharesOf account (fresh p) = 0 := by
    rw [Pool.create_eq_ok h]
    rfl
  omega

end Books

namespace Pool

variable {policy : PoolPolicy} {p : Pool}

/-- An operation changes what an account holds by what it credits and debits.  An account of which
it does neither stays as it is stored. -/
theorem account_effects (h : Reached policy p) (escrow : Escrow) (op : Operation)
    (account : Address) {answer : Except Failure Reply} {b : Books}
    (hrun : (Books.mk p escrow).run op = (answer, b)) :
    ((b.pool.sharesOf account).val : Int) + op.debited account answer =
        (p.sharesOf account).val + op.credited policy.treasury account answer ∧
      (op.credited policy.treasury account answer = 0 → op.debited account answer = 0 →
        b.pool.balances.get? account = p.balances.get? account) := by
  have hreached : Reached policy b.pool := by
    have hnext := h.run escrow op
    rwa [hrun] at hnext
  have hchange := Books.run_sharesOf (b := ⟨p, escrow⟩) h.sound.queue op account
  rw [hrun, h.governed.policy] at hchange
  refine ⟨hchange, fun hcredited hdebited => ?_⟩
  rw [hcredited, hdebited] at hchange
  have hsame : (b.pool.balances.amountAt account : Int) = p.balances.amountAt account := by
    simpa only [Books.sharesOf_eq, Int.add_zero] using hchange
  exact get?_eq_of_amountAt hreached.sound.held h.sound.held (Int.ofNat_inj.1 hsame)

/-- Three modules, of which the treasury runs two, and deposits of the treasury and of two more
accounts. -/
def sharedRecipientMoves : List Move :=
  [.run (.manage (.add ⟨1, "first", .zero, 10000, 500, 500, .active, 10, Bounded.zero,
      Bounded.zero⟩)),
    .run (.manage (.add ⟨2, "second", .zero, 10000, 300, 400, .active, 10, Bounded.zero,
      Bounded.zero⟩)),
    .run (.manage (.add ⟨3, "third", .ofCount 1, 10000, 500, 500, .active, 20, Bounded.zero,
      Bounded.zero⟩)),
    .run (.submit .zero 100000), .run (.submit (.ofCount 1) 50000),
    .run (.submit (.ofCount 2) 50000)]

def beforeFees : Books := (Books.fresh (initial .standard)).after sharedRecipientMoves

def gainReport : Operation := .report ⟨1, .ofInt 20000, Bounded.zero, none, []⟩

/-- The treasury gets its own part and those of both its modules, the third operator gets one, and
an account that has no part in the fees stays as it is. -/
theorem account_effects_shared_recipient :
    gainReport.credited .zero .zero (beforeFees.run gainReport).1 = 1238 ∧
      ((beforeFees.run gainReport).2.pool.sharesOf .zero).val =
        (beforeFees.pool.sharesOf .zero).val + 1238 ∧
      ((beforeFees.run gainReport).2.pool.sharesOf (.ofCount 1)).val =
        (beforeFees.pool.sharesOf (.ofCount 1)).val + 458 ∧
      (beforeFees.run gainReport).2.pool.balances.get? (.ofCount 2) =
        beforeFees.pool.balances.get? (.ofCount 2) := by
  have hreached : Reached .standard beforeFees.pool :=
    Reached.after (b := Books.fresh (initial .standard)) sharedRecipientMoves (.create rfl)
  have hrun : (Books.mk beforeFees.pool beforeFees.escrow).run gainReport =
      ((beforeFees.run gainReport).1, (beforeFees.run gainReport).2) := rfl
  have hcredited : gainReport.credited .zero .zero (beforeFees.run gainReport).1 = 1238 := by
    decide +kernel
  have hother : gainReport.credited .zero (.ofCount 1) (beforeFees.run gainReport).1 = 458 := by
    decide +kernel
  have hnone : gainReport.credited .zero (.ofCount 2) (beforeFees.run gainReport).1 = 0 := by
    decide +kernel
  have htreasury := (account_effects hreached beforeFees.escrow gainReport .zero hrun).1
  have hthird := (account_effects hreached beforeFees.escrow gainReport (.ofCount 1) hrun).1
  have hsame := (account_effects hreached beforeFees.escrow gainReport (.ofCount 2) hrun).2
  have hdebited : ∀ account, gainReport.debited account (beforeFees.run gainReport).1 = 0 :=
    fun _ => rfl
  rw [hdebited] at htreasury hthird
  refine ⟨hcredited, ?_, ?_, hsame hnone (hdebited _)⟩
  · rw [show PoolPolicy.standard.treasury = Address.zero from rfl, hcredited] at htreasury
    omega
  · rw [show PoolPolicy.standard.treasury = Address.zero from rfl, hother] at hthird
    omega

end Pool
end LiquidStaking

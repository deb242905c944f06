/-
When the pool value is all pooled ether.

Buffered and staked ether each stay within their width, but their sum may not, and the pool value
is then cut off at the greatest amount.  Whether that happens is up to the ether that came in and
was not locked for withdrawals: nothing refuses a gain, or a deposit that buys fewer shares than it
has wei, for being too much.
-/
import LiquidStaking.Proofs.Pool.EscrowBacking
import LiquidStaking.Proofs.Pool.Ownership

namespace LiquidStaking

namespace PoolTotals

/-- Whether the pool value is all pooled ether. -/
def Exact (t : PoolTotals) : Prop := t.poolValue.val = t.ether

instance (t : PoolTotals) : Decidable t.Exact :=
  inferInstanceAs (Decidable (t.poolValue.val = t.ether))

theorem poolValue_eq (t : PoolTotals) : t.poolValue.val = min t.ether (Bounded.bound 128 - 1) := rfl

theorem exact_iff {t : PoolTotals} : t.Exact ↔ t.ether < Bounded.bound 128 := by
  have hpos := Bounded.bound_pos 128
  rw [Exact, poolValue_eq]
  omega

end PoolTotals

namespace Pool

variable {p p' : Pool} {r : OracleReport} {balance : Amount} {plan : ReportPlan} {s : PlanSteps}

theorem PlanSteps.Make.ether_rebased (hs : s.Make p r balance plan) :
    ((s.rebased p.totals).ether : Int) =
      p.totals.ether + r.delta.val + plan.outcome.rewardsApplied.val := by
  have hvalue : ((s.rebased p.totals).ether : Int) = _ := hs.value_change
  rw [hvalue, hs.rewardsApplied, PoolTotals.ether]
  omega

theorem PlanSteps.Make.ether_batched (hs : s.Make p r balance plan) :
    s.batched.ether + plan.locked = (s.rebased p.totals).ether := hs.value_batched

theorem PlanSteps.Make.ether_burnt (hs : s.Make p r balance plan) :
    s.burnt.ether = s.batched.ether := by
  rw [PoolTotals.ether, PoolTotals.ether, hs.burning.buffered, hs.burning.staked]

/-- A deposit that buys at least a share for every wei has to fit, since its shares have to. -/
theorem ether_fits_of_submit {sender : Address} {amount shares : Amount}
    (hcovered : p.totals.ether ≤ p.totals.totalShares.val)
    (h : p.submit sender amount = .ok (shares, p')) :
    p.totals.ether + amount.val < Bounded.bound 128 := by
  obtain ⟨hbought, hne, _, total, _, -, htotal, -, -⟩ := submit_eq_ok h
  have hfits := total.isLt
  have hbuys : amount.val ≤ shares.val := by
    rcases sharesForDeposit_eq_ok hbought with ⟨-, rfl⟩ | hbought
    · exact Nat.le_refl _
    · have hvalue : p.poolValue.val ≤ p.totals.totalShares.val :=
        Nat.le_trans (poolValue_le p.totals) hcovered
      have hpos : 0 < p.poolValue.val := by
        refine Nat.pos_of_ne_zero (fun hzero => hne ?_)
        rw [hbought, hzero, Nat.div_zero]
      rw [hbought, Nat.le_div_iff_mul_le hpos]
      exact Nat.mul_le_mul_left _ hvalue
  omega

end Pool

namespace Books

open Pool Operation

variable {b b' : Books} {op : Operation}

/-- The totals whose value an operation takes or leaves: those of the pool after it and, in an
accepted report, those with the balance change and the rewards, without the batch, and without the
burned shares. -/
inductive Values (b : Books) (op : Operation) : PoolTotals → Prop
  | left : Values b op (b.run op).2.pool.totals
  | planned {r : OracleReport} {plan : ReportPlan} {s : PlanSteps} {t : PoolTotals}
      (hop : op = .report r) (haccepted : (b.report r).1 = .ok plan.outcome)
      (hs : s.Make b.pool r b.escrow.balance plan)
      (ht : t ∈ [s.rebased b.pool.totals, s.batched, s.burnt]) : Values b op t

theorem ether_of_planned {r : OracleReport} {plan : ReportPlan} {s : PlanSteps} {t : PoolTotals}
    (hs : s.Make b.pool r b.escrow.balance plan)
    (ht : t ∈ [s.rebased b.pool.totals, s.batched, s.burnt]) :
    (t.ether : Int) ≤
      b.pool.totals.ether + r.delta.val + plan.outcome.rewardsApplied.val := by
  have hrebased := hs.ether_rebased
  have hbatched := hs.ether_batched
  have hburnt := hs.ether_burnt
  simp only [List.mem_cons, List.not_mem_nil, or_false] at ht
  rcases ht with rfl | rfl | rfl <;> omega

theorem after_ether {policy : PoolPolicy} {p : Pool} (h : Pool.create policy = .ok p)
    (moves : List Move) :
    (((fresh p).after moves).pool.totals.ether : Int) +
        sumOver Operation.lockedFor (fresh p) moves =
      sumOver Operation.brought (fresh p) moves := by
  have hcreate : Pool.Reached policy (fresh p).pool := .create h
  have hafter := after_sums (φ := fun b => (b.pool.totals.ether : Int))
    (f := fun op answer => op.brought answer + - op.lockedFor answer)
    (fun hb op => by have := run_ether hb.sound.queue op; omega) (fun _ _ => rfl) moves hcreate
  rw [sumOver_add, sumOver_neg] at hafter
  have hzero : (fresh p).pool.totals.ether = 0 := by
    rw [Pool.create_eq_ok h]
    rfl
  omega

theorem run_report_eq_ok_iff {r : OracleReport} {o : ReportOutcome} :
    (b.run (.report r)).1 = .ok (.outcome o) ↔ (b.report r).1 = .ok o := by
  rcases hreport : b.report r with ⟨answer, b'⟩
  cases answer <;> simp [run, hreport]

theorem locks_nothing {op : Operation} (h : ¬ ∃ r o, op = .report r ∧ (b.report r).1 = .ok o) :
    op.lockedFor (b.run op).1 = 0 := by
  cases op with
  | report r =>
    rcases hreport : b.report r with ⟨answer, b'⟩
    cases answer with
    | error failure => simp only [run, hreport, Operation.lockedFor]
    | ok o => exact absurd ⟨r, o, rfl, by rw [hreport]⟩ h
  | submit => rfl
  | requestWithdrawal => rfl
  | claim => rfl
  | deposit => rfl
  | manage => rfl

/-- Of the totals that an operation takes the value of, some have all the ether there was and what
the operation brings, and none have more. -/
theorem exists_greatest (hv : b.pool.queue.Valid) (op : Operation) :
    ∃ t, b.Values op t ∧
      (t.ether : Int) = b.pool.totals.ether + op.brought (b.run op).1 ∧
      ∀ t', b.Values op t' → t'.ether ≤ t.ether := by
  have hleft := run_ether hv op
  by_cases hreport : ∃ r o, op = .report r ∧ (b.report r).1 = .ok o
  · obtain ⟨r, o, rfl, haccepted⟩ := hreport
    have hpair : b.report r = (.ok o, (b.report r).2) := Prod.ext haccepted rfl
    obtain ⟨plan, s, hs, rfl, -⟩ := exists_steps hv hpair
    have hrebased := hs.ether_rebased
    rw [run_report_eq_ok_iff.2 haccepted, hs.lockedFor_eq, brought_report] at hleft
    rw [run_report_eq_ok_iff.2 haccepted, brought_report]
    refine ⟨_, .planned rfl haccepted hs List.mem_cons_self, by omega, fun t' ht' => ?_⟩
    cases ht' with
    | left => omega
    | @planned r' plan' s' _ hop haccepted' hs' ht =>
      cases hop
      have hsame : plan'.outcome = plan.outcome := Except.ok.inj (haccepted'.symm.trans haccepted)
      have hle := ether_of_planned hs' ht
      rw [hsame] at hle
      omega
  · rw [locks_nothing hreport] at hleft
    refine ⟨_, .left, by omega, fun t' ht' => ?_⟩
    cases ht' with
    | left => exact Nat.le_refl _
    | planned hop haccepted _ _ => exact absurd ⟨_, _, hop, haccepted⟩ hreport

/-- All values that an operation takes or leaves are exact if what it brings fits. -/
theorem values_exact_iff (hv : b.pool.queue.Valid) (op : Operation) :
    (∀ t, b.Values op t → t.Exact) ↔
      (b.pool.totals.ether : Int) + op.brought (b.run op).1 < Bounded.bound 128 := by
  obtain ⟨greatest, hgreatest, hether, hmost⟩ := exists_greatest hv op
  constructor
  · intro h
    have hfits := PoolTotals.exact_iff.1 (h greatest hgreatest)
    omega
  · intro hfits t ht
    have hle := hmost t ht
    exact PoolTotals.exact_iff.2 (by omega)

/-- Whether an operation is a deposit into a pool with fewer shares than wei, or a report of a net
gain that is accepted. -/
inductive MayExceed (b : Books) : Operation → Prop
  | submit {sender : Address} {amount : Amount}
      (hscarce : b.pool.totals.totalShares.val < b.pool.totals.ether) :
      MayExceed b (.submit sender amount)
  | report {r : OracleReport} {o : ReportOutcome} (haccepted : (b.report r).1 = .ok o)
      (hgain : 0 < r.delta.val + o.rewardsApplied.val) : MayExceed b (.report r)

theorem mayExceed_of_not_exact (hv : b.pool.queue.Valid) (hexact : b.pool.totals.Exact)
    {t : PoolTotals} (ht : b.Values op t) (hnot : ¬ t.Exact) : b.MayExceed op := by
  have hbefore := PoolTotals.exact_iff.1 hexact
  have hexceeds : ¬ (b.pool.totals.ether : Int) + op.brought (b.run op).1 < Bounded.bound 128 :=
    fun hfits => hnot ((values_exact_iff hv op).2 hfits t ht)
  rcases run_cases hv op with ⟨failure, hrun⟩ | ⟨reply, b', hrun, hdone⟩
  · rw [hrun, brought_of_error] at hexceeds
    omega
  · simp only [hrun] at hexceeds
    -- Only what brings ether can exceed.
    have hbrings : 0 < op.brought (.ok reply) := by omega
    have hreport : ∀ {r : OracleReport} {o : ReportOutcome}, op = .report r →
        reply = .outcome o → b.MayExceed op := by
      rintro r o rfl rfl
      rw [brought_report] at hbrings
      exact .report (run_report_eq_ok_iff.1 (congrArg Prod.fst hrun)) hbrings
    cases hdone with
    | submit h =>
      rw [brought_submit] at hexceeds
      refine .submit (Nat.not_le.1 (fun hcovered => ?_))
      have hfits := ether_fits_of_submit hcovered h
      omega
    | report => exact hreport rfl rfl
    | reportBatch => exact hreport rfl rfl
    | requestWithdrawal | claim | deposit | manage =>
      rw [brought_of_internal rfl] at hbrings
      exact absurd hbrings (Int.lt_irrefl 0)

end Books

namespace Pool

variable {policy : PoolPolicy} {p : Pool}

/-- The ether of a pool is what came in and was not locked for withdrawals, and the pool value is
exact if that fits.  Then the values that an operation takes and leaves are exact if what it brings
fits as well, and only a deposit into a pool with fewer shares than wei and a report of a gain can
bring too much. -/
theorem value_exact_while_fitting (h : create policy = .ok p) (moves : List Move) {b : Books}
    (hb : b = (Books.fresh p).after moves) :
    (b.pool.totals.ether : Int) + Books.sumOver Operation.lockedFor (Books.fresh p) moves =
        Books.sumOver Operation.brought (Books.fresh p) moves ∧
      (b.pool.totals.Exact ↔ Books.sumOver Operation.brought (Books.fresh p) moves <
        Bounded.bound 128 + Books.sumOver Operation.lockedFor (Books.fresh p) moves) ∧
      (¬ b.pool.totals.Exact → b.pool.poolValue.val = Bounded.bound 128 - 1) ∧
      (b.pool.totals.Exact → ∀ op : Operation,
        ((∀ t, b.Values op t → t.Exact) ↔
          (b.pool.totals.ether : Int) + op.brought (b.run op).1 < Bounded.bound 128) ∧
        ∀ t, b.Values op t → ¬ t.Exact → b.MayExceed op) := by
  have hether := Books.after_ether h moves
  have hv : b.pool.queue.Valid := hb ▸ (Reached.after moves (.create h)).sound.queue
  rw [← hb] at hether
  refine ⟨hether, ?_, fun hnot => ?_, fun hexact op => ⟨Books.values_exact_iff hv op,
    fun t => Books.mayExceed_of_not_exact hv hexact⟩⟩
  · rw [PoolTotals.exact_iff]
    omega
  · rw [PoolTotals.exact_iff] at hnot
    rw [poolValue, PoolTotals.poolValue_eq]
    omega

def changeReport (block : Count) (change : Int) (finalize : Option Count) : Operation :=
  .report ⟨block, .ofInt change, Bounded.zero, finalize, []⟩

/-- All but a thousand wei deposited, and the rest gained but for one wei. -/
def almostFullMoves : List Move :=
  [.run (.submit .zero (Bounded.clamp (Bounded.bound 128 - 1000))),
    .run (changeReport 1 999 none)]

def almostFull : Books := (Books.fresh (initial .standard)).after almostFullMoves

/-- The value is the greatest there is, and exact.  A loss keeps all values exact, and a gain of one
wei more does not. -/
theorem value_exact_while_fitting_almost :
    almostFull.pool.totals.Exact ∧ almostFull.pool.poolValue.val = Bounded.bound 128 - 1 ∧
      (almostFull.report ⟨2, .ofInt (-1), Bounded.zero, none, []⟩).1.toOption.isSome = true ∧
      (∀ t, almostFull.Values (changeReport 2 (-1) none) t → t.Exact) ∧
      ¬ (∀ t, almostFull.Values (changeReport 2 1 none) t → t.Exact) := by
  have hcreate : create .standard = .ok (initial .standard) := rfl
  have hb : almostFull = (Books.fresh (initial .standard)).after almostFullMoves := rfl
  obtain ⟨-, hiff, -, hop⟩ := value_exact_while_fitting hcreate almostFullMoves hb
  have hexact : almostFull.pool.totals.Exact := hiff.2 (by decide +kernel)
  obtain ⟨hloss, -⟩ := hop hexact (changeReport 2 (-1) none)
  obtain ⟨hgain, -⟩ := hop hexact (changeReport 2 1 none)
  refine ⟨hexact, by decide +kernel, by decide +kernel, hloss.2 (by decide +kernel), ?_⟩
  rw [hgain]
  decide +kernel

/-- The greatest amount there is. -/
def allEther : Amount := Bounded.clamp (Bounded.bound 128)

def full : Books := (Books.fresh (initial .standard)).after [.run (.submit .zero allEther)]

/-- A share that is worth half of all the ether that fits. -/
def halfFull : Books :=
  (Books.fresh (initial .standard)).after
    [.run (.submit .zero 1), .run (changeReport 1 (Bounded.bound 127 - 1) none)]

def fullWithRequest : Books :=
  full.after [.run (.requestWithdrawal .zero 1000 Bounded.zero)]

/-- Into a pool with all the ether that fits a gain of one wei is taken, and into one with half of
it a deposit of the other half.  What the batch of a report takes out of such a pool is priced at a
value that is cut off, even if the pool fits before and after. -/
theorem value_cut_off :
    (Reached .standard (full.move (.run (changeReport 1 1 none))).pool ∧
      (full.move (.run (changeReport 1 1 none))).pool.totals.bufferedEther.val = 2 ^ 128 - 1 ∧
      (full.move (.run (changeReport 1 1 none))).pool.totals.stakedEther.val = 1 ∧
      (full.move (.run (changeReport 1 1 none))).pool.poolValue.val = 2 ^ 128 - 1) ∧
    (Reached .standard halfFull.pool ∧ halfFull.pool.totals.Exact ∧
      ∃ shares p, halfFull.pool.submit .zero (Bounded.clamp (Bounded.bound 127)) =
        .ok (shares, p) ∧ ¬ p.totals.Exact) ∧
    Reached .standard fullWithRequest.pool ∧ fullWithRequest.pool.totals.Exact ∧
      (fullWithRequest.move (.run (changeReport 1 1 (some Bounded.zero)))).pool.totals.Exact ∧
      ¬ ∀ t, fullWithRequest.Values (changeReport 1 1 (some Bounded.zero)) t → t.Exact := by
  have hcreate : create .standard = .ok (initial .standard) := rfl
  have hfull : Reached .standard full.pool := reached_of_moves hcreate _
  have hrequest : Reached .standard fullWithRequest.pool :=
    Reached.after (b := full) [.run (.requestWithdrawal .zero 1000 Bounded.zero)] hfull
  obtain ⟨⟨shares, p⟩, hsubmit, hover⟩ := exists_ok_of_any
    (halfFull.pool.submit .zero (Bounded.clamp (Bounded.bound 127)))
    (fun out => decide (out.2.totals.ether = Bounded.bound 128)) (by decide +kernel)
  have hether : p.totals.ether = Bounded.bound 128 := of_decide_eq_true hover
  refine ⟨⟨hfull.run _ _, by decide +kernel, by decide +kernel, by decide +kernel⟩,
    ⟨reached_of_moves hcreate _, by decide +kernel, shares, p, hsubmit, ?_⟩,
    hrequest, by decide +kernel, by decide +kernel, ?_⟩
  · rw [PoolTotals.exact_iff, hether]
    exact Nat.lt_irrefl _
  · rw [Books.values_exact_iff hrequest.sound.queue]
    decide +kernel

end Pool
end LiquidStaking

/-
Why a report is refused.

A plan makes dozens of checks.  One lemma for each step says which faults it may answer, and the
list of all of them is short: a report never finds its own budget used, and never an escrow that
holds less than is locked.
-/
import LiquidStaking.Proofs.Pool.Operations
import LiquidStaking.Proofs.Pool.Planning
import LiquidStaking.Proofs.Registry

namespace LiquidStaking

namespace Fault

/-- The faults of checked arithmetic. -/
def isArithmetic : Fault → Bool
  | overflow | underflow | divisionByZero | productOverflow | conversion => true
  | _ => false

/-- The faults a report may be refused with. -/
def refusesReport : Fault → Bool
  | overflow | underflow | divisionByZero | productOverflow | conversion => true
  | zeroShares _ | staleReport .. | invalidRange .. | insufficientBuffer .. => true
  | feeExceedsTotal .. | unknownModule _ => true
  | _ => false

/-- Whether a computation fails in arithmetic only. -/
abbrev InArithmetic {α : Type} (x : Except Fault α) : Prop := FailsOnly (·.isArithmetic = true) x

/-- Whether a property holds of all that settling a batch may fail with, differences and shortages
of ether apart. -/
structure AllowsBatch (P : Fault → Prop) : Prop where
  overflow : P .overflow
  divisionByZero : P .divisionByZero
  productOverflow : P .productOverflow
  conversion : P .conversion
  zeroShares : ∀ value, P (.zeroShares value)
  invalidRange : ∀ last first length, P (.invalidRange last first length)

/-- Whether it holds of all that a report may fail with, shortages of ether apart. -/
structure AllowsReport (P : Fault → Prop) : Prop extends AllowsBatch P where
  underflow : P .underflow
  staleReport : ∀ block last, P (.staleReport block last)
  feeExceedsTotal : ∀ fee precision, P (.feeExceedsTotal fee precision)
  unknownModule : ∀ id, P (.unknownModule id)

theorem refusesReport_allowsReport : AllowsReport (·.refusesReport = true) where
  overflow := rfl
  divisionByZero := rfl
  productOverflow := rfl
  conversion := rfl
  zeroShares := fun _ => rfl
  invalidRange := fun _ _ _ => rfl
  underflow := rfl
  staleReport := fun _ _ => rfl
  feeExceedsTotal := fun _ _ => rfl
  unknownModule := fun _ => rfl

theorem AllowsReport.of_arithmetic {P : Fault → Prop} (hP : AllowsReport P) (f : Fault)
    (h : f.isArithmetic = true) : P f := by
  cases f with
  | overflow => exact hP.overflow
  | underflow => exact hP.underflow
  | divisionByZero => exact hP.divisionByZero
  | productOverflow => exact hP.productOverflow
  | conversion => exact hP.conversion
  | _ => cases h

theorem AllowsReport.arithmetic {P : Fault → Prop} (hP : AllowsReport P) {α : Type}
    {x : Except Fault α} (h : InArithmetic x) : FailsOnly P x := h.mono hP.of_arithmetic

end Fault

open Fault

/- Arithmetic. -/

namespace Bounded

variable {bits : Nat}

theorem fit_faults {fault : Fault} (h : fault.isArithmetic = true) (n : Nat) :
    InArithmetic (fit fault n : Except Fault (Bounded bits)) := fit_fails h n

theorem narrow_faults (n : Nat) : InArithmetic (narrow n : Except Fault (Bounded bits)) :=
  fit_faults rfl n

theorem add_faults (a b : Bounded bits) : InArithmetic (a.add b) := fit_faults rfl _

theorem sub_faults (a b : Bounded bits) : InArithmetic (a.sub b) := sub_fails (fun _ => rfl)

end Bounded

theorem Delta.fit_faults {fault : Fault} (h : fault.isArithmetic = true) (i : Int) :
    InArithmetic (fit fault i) := by
  unfold fit
  cases ofInt? i with
  | some d => exact .ok d
  | none => exact .error h

theorem Amount.applyDelta_faults (a : Amount) (d : Delta) : InArithmetic (a.applyDelta d) := by
  unfold Amount.applyDelta
  split
  · exact Bounded.fit_faults rfl _
  · split
    · exact .ok _
    · exact .error rfl

theorem mulDiv_faults (a b d : Nat) (rounding : Rounding) :
    InArithmetic (mulDiv a b d rounding) := mulDiv_fails (fun _ => rfl) rfl

theorem mulDivAmount_faults (a b d : Nat) (rounding : Rounding) :
    InArithmetic (mulDivAmount a b d rounding) := mulDivAmount_fails (fun _ => rfl) rfl rfl

/- The budget. -/

namespace RebaseBudget

theorem allow_faults {b : RebaseBudget} {room : Except Fault Nat} (hroom : InArithmetic room)
    (whole amount divisor : Nat) :
    InArithmetic (if b.isExhausted = true then .ok (0, b)
      else if whole = 0 then .error .divisionByZero
      else do
        let n ← room
        if n ≤ amount then
          return (n, b.exhaust)
        else
          return (amount, b.consume (← mulDiv amount rebaseBase divisor .down))) := by
  split
  · exact .ok _
  · split
    · exact .error rfl
    · refine hroom.bind (fun n _ => ?_)
      split
      · exact .pure _
      · exact (mulDiv_faults _ _ _ _).bind (fun fraction _ => .pure _)

theorem appendEther_faults (b : RebaseBudget) (amount : Nat) :
    InArithmetic (b.appendEther amount) :=
  allow_faults (mulDiv_faults _ _ _ _) _ _ _

theorem deductShares_faults (b : RebaseBudget) (amount : Nat) :
    InArithmetic (b.deductShares amount) :=
  allow_faults (mulDiv_faults _ _ _ _) _ _ _

theorem applyDelta_faults {b : RebaseBudget} (hused : b.used.val = 0)
    (hnew : b.deltaApplied = false) (d : Delta) : InArithmetic (b.applyDelta d) := by
  unfold applyDelta
  have hfresh : ¬ (b.used.val ≠ 0 ∨ b.deltaApplied = true) := by simp [hused, hnew]
  rw [if_neg hfresh]
  split
  · exact (appendEther_faults _ _).bind (fun _ _ => .pure _)
  · exact (mulDiv_faults _ _ _ _).bind (fun _ _ => .pure _)

end RebaseBudget

/- The fees. -/

theorem FeeSplit.ofModules_fails {P : Fault → Prop} (hP : AllowsReport P)
    (ms : List StakingModule) : FailsOnly P (FeeSplit.ofModules ms) := by
  have hadd : ∀ (keys : Nat) (s : FeeSplit) (m : StakingModule),
      InArithmetic (FeeSplit.addModule keys s m) := by
    intro keys s m
    refine (mulDivAmount_faults _ _ _ _).bind (fun weight _ => ?_)
    refine (mulDivAmount_faults _ _ _ _).bind (fun fee _ => ?_)
    refine (mulDivAmount_faults _ _ _ _).bind (fun treasuryFee _ => ?_)
    refine (Bounded.add_faults _ _).bind (fun both _ => ?_)
    exact (Bounded.add_faults _ _).bind (fun totalFee _ => .pure _)
  unfold FeeSplit.ofModules
  refine FailsOnly.bind (hP.arithmetic (FailsOnly.foldlM (hadd _) _ _)) (fun split _ => ?_)
  split
  · exact .error (hP.feeExceedsTotal _ _)
  · exact .pure _

theorem FeeMint.compute_faults (rewards : Amount) (split : FeeSplit) (poolValue shares : Amount) :
    InArithmetic (FeeMint.compute rewards split poolValue shares) := by
  have hcount : ∀ (r f p v s : Nat), InArithmetic (FeeMint.shareCount r f p v s) := by
    intro r f p v s
    unfold FeeMint.shareCount
    simp only
    split
    · exact .error rfl
    · split
      · exact .error rfl
      · split
        · exact .error rfl
        · exact mulDivAmount_faults _ _ _ _
  have hadd : ∀ (total totalFee : Amount) (acc : Amount × List ModuleMint)
      (entry : (ModuleId × Address) × Amount),
      InArithmetic (FeeMint.addShare total totalFee acc entry) := by
    intro total totalFee acc entry
    refine FailsOnly.bind ((mulDivAmount_faults _ _ _ _).bind (fun n _ => .pure _))
      (fun part _ => ?_)
    exact (Bounded.add_faults _ _).bind (fun paid _ => .pure _)
  unfold FeeMint.compute
  split
  · exact .ok _
  · refine (hcount _ _ _ _ _).bind (fun total _ => ?_)
    refine (FailsOnly.foldlM (hadd _ _) _ _).bind (fun acc _ => ?_)
    exact (Bounded.sub_faults _ _).bind (fun treasury _ => .pure _)

/- Batches. -/

section

variable {P : Fault → Prop} {q : WithdrawalQueue}

theorem Fault.AllowsBatch.quotient (hP : AllowsBatch P) (a b d : Nat) (rounding : Rounding) :
    FailsOnly P (mulDiv a b d rounding) :=
  mulDiv_fails (fun _ => hP.divisionByZero) hP.productOverflow

namespace WithdrawalQueue

theorem checkRange_fails (hP : AllowsBatch P) (last : Count) : FailsOnly P (q.checkRange last) := by
  unfold checkRange
  split
  · exact .error (hP.invalidRange _ _ _)
  · exact .ok _

theorem settlement_fails (hP : AllowsBatch P) (hv : q.Valid) (last : Count)
    (poolValue shares : Amount) : FailsOnly P (q.settlement last poolValue shares) := by
  unfold settlement
  refine (checkRange_fails hP last).bind (fun _ hrange => ?_)
  obtain ⟨hfirst, hlast⟩ := checkRange_eq_ok_iff.1 hrange
  -- A range within the ledger has totals.
  obtain ⟨t, ht, -, -⟩ := hv.rangeTotals_eq hfirst hlast
  rw [ht, ok_bind]
  refine (Rate.ofAmounts_fails hP.zeroShares _ _).bind (fun rate _ => ?_)
  refine FailsOnly.bind ?_ (fun lock _ => .pure _)
  refine (hP.quotient _ _ _ _).bind (fun value _ => ?_)
  exact (Bounded.fit_fails hP.conversion _).bind (fun worth _ => .pure _)

/-- The escrow falls short of a batch only if it held less than what is locked before it was funded
for the batch. -/
theorem checkFinalize_fails (hP : AllowsBatch P) {last : Count}
    {lock poolValue shares balance : Amount}
    (hshort : balance.val < q.totalLocked.val + lock.val →
      ∀ required held, P (.insufficientEscrow required held)) :
    FailsOnly P (q.checkFinalize last lock poolValue shares balance) := by
  unfold checkFinalize
  refine (checkRange_fails hP last).bind (fun _ _ => ?_)
  refine (Bounded.fit_fails hP.overflow _).bind (fun total htotal => ?_)
  split
  · next hlt => exact .error (hshort (Bounded.fit_eq_ok_iff.1 htotal ▸ hlt) _ _)
  · refine (Rate.ofAmounts_fails hP.zeroShares _ _).bind (fun rate _ => ?_)
    exact (hP.quotient _ _ _ _).bind (fun price _ => .pure _)

end WithdrawalQueue

theorem Pool.neutralBurn_fails (hP : AllowsBatch P) (poolValue shares : Amount) (s : Settlement) :
    FailsOnly P (neutralBurn poolValue shares s) := by
  refine (Rate.ofAmounts_fails hP.zeroShares _ _).bind (fun rate _ => ?_)
  refine (hP.quotient _ _ _ _).bind (fun n _ => ?_)
  exact (Bounded.fit_fails hP.conversion _).bind (fun worth _ => .pure _)

end

namespace Pool

variable {p : Pool} {P : Fault → Prop}

theorem applyKeyUpdate_fails (hP : AllowsReport P) (r : Registry) (u : KeyUpdate) :
    FailsOnly P (applyKeyUpdate r u) := by
  have hget : ∀ (r : Registry) (id : ModuleId), FailsOnly P (r.get id) := by
    intro r id
    unfold Registry.get
    cases r.find? id with
    | some m => exact .ok m
    | none => exact .error (hP.unknownModule _)
  refine (hget r _).bind (fun m _ => ?_)
  rw [Registry.setKeys, Registry.apply_update rfl]
  exact (hget r _).bind (fun m _ => .pure _)

theorem applyDelta_faults {b : RebaseBudget} (hused : b.used.val = 0)
    (hnew : b.deltaApplied = false) (d : Delta) : InArithmetic (applyDelta b d) := by
  unfold applyDelta
  split
  · exact .ok _
  · exact (RebaseBudget.applyDelta_faults hused hnew d).bind (fun _ _ => .pure _)

theorem applyRewards_faults (b : RebaseBudget) (rewards : Amount) :
    InArithmetic (applyRewards b rewards) := by
  unfold applyRewards
  split
  · exact .ok _
  · refine (RebaseBudget.appendEther_faults _ _).bind (fun _ _ => ?_)
    exact (Bounded.narrow_faults _).bind (fun _ _ => .pure _)

theorem takeBatch_faults (t : PoolTotals) (s : Settlement) (burn discount : Amount) :
    InArithmetic (takeBatch t s burn discount) := by
  refine (Bounded.sub_faults _ _).bind (fun buffered _ => ?_)
  refine (Bounded.sub_faults _ _).bind (fun queued _ => ?_)
  refine (Bounded.sub_faults _ _).bind (fun supply _ => ?_)
  exact (Bounded.add_faults _ _).bind (fun pending _ => .pure _)

/-- Whether a property holds of the shortages of ether that a report may run into: of a buffer, once
the rewards are in it, for a batch, and of an escrow that holds less than is locked. -/
structure AllowsShortages (p : Pool) (balance : Amount) (P : Fault → Prop) : Prop where
  buffer : ∀ (buffered poolValue shares : Amount) (last : Count) (s : Settlement),
    p.totals.bufferedEther.val ≤ buffered.val → p.queue.settlement last poolValue shares = .ok s →
      buffered.val < s.etherToLock.val →
        ∀ required available, P (.insufficientBuffer required available)
  escrow : balance.val < p.queue.totalLocked.val →
    ∀ required available, P (.insufficientEscrow required available)

theorem planBatch_fails (hP : AllowsReport P) {balance : Amount}
    (hshort : p.AllowsShortages balance P) (hv : p.queue.Valid) {t : PoolTotals}
    (ht : p.totals.bufferedEther.val ≤ t.bufferedEther.val) (last : Count) :
    FailsOnly P (p.planBatch t last balance) := by
  unfold planBatch
  refine (WithdrawalQueue.settlement_fails hP.toAllowsBatch hv _ _ _).bind (fun s hs => ?_)
  split
  · next hlt => exact .error (hshort.buffer _ _ _ _ _ ht hs hlt _ _)
  · refine (neutralBurn_fails hP.toAllowsBatch _ _ _).bind (fun burn _ => ?_)
    refine (hP.arithmetic (Bounded.sub_faults _ _)).bind (fun discount _ => ?_)
    refine (hP.arithmetic (Bounded.add_faults _ _)).bind (fun funded hfunded => ?_)
    refine (WithdrawalQueue.checkFinalize_fails hP.toAllowsBatch (fun hless => ?_)).bind
      (fun _ _ => ?_)
    · have hfunded := Bounded.add_eq_ok_iff.1 hfunded
      exact hshort.escrow (by omega)
    · exact (hP.arithmetic (takeBatch_faults _ _ _ _)).bind (fun _ _ => .pure _)

theorem burnPending_faults (t : PoolTotals) (b : RebaseBudget) :
    InArithmetic (burnPending t b) := by
  unfold burnPending
  split
  · exact .ok _
  · refine (RebaseBudget.deductShares_faults _ _).bind (fun _ _ => ?_)
    refine (Bounded.narrow_faults _).bind (fun burned _ => ?_)
    refine (Bounded.sub_faults _ _).bind (fun pending _ => ?_)
    exact (Bounded.sub_faults _ _).bind (fun supply _ => .pure _)

theorem netGain_faults (d : Delta) (applied : Amount) : InArithmetic (netGain d applied) := by
  refine (Delta.fit_faults rfl _).bind (fun gain _ => ?_)
  exact (Delta.fit_faults rfl _).bind (fun net _ => .pure _)

theorem planFees_fails (hP : AllowsReport P) (ms : List StakingModule) (t : PoolTotals) (d : Delta)
    (applied : Amount) : FailsOnly P (planFees ms t d applied) := by
  unfold planFees
  refine (hP.arithmetic (netGain_faults d applied)).bind (fun gain _ => ?_)
  split
  · exact .pure _
  · refine (FeeSplit.ofModules_fails hP _).bind (fun split _ => ?_)
    exact hP.arithmetic (FeeMint.compute_faults _ _ _ _)

theorem feeCredits_faults (p : Pool) (mint : FeeMint) : InArithmetic (p.feeCredits mint) := by
  refine FailsOnly.foldlM (fun credits payment => ?_) _ _
  unfold addCredit
  split
  · exact .ok _
  · exact (Bounded.add_faults _ _).bind (fun after _ => .pure _)

theorem plan_fails (hP : AllowsReport P) {balance : Amount} (hshort : p.AllowsShortages balance P)
    (hv : p.queue.Valid) (hpolicy : p.policy.validate = .ok ()) (r : OracleReport) :
    FailsOnly P (p.plan r balance) := by
  unfold Pool.plan
  refine FailsOnly.bind (FailsOnly.foldlM (applyKeyUpdate_fails hP) _ _) (fun registry _ => ?_)
  have hstart : ∀ pool shares, RebaseBudget.start p.policy.maxRebase pool shares =
      .ok ⟨pool, shares, p.policy.maxRebase, Bounded.zero, false⟩ := by
    intro pool shares
    rw [RebaseBudget.start, if_neg (PoolPolicy.validate_eq_ok_iff.1 hpolicy).1]
  rw [hstart, ok_bind]
  refine (hP.arithmetic (applyDelta_faults rfl rfl _)).bind (fun widened _ => ?_)
  refine (hP.arithmetic (Amount.applyDelta_faults _ _)).bind (fun staked _ => ?_)
  refine (hP.arithmetic (applyRewards_faults _ _)).bind (fun rewards _ => ?_)
  refine (hP.arithmetic (Bounded.add_faults _ _)).bind (fun buffered hbuffered => ?_)
  refine FailsOnly.bind ?_ (fun batch _ => ?_)
  · unfold planBatch?
    split
    · exact .ok _
    · have hgrown : p.totals.bufferedEther.val ≤ buffered.val := by
        have hsum := Bounded.add_eq_ok_iff.1 hbuffered
        omega
      exact (planBatch_fails hP hshort hv hgrown _).bind (fun _ _ => .pure _)
  refine (hP.arithmetic (burnPending_faults _ _)).bind (fun burnt _ => ?_)
  refine (planFees_fails hP _ _ _ _).bind (fun mint _ => ?_)
  refine (hP.arithmetic (feeCredits_faults _ _)).bind (fun credits _ => ?_)
  exact (hP.arithmetic (Bounded.add_faults _ _)).bind (fun supply _ => .pure _)

theorem checkNewer_fails (hP : AllowsReport P) (p : Pool) (r : OracleReport) :
    FailsOnly P (p.checkNewer r) := by
  unfold checkNewer
  split
  · split
    · exact .error (hP.staleReport _ _)
    · exact .ok _
  · exact .ok _

end Pool
end LiquidStaking

/-
What the queue computes without a check.

Running totals are checked.  The numbers of requests, the places of the price history and the end
of a batch are not: they stay within their widths because requests are counted, the finalized ones
come first, and every run of prices ends before them.
-/
import LiquidStaking.Proofs.Withdrawal.Validity

namespace LiquidStaking

namespace PriceHistory

/-- How many runs are left when a scan from the end looks for the run of a request. -/
inductive Scans (h : PriceHistory) (request : Nat) : Nat → Prop
  | start : Scans h request h.size
  | step {left : Nat} {run : PriceRun} (hscan : Scans h request (left + 1))
      (hrun : h.runs[left]? = some run) (hlast : request ≤ run.last.val) : Scans h request left

/-- What checking a hint, scanning for a run and recording a batch compute. -/
inductive Computes (h : PriceHistory) : Unchecked → Prop
  | hint {i request : Nat} {run : PriceRun} (hrun : h.runs[i]? = some run)
      (hlast : request ≤ run.last.val) (hi : i ≠ 0) : Computes h (.difference i 1)
  | hintEntry {i request : Nat} {run : PriceRun} (hrun : h.runs[i]? = some run)
      (hlast : request ≤ run.last.val) (hi : i ≠ 0) : Computes h (.entry (i - 1) h.size)
  | scan {request left : Nat} (hscan : h.Scans request left) (hleft : left ≠ 0) :
      Computes h (.difference left 1)
  | scanEntry {request left : Nat} (hscan : h.Scans request left) (hleft : left ≠ 0) :
      Computes h (.entry (left - 1) h.size)
  | recordAfter {last : Nat} {before : PriceRun} (hbefore : h.runs.getLast? = some before)
      (hlast : last ≤ before.last.val) : Computes h (.sum 64 (before.last.val + 1))
  | recordLength {last : Nat} {before : PriceRun} (hbefore : h.runs.getLast? = some before)
      (hlast : last ≤ before.last.val) : Computes h (.sum 64 (last + 1))

variable {h : PriceHistory} {n : Nat} {u : Unchecked}

theorem Scans.le_size {request left : Nat} (hscan : h.Scans request left) : left ≤ h.size := by
  induction hscan with
  | start => exact Nat.le_refl _
  | step _ _ _ ih => exact Nat.le_of_succ_le ih

/-- A scan goes down to the first run that does not end before the request, and stops there. -/
theorem scans_iff (ordered : h.runs.Pairwise (fun a b => a.last.val < b.last.val))
    {request left : Nat} :
    h.Scans request left ↔ h.covering request ≤ left ∧ left ≤ h.size := by
  constructor
  · intro hscan
    refine ⟨?_, hscan.le_size⟩
    cases hscan with
    | start => exact List.findIdx_le_length
    | step _ hrun hlast =>
      obtain ⟨hlt, hget⟩ := List.getElem?_eq_some_iff.1 hrun
      by_contra hbelow
      have hnot := List.not_of_lt_findIdx (Nat.lt_of_not_le hbelow)
      rw [hget, reaches, decide_eq_false_iff_not] at hnot
      exact hnot hlast
  · rintro ⟨hcovering, hleft⟩
    obtain ⟨rest, hrest⟩ := Nat.exists_eq_add_of_le hleft
    induction rest generalizing left with
    | zero =>
      obtain rfl : h.size = left := hrest
      exact .start
    | succ rest ih =>
      have hlt : left < h.runs.length := by
        show left < h.size
        omega
      have hnext := ih (Nat.le_succ_of_le hcovering) hlt (by omega)
      refine .step hnext (List.getElem?_eq_getElem hlt) (of_decide_eq_true ?_)
      have hfirst : reaches request h.runs[h.covering request] = true :=
        List.findIdx_getElem (w := Nat.lt_of_le_of_lt hcovering hlt)
      rcases Nat.lt_or_eq_of_le hcovering with hbefore | hat
      · exact reaches_mono (List.pairwise_iff_getElem.1 ordered _ _ _ hlt hbefore) hfirst
      · simpa [← hat, reaches] using hfirst

theorem Computes.fits (hu : h.Computes u) (hv : h.Valid n) (hn : n < Bounded.bound 64) :
    u.Fits := by
  have hends : ∀ {before : PriceRun}, h.runs.getLast? = some before → before.last.val < n :=
    fun hbefore => hv.last_lt (List.mem_of_getLast? hbefore)
  cases hu with
  | hint _ _ hi => exact Nat.pos_of_ne_zero hi
  | hintEntry hrun _ _ =>
    exact Nat.lt_of_le_of_lt (Nat.sub_le _ 1) (List.getElem?_eq_some_iff.1 hrun).1
  | scan _ hleft => exact Nat.pos_of_ne_zero hleft
  | scanEntry hscan hleft =>
    have hle := hscan.le_size
    show _ - 1 < h.size
    omega
  | recordAfter hbefore _ =>
    have hlt := hends hbefore
    show _ + 1 < Bounded.bound 64
    omega
  | recordLength hbefore hlast =>
    have hlt := hends hbefore
    show _ + 1 < Bounded.bound 64
    omega

end PriceHistory

namespace WithdrawalQueue

/-- What views, batches and claims of a queue compute: the last request, the one before a range, the
place of a claim and the end of a batch. -/
inductive Computes (q : WithdrawalQueue) : Unchecked → Prop
  | unfinalized (h : q.finalizedCount.val ≠ q.length) : Computes q (.difference q.length 1)
  | range {first last : Nat} {r : WithdrawalRequest} (hlast : q.request last = .ok r)
      (hfirst : first ≠ 0) : Computes q (.difference first 1)
  | claim {id : Count} {hint : Option Nat} {index : Nat}
      (h : q.claimablePriceIndex id hint = .ok index) : Computes q (.entry id.val q.length)
  | batch {last : Count} (h : q.checkRange last = .ok ()) : Computes q (.sum 64 (last.val + 1))
  | prices {u : Unchecked} (h : q.prices.Computes u) : Computes q u

variable {q : WithdrawalQueue} {u : Unchecked}

theorem Computes.fits (hu : q.Computes u) (hv : q.Valid) : u.Fits := by
  have hreached := hv.reached
  have hcounted := hv.counted
  cases hu with
  | unfinalized hne =>
    show 1 ≤ q.length
    omega
  | range _ hfirst => exact Nat.pos_of_ne_zero hfirst
  | @claim id hint index h =>
    unfold claimablePriceIndex at h
    split at h
    · cases h
    · next hfin =>
      show id.val < q.length
      omega
  | @batch last h =>
    obtain ⟨-, hlast⟩ := checkRange_eq_ok_iff.1 h
    show last.val + 1 < Bounded.bound 64
    omega
  | prices h => exact h.fits hv.priced q.finalizedCount.isLt

end WithdrawalQueue
end LiquidStaking

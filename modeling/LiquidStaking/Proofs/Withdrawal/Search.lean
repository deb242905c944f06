/-
One covering run, however it is looked for.

Bisection needs the runs to be in order and nothing else.  It then stops at the first run that
does not end before a request, which is the run that the scan finds and the only one that covers
the request.
-/
import LiquidStaking.Proofs.Withdrawal.Prices

namespace LiquidStaking
namespace PriceHistory

/- The window of a bisection always ends where `p` has stopped to hold, and starts at its first
place or at one where `p` holds. -/

theorem bisect_spec {p : Nat → Bool} (hp : ∀ i j, i ≤ j → p j = true → p i = true) :
    ∀ (width start : Nat), 0 < width →
      start ≤ bisect p start width ∧ bisect p start width < start + width ∧
        (bisect p start width = start ∨ p (bisect p start width) = true) ∧
        ∀ i, bisect p start width < i → i < start + width → p i = false := by
  intro width
  induction width using Nat.strongRecOn with
  | _ width ih =>
    intro start hwidth
    rw [bisect]
    by_cases hone : width ≤ 1
    · rw [if_pos hone]
      exact ⟨Nat.le_refl _, by omega, .inl rfl, fun i hlt hi => by omega⟩
    · rw [if_neg hone]
      have hshorter : width - width / 2 < width := by omega
      have hleft : 0 < width - width / 2 := by omega
      by_cases hmid : p (start + width / 2) = true
      · rw [if_pos hmid]
        obtain ⟨hge, hlt, hat, hafter⟩ := ih _ hshorter (start + width / 2) hleft
        refine ⟨by omega, by omega, .inr ?_, fun i hi hend => hafter i hi (by omega)⟩
        rcases hat with heq | hat
        · rw [heq]
          exact hmid
        · exact hat
      · rw [if_neg hmid]
        obtain ⟨hge, hlt, hat, hafter⟩ := ih _ hshorter start hleft
        refine ⟨hge, by omega, hat, fun i hi hend => ?_⟩
        by_cases hin : i < start + (width - width / 2)
        · exact hafter i hi hin
        · exact Bool.eq_false_iff.2 (fun hi => hmid (hp _ i (by omega) hi))

variable {h : PriceHistory}

/-- Whether the run at a place ends before a request. -/
def endsBefore (h : PriceHistory) (request : Count) (i : Nat) : Bool :=
  (h.runs[i]?).any (fun run => decide (run.last.val < request.val))

theorem endsBefore_mono (ordered : h.runs.Pairwise (fun a b => a.last.val < b.last.val))
    (request : Count) {i j : Nat} (hij : i ≤ j) (hj : h.endsBefore request j = true) :
    h.endsBefore request i = true := by
  unfold endsBefore at hj ⊢
  obtain ⟨run, hrun, hlast⟩ := (Option.any_eq_true _ _).1 hj
  obtain ⟨hjlt, rfl⟩ := List.getElem?_eq_some_iff.1 hrun
  have hilt : i < h.runs.length := Nat.lt_of_le_of_lt hij hjlt
  rw [List.getElem?_eq_getElem hilt, Option.any_some]
  simp only [decide_eq_true_eq] at hlast ⊢
  rcases Nat.lt_or_eq_of_le hij with hlt | rfl
  · have := List.pairwise_iff_getElem.1 ordered i j hilt hjlt hlt
    omega
  · exact hlast

theorem endsBefore_of_lt {request : Count} {i : Nat} (hi : i < h.size) :
    h.endsBefore request i = !reaches request.val h.runs[i] := by
  rw [endsBefore, List.getElem?_eq_getElem hi, Option.any_some, reaches]
  by_cases hlt : h.runs[i].last.val < request.val
  · have hnot : ¬ request.val ≤ h.runs[i].last.val := by omega
    simp [hlt]
  · have hle : request.val ≤ h.runs[i].last.val := by omega
    simp [hlt, hle]

theorem firstNotBefore_eq (ordered : h.runs.Pairwise (fun a b => a.last.val < b.last.val))
    (request : Count) : h.firstNotBefore request = h.covering request.val := by
  -- The covering run is the place from which on no run ends before the request.
  have hplace : ∀ m, m ≤ h.size → (∀ i < m, h.endsBefore request i = true) →
      (m < h.size → h.endsBefore request m = false) → m = h.covering request.val := by
    intro m hm hbefore hat
    rcases Nat.lt_or_eq_of_le hm with hlt | hend
    · refine ((List.findIdx_eq (p := reaches request.val) hlt).2 ⟨?_, fun j hj => ?_⟩).symm
      · have hat := hat hlt
        rw [endsBefore_of_lt hlt] at hat
        simpa using hat
      · have hj := hbefore j hj
        rw [endsBefore_of_lt (Nat.lt_trans ‹_› hlt)] at hj
        exact (Bool.not_eq_true' _).mp hj
    · have hnone : ¬ h.covering request.val < h.size := by
        intro hlt
        have hreach : reaches request.val h.runs[h.covering request.val] = true :=
          List.findIdx_getElem
        have hbefore := hbefore (h.covering request.val) (by omega)
        rw [endsBefore_of_lt hlt, hreach] at hbefore
        cases hbefore
      have hle : h.covering request.val ≤ h.size := List.findIdx_le_length
      omega
  have hmono := fun i j => endsBefore_mono ordered request (i := i) (j := j)
  show (if h.endsBefore request (bisect (h.endsBefore request) 0 h.size) then
    bisect (h.endsBefore request) 0 h.size + 1 else
    bisect (h.endsBefore request) 0 h.size) = _
  rcases Nat.eq_zero_or_pos h.size with hzero | hpos
  · have hnil : h.runs = [] := List.eq_nil_of_length_eq_zero hzero
    rw [hzero, bisect, if_pos (Nat.zero_le 1), endsBefore, covering, hnil]
    rfl
  · obtain ⟨-, hlt, hat, hafter⟩ := bisect_spec hmono h.size 0 hpos
    rw [Nat.zero_add] at hlt hafter
    by_cases hends : h.endsBefore request (bisect (h.endsBefore request) 0 h.size) = true
    · rw [if_pos hends]
      refine hplace _ hlt (fun i hi => hmono i _ (Nat.le_of_lt_succ hi) hends) (fun hin => ?_)
      exact hafter _ (Nat.lt_succ_self _) hin
    · rw [if_neg hends]
      refine hplace _ (Nat.le_of_lt hlt) (fun i hi => ?_) (fun _ => Bool.eq_false_iff.2 hends)
      rcases hat with hzero | hat
      · omega
      · exact absurd hat hends

theorem findIndexed_eq (ordered : h.runs.Pairwise (fun a b => a.last.val < b.last.val))
    (request : Count) :
    h.findIndexed request =
      if h.covering request.val < h.size then .ok (h.covering request.val)
      else .error (.priceNotFound request.val) := by
  have hle : h.covering request.val ≤ h.size := List.findIdx_le_length
  show (if h.firstNotBefore request = h.size then _ else Except.ok (h.firstNotBefore request)) = _
  rw [firstNotBefore_eq ordered]
  by_cases hlt : h.covering request.val < h.size
  · rw [if_neg (Nat.ne_of_lt hlt), if_pos hlt]
  · rw [if_pos (by omega), if_neg hlt]

/-- Whether a run covers a request: it reaches it, and the run before does not. -/
def Covers (h : PriceHistory) (i request : Nat) : Prop :=
  ∃ run, h.runs[i]? = some run ∧ request ≤ run.last.val ∧
    ∀ j before, j + 1 = i → h.runs[j]? = some before → before.last.val < request

/-- A hint is right for the run that covers a request, and for no other. -/
theorem isValidHint_iff_covers {i : Nat} {request : Count} :
    h.isValidHint i request = true ↔ h.Covers i request.val := by
  unfold isValidHint Covers
  cases hrun : h.runs[i]? with
  | none => simp
  | some run =>
    simp only [Bool.and_eq_true, decide_eq_true_eq, Option.some.injEq, exists_eq_left']
    refine and_congr_right (fun _ => ?_)
    cases i with
    | zero => simp
    | succ j =>
      show (h.runs[j]?).all _ = true ↔ _
      rw [Option.all_eq_true]
      simp only [decide_eq_true_eq]
      constructor
      · intro hall k before hk hbefore
        cases hk
        exact hall before hbefore
      · intro hall before hbefore
        exact hall j before rfl hbefore

theorem covers_iff (ordered : h.runs.Pairwise (fun a b => a.last.val < b.last.val)) {i : Nat}
    {request : Count} :
    h.Covers i request.val ↔ i < h.size ∧ h.covering request.val = i :=
  isValidHint_iff_covers.symm.trans (isValidHint_iff ordered)

end PriceHistory
end LiquidStaking

/-
What a traversal of a list answers.

A computation over the entries of a list answers if it answers for each of them, with the answers in
their order, and one that fails is enough for the traversal to fail.
-/
import LiquidStaking.Proofs.Outcome
import Mathlib.Data.List.Forall2

namespace LiquidStaking

variable {ε α β : Type}

theorem mapM_eq_ok_iff {f : α → Except ε β} {xs : List α} {ys : List β} :
    xs.mapM f = .ok ys ↔ List.Forall₂ (fun x y => f x = .ok y) xs ys := by
  induction xs generalizing ys with
  | nil =>
    rw [List.mapM_nil, pure_eq_ok, List.forall₂_nil_left_iff, eq_comm]
  | cons x xs ih =>
    rw [List.mapM_cons, bind_eq_ok]
    simp only [bind_eq_ok, ih, pure_eq_ok]
    rw [List.forall₂_cons_left_iff]
    constructor
    · rintro ⟨y, hy, rest, hrest, rfl⟩
      exact ⟨y, rest, hy, hrest, rfl⟩
    · rintro ⟨y, rest, hy, hrest, rfl⟩
      exact ⟨y, hy, rest, hrest, rfl⟩

theorem exists_mapM_eq_ok {f : α → Except ε β} {xs : List α}
    (h : ∀ x ∈ xs, ∃ y, f x = .ok y) : ∃ ys, xs.mapM f = .ok ys := by
  induction xs with
  | nil => exact ⟨[], rfl⟩
  | cons x xs ih =>
    obtain ⟨y, hy⟩ := h x List.mem_cons_self
    obtain ⟨ys, hys⟩ := ih (fun z hz => h z (List.mem_cons_of_mem _ hz))
    refine ⟨y :: ys, ?_⟩
    rw [List.mapM_cons, hy, ok_bind, hys]
    rfl

theorem length_of_mapM {f : α → Except ε β} {xs : List α} {ys : List β} (h : xs.mapM f = .ok ys) :
    ys.length = xs.length :=
  (mapM_eq_ok_iff.1 h).length_eq.symm

theorem mapM_range_eq_ok_iff {f : Nat → Except ε β} {n : Nat} {ys : List β} :
    (List.range n).mapM f = .ok ys ↔
      ys.length = n ∧ ∀ i < n, ∃ y, ys[i]? = some y ∧ f i = .ok y := by
  rw [mapM_eq_ok_iff, List.forall₂_iff_get]
  simp only [List.length_range, List.get_eq_getElem, List.getElem_range]
  constructor
  · rintro ⟨hlength, h⟩
    refine ⟨hlength.symm, fun i hi => ?_⟩
    exact ⟨_, List.getElem?_eq_getElem (hlength ▸ hi), h i hi (hlength ▸ hi)⟩
  · rintro ⟨hlength, h⟩
    refine ⟨hlength.symm, fun i hi hy => ?_⟩
    obtain ⟨y, hget, hone⟩ := h i hi
    obtain ⟨_, rfl⟩ := List.getElem?_eq_some_iff.1 hget
    exact hone

theorem mapM_eq_error {f : α → Except ε β} {x : α} {e : ε} (hx : f x = .error e) :
    ∀ {xs : List α}, x ∈ xs → ∃ e, xs.mapM f = .error e
  | y :: xs, hmem => by
    rw [List.mapM_cons]
    cases hy : f y with
    | error e' => exact ⟨e', rfl⟩
    | ok b =>
      rcases List.mem_cons.1 hmem with rfl | hmem
      · rw [hx] at hy
        cases hy
      · obtain ⟨e', he'⟩ := mapM_eq_error hx hmem
        exact ⟨e', by rw [he']; rfl⟩

theorem FailsOnly.mapM {P : ε → Prop} {f : α → Except ε β} :
    ∀ {xs : List α}, (∀ x ∈ xs, FailsOnly P (f x)) → FailsOnly P (xs.mapM f)
  | [], _ => .pure []
  | x :: xs, h => by
    rw [List.mapM_cons]
    refine (h x List.mem_cons_self).bind fun y _ => ?_
    exact (FailsOnly.mapM fun z hz => h z (List.mem_cons_of_mem _ hz)).bind fun ys _ => .pure _

end LiquidStaking

/-
Placing units one by one.

Each unit goes into the lowest bucket that has room, the first of them in case of a tie.  What such
a run leaves can be said without the run: `Levelled` compares the last unit of every bucket with
the next unit of every other one.  It fixes the levels, and raising a bucket by several units at
once keeps it as long as all of them would come its way.
-/
import LiquidStaking.Deposit.Levelling
import Mathlib.Algebra.BigOperators.Intervals
import Mathlib.Algebra.Order.BigOperators.Group.Finset
import Mathlib.Data.List.MinMax
import Mathlib.Data.Prod.Lex

namespace LiquidStaking
namespace Levelling

/-- The level of the bucket at a place, zero if there is none. -/
def levelAt (bs : List Bucket) (i : Nat) : Nat := bs[i]?.elim 0 Bucket.level

/-- The capacity of the bucket at a place, zero if there is none. -/
def capacityAt (bs : List Bucket) (i : Nat) : Nat := bs[i]?.elim 0 Bucket.capacity

def HasRoom (bs : List Bucket) (i : Nat) : Prop := levelAt bs i < capacityAt bs i

instance (bs : List Bucket) (i : Nat) : Decidable (HasRoom bs i) :=
  inferInstanceAs (Decidable (levelAt bs i < capacityAt bs i))

/-- The place of the bucket that takes the next unit: the least by level and place among those that
are open. -/
def next? (bs : List Bucket) : Option Nat :=
  ((List.range bs.length).filter (fun i => HasRoom bs i)).argmin (fun i => toLex (levelAt bs i, i))

/-- Place up to `budget` units, each into the bucket that is next.  Answers how many were placed. -/
def oneByOne : Nat → List Bucket → Nat × List Bucket
  | 0, bs => (0, bs)
  | budget + 1, bs =>
    match next? bs with
    | none => (0, bs)
    | some i =>
      let (placed, bs) := oneByOne budget (bs.modify i (·.raise 1))
      (1 + placed, bs)

/-- An open bucket below all others, and before those at its level. -/
structure IsNext (bs : List Bucket) (i : Nat) : Prop where
  hasRoom : HasRoom bs i
  lowest : ∀ j, HasRoom bs j → levelAt bs i ≤ levelAt bs j
  first : ∀ j, HasRoom bs j → levelAt bs j = levelAt bs i → i ≤ j

variable {bs fs gs : List Bucket} {i j n budget placed : Nat}

theorem HasRoom.lt_length (h : HasRoom bs i) : i < bs.length := by
  by_contra hge
  have hnone : bs[i]? = none := List.getElem?_eq_none (Nat.le_of_not_lt hge)
  simp [HasRoom, levelAt, capacityAt, hnone] at h

theorem levelAt_of_length_le (h : bs.length ≤ i) : levelAt bs i = 0 := by
  rw [levelAt, List.getElem?_eq_none h]
  rfl

theorem isNext_of_next? (h : next? bs = some i) : IsNext bs i := by
  obtain ⟨hmem, hleast, -⟩ := List.mem_argmin_iff.1 h
  rw [List.mem_filter] at hmem
  have hkey : ∀ j, HasRoom bs j →
      levelAt bs i < levelAt bs j ∨ levelAt bs i = levelAt bs j ∧ i ≤ j := by
    intro j hj
    exact Prod.Lex.toLex_le_toLex.1
      (hleast j (List.mem_filter.2 ⟨List.mem_range.2 hj.lt_length, decide_eq_true hj⟩))
  refine ⟨of_decide_eq_true hmem.2, fun j hj => ?_, fun j hj hsame => ?_⟩
  · have := hkey j hj
    omega
  · have := hkey j hj
    omega

theorem closed_of_next? (h : next? bs = none) (i : Nat) : ¬ HasRoom bs i := by
  intro hi
  have hnil := List.argmin_eq_none.1 h
  have hmem : i ∈ (List.range bs.length).filter (fun i => HasRoom bs i) :=
    List.mem_filter.2 ⟨List.mem_range.2 hi.lt_length, decide_eq_true hi⟩
  rw [hnil] at hmem
  exact absurd hmem List.not_mem_nil

/-! ### Raising one bucket -/

theorem levelAt_raise (hi : i < bs.length) (n j : Nat) :
    levelAt (bs.modify i (·.raise n)) j = levelAt bs j + if j = i then n else 0 := by
  unfold levelAt
  rw [List.getElem?_modify]
  by_cases hj : j = i
  · subst hj
    rw [List.getElem?_eq_getElem hi]
    simp [Bucket.raise]
  · simp [hj, Ne.symm hj]

theorem capacityAt_raise (bs : List Bucket) (i n j : Nat) :
    capacityAt (bs.modify i (·.raise n)) j = capacityAt bs j := by
  unfold capacityAt
  rw [List.getElem?_modify]
  cases hj : bs[j]? with
  | none => simp
  | some b => by_cases hij : i = j <;> simp [hij, Bucket.raise]

def total (bs : List Bucket) : Nat := ∑ i ∈ Finset.range bs.length, levelAt bs i

theorem total_raise (hi : i < bs.length) (n : Nat) :
    total (bs.modify i (·.raise n)) = total bs + n := by
  unfold total
  rw [List.length_modify]
  simp only [levelAt_raise hi]
  rw [Finset.sum_add_distrib, Finset.sum_ite_eq', if_pos (Finset.mem_range.2 hi)]

/-! ### Levelled buckets -/

/-- Whether `fs` is what is left of `bs` when `placed` of up to `budget` units went to the lowest
bucket each.  By `fair` the last unit of a bucket came before the next one of any other: it stands
on a lower level, or on the same one and at an earlier place. -/
structure Levelled (bs : List Bucket) (budget placed : Nat) (fs : List Bucket) : Prop where
  length_eq : fs.length = bs.length
  capacity_eq : ∀ i, capacityAt fs i = capacityAt bs i
  le_level : ∀ i, levelAt bs i ≤ levelAt fs i
  level_le : ∀ i, levelAt fs i ≤ max (levelAt bs i) (capacityAt bs i)
  total_eq : total fs = total bs + placed
  within : placed ≤ budget
  full : placed < budget → ∀ i, ¬ HasRoom fs i
  fair : ∀ i j, levelAt bs i < levelAt fs i → HasRoom fs j →
    levelAt fs i ≤ levelAt fs j ∨ levelAt fs i = levelAt fs j + 1 ∧ i < j

namespace Levelled

theorem refl_of_closed (h : budget = 0 ∨ ∀ i, ¬ HasRoom bs i) : Levelled bs budget 0 bs where
  length_eq := rfl
  capacity_eq := fun _ => rfl
  le_level := fun _ => Nat.le_refl _
  level_le := fun _ => Nat.le_max_left _ _
  total_eq := rfl
  within := Nat.zero_le _
  full := fun hpos => h.resolve_left (Nat.ne_of_gt hpos)
  fair := fun _ _ h => absurd h (Nat.lt_irrefl _)

/-- A bucket with more units on one side has to be made up for by another one on the other side. -/
theorem exists_lt (hlen : fs.length = gs.length) (htotal : total fs ≤ total gs)
    (hi : levelAt gs i < levelAt fs i) : ∃ j, levelAt fs j < levelAt gs j := by
  by_contra hall
  push Not at hall
  have hlt : i < gs.length := by
    by_contra hge
    rw [levelAt_of_length_le (hlen.trans_le (Nat.le_of_not_lt hge))] at hi
    exact Nat.not_lt_zero _ hi
  have hsum : total gs < total fs := by
    unfold total
    rw [hlen]
    exact Finset.sum_lt_sum (fun j _ => hall j) ⟨i, Finset.mem_range.2 hlt, hi⟩
  omega

theorem placed_le {placed' : Nat} (h : Levelled bs budget placed fs)
    (h' : Levelled bs budget placed' gs) : placed' ≤ placed := by
  by_contra hlt
  have hfull := h.full (by have := h'.within; omega)
  have htotal : total fs ≤ total gs := by
    have h1 := h.total_eq
    have h2 := h'.total_eq
    omega
  have hle : ∀ i, levelAt gs i ≤ levelAt fs i := by
    intro i
    have h1 := h'.level_le i
    have h2 := h.le_level i
    have h3 := hfull i
    rw [HasRoom, h.capacity_eq] at h3
    omega
  have hsum : total gs ≤ total fs := by
    unfold total
    rw [h.length_eq, h'.length_eq]
    exact Finset.sum_le_sum (fun i _ => hle i)
  have h1 := h.total_eq
  have h2 := h'.total_eq
  omega

theorem level_le_of_total_eq {placed' : Nat} (h : Levelled bs budget placed fs)
    (h' : Levelled bs budget placed' gs) (htotal : total fs = total gs) (i : Nat) :
    levelAt fs i ≤ levelAt gs i := by
  by_contra hlt
  obtain ⟨j, hj⟩ := exists_lt (h.length_eq.trans h'.length_eq.symm) (Nat.le_of_eq htotal)
    (Nat.lt_of_not_le hlt)
  -- On one side `i` has a unit more while `j` has room, on the other side it is the other way round.
  have hroom_j : HasRoom fs j := by
    have h1 := h'.level_le j
    have h2 := h.le_level j
    rw [HasRoom, h.capacity_eq]
    omega
  have hroom_i : HasRoom gs i := by
    have h1 := h.level_le i
    have h2 := h'.le_level i
    rw [HasRoom, h'.capacity_eq]
    omega
  have hfair := h.fair i j (by have := h'.le_level i; omega) hroom_j
  have hfair' := h'.fair j i (by have := h.le_level j; omega) hroom_i
  omega

theorem unique {placed' : Nat} (h : Levelled bs budget placed fs)
    (h' : Levelled bs budget placed' gs) : (placed, fs) = (placed', gs) := by
  have hplaced : placed = placed' := Nat.le_antisymm (h'.placed_le h) (h.placed_le h')
  have htotal : total fs = total gs := by rw [h.total_eq, h'.total_eq, hplaced]
  have hlevel : ∀ i, levelAt fs i = levelAt gs i := fun i =>
    Nat.le_antisymm (h.level_le_of_total_eq h' htotal i) (h'.level_le_of_total_eq h htotal.symm i)
  have hlists : fs = gs := by
    refine List.ext_getElem (h.length_eq.trans h'.length_eq.symm) (fun i hi hi' => ?_)
    have hl := hlevel i
    have hc := (h.capacity_eq i).trans (h'.capacity_eq i).symm
    simp only [levelAt, capacityAt, List.getElem?_eq_getElem hi, List.getElem?_eq_getElem hi',
      Option.elim_some] at hl hc
    cases hf : fs[i]
    cases hg : gs[i]
    simp_all
  rw [hplaced, hlists]

end Levelled

/-! ### Several units at once -/

/-- The open buckets at the level of another one, itself among them. -/
def ties (bs : List Bucket) (i : Nat) : Finset Nat :=
  (Finset.range bs.length).filter (fun j => HasRoom bs j ∧ levelAt bs j = levelAt bs i)

/-- A step that raises the next bucket by `n` units, all of which would come its way: there are
enough for the buckets at its level, it has room for them, and they stay below every other open
bucket. -/
structure IsStep (bs : List Bucket) (budget i n : Nat) : Prop where
  next : IsNext bs i
  pos : 0 < n
  within : n ≤ budget
  share : (ties bs i).card * (n - 1) < budget
  room : levelAt bs i + n ≤ capacityAt bs i
  below : ∀ j, HasRoom bs j → levelAt bs i < levelAt bs j → levelAt bs i + n ≤ levelAt bs j

theorem IsNext.isStep_one (h : IsNext bs i) (hb : 0 < budget) : IsStep bs budget i 1 where
  next := h
  pos := Nat.one_pos
  within := hb
  share := by simpa using hb
  room := h.hasRoom
  below := fun _ _ hlt => hlt

/-- The level up to which a bucket can be raised while another one, at the level of the raised one,
stays two units behind that. -/
def reachAt (bs : List Bucket) (i n a : Nat) : Nat :=
  levelAt bs a + ((if a ∈ ties bs i then n - 1 else 0) + if a = i then 1 else 0)

theorem sum_reachAt (hi : i < bs.length) (n : Nat) :
    ∑ a ∈ Finset.range bs.length, reachAt bs i n a =
      total bs + ((ties bs i).card * (n - 1) + 1) := by
  have hties : Finset.range bs.length ∩ ties bs i = ties bs i :=
    Finset.inter_eq_right.2 (Finset.filter_subset _ _)
  unfold reachAt
  rw [Finset.sum_add_distrib, Finset.sum_add_distrib, Finset.sum_ite_eq',
    if_pos (Finset.mem_range.2 hi), Finset.sum_ite_mem, hties,
    Finset.sum_const_nat (fun _ _ => rfl)]
  rfl

theorem mem_ties (hroom : HasRoom bs j) (htie : levelAt bs j = levelAt bs i) : j ∈ ties bs i :=
  Finset.mem_filter.2 ⟨Finset.mem_range.2 hroom.lt_length, hroom, htie⟩

namespace IsStep

variable (hs : IsStep bs budget i n)
  (h : Levelled (bs.modify i (·.raise n)) (budget - n) placed fs)

include h in
theorem capacityAt_after (a : Nat) : capacityAt fs a = capacityAt bs a :=
  (h.capacity_eq a).trans (capacityAt_raise _ _ _ _)

include hs h

theorem le_levelAt_after (a : Nat) : levelAt bs a ≤ levelAt fs a := by
  have hle := h.le_level a
  rw [levelAt_raise hs.next.hasRoom.lt_length] at hle
  omega

theorem levelAt_after_le (a : Nat) : levelAt fs a ≤ max (levelAt bs a) (capacityAt bs a) := by
  have hbound := h.level_le a
  rw [levelAt_raise hs.next.hasRoom.lt_length, capacityAt_raise] at hbound
  have hroom := hs.room
  by_cases ha : a = i
  · rw [if_pos ha, ha] at hbound
    rw [ha]
    omega
  · rw [if_neg ha] at hbound
    exact hbound

theorem hasRoom_before (hb : HasRoom fs j) : HasRoom bs j := by
  have hle := hs.le_levelAt_after h j
  have hcap := capacityAt_after h j
  unfold HasRoom at hb ⊢
  omega

/-- A bucket other than the raised one that got units too, while another one at the level of the
raised one stayed two units behind, was at that level. -/
theorem levelAt_after_le_reachAt (hi : levelAt fs i = levelAt bs i + n) (hroom : HasRoom fs j)
    (hlow : levelAt fs j + 1 < levelAt bs i + n) (a : Nat) : levelAt fs a ≤ reachAt bs i n a := by
  unfold reachAt
  have hpos := hs.pos
  by_cases hai : a = i
  · rw [if_pos (mem_ties (hai ▸ hs.next.hasRoom) (hai ▸ rfl)), if_pos hai, hai, hi]
    omega
  rw [if_neg hai]
  have hsame : levelAt (bs.modify i (·.raise n)) a = levelAt bs a := by
    rw [levelAt_raise hs.next.hasRoom.lt_length, if_neg hai, Nat.add_zero]
  by_cases hgrew : levelAt bs a < levelAt fs a
  · have hfair := h.fair a j (by rw [hsame]; exact hgrew) hroom
    have hle := hs.levelAt_after_le h a
    have hroom_a : HasRoom bs a := by
      unfold HasRoom
      omega
    have hlowest := hs.next.lowest a hroom_a
    have hbelow := hs.below a hroom_a
    rw [if_pos (mem_ties hroom_a (by omega))]
    omega
  · omega

/-- The rest of the budget does not leave an open bucket at the level of the raised one two units
behind it: there would have been too few units for that. -/
theorem fair_of_tie (hi : levelAt fs i = levelAt bs i + n) (hroom : HasRoom fs j)
    (htie : levelAt bs j = levelAt bs i) (hne : j ≠ i) : levelAt bs i + n ≤ levelAt fs j + 1 := by
  by_contra hlow
  have hlt := hs.next.hasRoom.lt_length
  have hopen := hs.hasRoom_before h hroom
  have hspent : placed = budget - n := by
    by_contra hless
    exact h.full (Nat.lt_of_le_of_ne h.within hless) j hroom
  have hbound := hs.levelAt_after_le_reachAt h hi hroom (Nat.lt_of_not_le hlow)
  have hstrict : levelAt fs j < reachAt bs i n j := by
    rw [reachAt, if_pos (mem_ties hopen htie), if_neg hne]
    omega
  have hsum : total fs < total bs + ((ties bs i).card * (n - 1) + 1) := by
    rw [← sum_reachAt hlt, total, h.length_eq.trans (List.length_modify ..)]
    exact Finset.sum_lt_sum (fun a _ => hbound a)
      ⟨j, Finset.mem_range.2 hopen.lt_length, hstrict⟩
  have htotal := h.total_eq
  rw [total_raise hlt] at htotal
  have hshare := hs.share
  have hwithin := hs.within
  omega

theorem fair {a b : Nat} (ha : levelAt bs a < levelAt fs a) (hb : HasRoom fs b) :
    levelAt fs a ≤ levelAt fs b ∨ levelAt fs a = levelAt fs b + 1 ∧ a < b := by
  have hlevel := levelAt_raise hs.next.hasRoom.lt_length n
  by_cases hgrew : levelAt (bs.modify i (·.raise n)) a < levelAt fs a
  · exact h.fair a b hgrew hb
  -- The bucket got no unit after the step, so it is the one that the step raised.
  have hai : a = i := by
    by_contra hne
    rw [hlevel, if_neg hne] at hgrew
    exact hgrew ha
  subst hai
  have hend : levelAt fs a = levelAt bs a + n := by
    have hle := h.le_level a
    rw [hlevel, if_pos rfl] at hle hgrew
    omega
  have hroom := hs.hasRoom_before h hb
  by_cases hba : b = a
  · exact .inl (hba ▸ Nat.le_refl _)
  rcases Nat.lt_or_eq_of_le (hs.next.lowest b hroom) with habove | htie
  · have hbelow := hs.below b hroom habove
    have hle := hs.le_levelAt_after h b
    omega
  · have hbehind := hs.fair_of_tie h hend hb htie.symm hba
    have hfirst := hs.next.first b hroom htie.symm
    omega

theorem levelled : Levelled bs budget (n + placed) fs where
  length_eq := h.length_eq.trans (List.length_modify ..)
  capacity_eq := capacityAt_after h
  le_level := hs.le_levelAt_after h
  level_le := hs.levelAt_after_le h
  total_eq := by
    rw [h.total_eq, total_raise hs.next.hasRoom.lt_length]
    omega
  within := by
    have hwithin := hs.within
    have hrest := h.within
    omega
  full := fun hless => h.full (by omega)
  fair := fun _ _ => hs.fair h

end IsStep

theorem oneByOne_levelled : ∀ (budget : Nat) (bs : List Bucket),
    Levelled bs budget (oneByOne budget bs).1 (oneByOne budget bs).2
  | 0, bs => .refl_of_closed (.inl rfl)
  | budget + 1, bs => by
    unfold oneByOne
    cases hnext : next? bs with
    | none => exact .refl_of_closed (.inr (closed_of_next? hnext))
    | some i =>
      exact ((isNext_of_next? hnext).isStep_one (Nat.succ_pos budget)).levelled
        (oneByOne_levelled budget _)

end Levelling
end LiquidStaking

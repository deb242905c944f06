/-
Filling in large steps is placing units one by one.

A step raises the first of the lowest open buckets, at most by an even share of what is left.  The
buckets tied with it may be smaller, so the levels in between are not those that single units pass
through; only the end is the same, because what is levelled is so in one way.
-/
import LiquidStaking.Proofs.Arithmetic
import LiquidStaking.Proofs.Deposit.OneByOne

namespace LiquidStaking
namespace Levelling

variable {bs now : List Bucket} {i n level budget placed : Nat}

/-! ### The parts of a step -/

theorem lowest?_eq_none_iff : lowest? bs = none ↔ ∀ b ∈ bs, b.isOpen = false := by
  induction bs with
  | nil => simp [lowest?]
  | cons b r ih =>
    unfold lowest?
    cases hb : b.isOpen with
    | false => simp [hb, ih]
    | true => cases lowest? r <;> simp [hb]

theorem lowest?_eq_some (h : lowest? bs = some level) :
    (∃ b ∈ bs, b.isOpen = true ∧ b.level = level) ∧
      ∀ b ∈ bs, b.isOpen = true → level ≤ b.level := by
  induction bs generalizing level with
  | nil => cases h
  | cons b r ih =>
    unfold lowest? at h
    cases hb : b.isOpen with
    | false =>
      simp only [hb, Bool.false_eq_true, if_false] at h
      obtain ⟨⟨x, hx, hopen, hlevel⟩, hleast⟩ := ih h
      refine ⟨⟨x, List.mem_cons_of_mem _ hx, hopen, hlevel⟩, fun y hy hyopen => ?_⟩
      rcases List.mem_cons.1 hy with rfl | hy
      · rw [hb] at hyopen
        cases hyopen
      · exact hleast y hy hyopen
    | true =>
      simp only [hb, if_true] at h
      cases hr : lowest? r with
      | none =>
        rw [hr] at h
        cases h
        refine ⟨⟨b, List.mem_cons_self, hb, rfl⟩, fun y hy hyopen => ?_⟩
        rcases List.mem_cons.1 hy with rfl | hy
        · exact Nat.le_refl _
        · rw [lowest?_eq_none_iff.1 hr y hy] at hyopen
          cases hyopen
      | some rest =>
        rw [hr] at h
        cases h
        obtain ⟨⟨x, hx, hopen, hlevel⟩, hleast⟩ := ih hr
        refine ⟨?_, fun y hy hyopen => ?_⟩
        · rcases Nat.le_total b.level rest with hle | hle
          · exact ⟨b, List.mem_cons_self, hb, (Nat.min_eq_left hle).symm⟩
          · exact ⟨x, List.mem_cons_of_mem _ hx, hopen, hlevel.trans (Nat.min_eq_right hle).symm⟩
        · rcases List.mem_cons.1 hy with rfl | hy
          · exact Nat.min_le_left _ _
          · exact Nat.le_trans (Nat.min_le_right _ _) (hleast y hy hyopen)

/-- The place of the first open bucket at a level. -/
def placeOf (level : Nat) (bs : List Bucket) : Nat :=
  bs.findIdx (fun b => b.isOpen && b.level == level)

theorem raiseFirst_eq (level n : Nat) (bs : List Bucket) :
    raiseFirst level n bs = bs.modify (placeOf level bs) (·.raise n) := by
  induction bs with
  | nil => rfl
  | cons b r ih =>
    unfold raiseFirst placeOf
    rw [List.findIdx_cons]
    cases hb : (b.isOpen && b.level == level) with
    | true => rfl
    | false => simp [ih, placeOf]

theorem hasRoom_iff : HasRoom bs i ↔ ∃ b, bs[i]? = some b ∧ b.isOpen = true := by
  unfold HasRoom levelAt capacityAt Bucket.isOpen
  cases bs[i]? <;> simp

theorem levelAt_eq {b : Bucket} (h : bs[i]? = some b) : levelAt bs i = b.level := by
  rw [levelAt, h]
  rfl

theorem capacityAt_eq {b : Bucket} (h : bs[i]? = some b) : capacityAt bs i = b.capacity := by
  rw [capacityAt, h]
  rfl

/-- The bucket that a step raises is the one that takes the next unit. -/
theorem isNext_placeOf (h : lowest? bs = some level) :
    IsNext bs (placeOf level bs) ∧ levelAt bs (placeOf level bs) = level ∧
      bs[placeOf level bs]? = (openAt level bs).head? := by
  obtain ⟨⟨b, hb, hopen, hlevel⟩, hleast⟩ := lowest?_eq_some h
  have hfound : placeOf level bs < bs.length :=
    List.findIdx_lt_length_of_exists ⟨b, hb, by simp [hopen, hlevel]⟩
  have hplace : (bs[placeOf level bs].isOpen && bs[placeOf level bs].level == level) = true :=
    List.findIdx_getElem (w := hfound)
  simp only [Bool.and_eq_true, beq_iff_eq] at hplace
  have hat : bs[placeOf level bs]? = some bs[placeOf level bs] := List.getElem?_eq_getElem hfound
  have hlevelAt : levelAt bs (placeOf level bs) = level := (levelAt_eq hat).trans hplace.2
  refine ⟨⟨hasRoom_iff.2 ⟨_, hat, hplace.1⟩, fun j hj => ?_, fun j hj hsame => ?_⟩, hlevelAt, ?_⟩
  · obtain ⟨c, hc, hcopen⟩ := hasRoom_iff.1 hj
    rw [hlevelAt, levelAt_eq hc]
    exact hleast c (List.mem_of_getElem? hc) hcopen
  · obtain ⟨c, hc, hcopen⟩ := hasRoom_iff.1 hj
    by_contra hlt
    have hnot := List.not_of_lt_findIdx (Nat.lt_of_not_le hlt)
    obtain ⟨hjlt, hget⟩ := List.getElem?_eq_some_iff.1 hc
    rw [hget, hcopen, Bool.true_and, beq_eq_false_iff_ne] at hnot
    exact hnot ((levelAt_eq hc).symm.trans (hsame.trans hlevelAt))
  · rw [openAt, List.head?_filter, List.find?_eq_getElem?_findIdx]
    rfl

theorem card_filter_range (p : Bucket → Bool) (bs : List Bucket) :
    ((Finset.range bs.length).filter (fun j => bs[j]?.any p = true)).card =
      (bs.filter p).length := by
  induction bs with
  | nil => rfl
  | cons b r ih =>
    rw [Finset.card_filter] at ih ⊢
    rw [List.length_cons, Finset.sum_range_succ']
    simp only [List.getElem?_cons_succ, List.getElem?_cons_zero, Option.any_some]
    rw [ih, List.filter_cons]
    split <;> rfl

theorem card_ties (bs : List Bucket) (i : Nat) :
    (ties bs i).card = (openAt (levelAt bs i) bs).length := by
  rw [openAt, ← card_filter_range]
  congr 1
  refine Finset.filter_congr (fun j _ => ?_)
  rw [hasRoom_iff]
  cases hj : bs[j]? with
  | none => simp
  | some b => simp [levelAt_eq hj]

theorem le_ceiling_iff {b : Bucket} {k : Nat} :
    k ≤ ceiling b bs ↔
      k ≤ b.capacity ∧ ∀ x ∈ bs, x.isOpen = true → b.level < x.level → k ≤ x.level := by
  have hfold : ∀ (xs : List Bucket) (top : Nat),
      k ≤ xs.foldl (fun top x => min top x.level) top ↔ k ≤ top ∧ ∀ x ∈ xs, k ≤ x.level := by
    intro xs
    induction xs with
    | nil => simp
    | cons x xs ih =>
      intro top
      rw [List.foldl_cons, ih, Nat.le_min, List.forall_mem_cons, and_assoc]
  rw [ceiling, hfold]
  simp only [List.mem_filter, Bool.and_eq_true, decide_eq_true_eq, and_imp]

/-- An even share of a budget is at least one unit, at most all of it, and so small that one unit
less for every bucket does not use the budget up. -/
theorem evenShare_bounds (hb : 0 < budget) (k : Nat) :
    0 < evenShare budget k ∧ evenShare budget k ≤ budget ∧
      k * (evenShare budget k - 1) < budget := by
  unfold evenShare
  split
  · next hk =>
    have : k * (budget - 1) ≤ 1 * (budget - 1) := Nat.mul_le_mul_right _ hk
    omega
  · next hk =>
    have hk0 : 0 < k := by omega
    have hpos : 0 < (budget + k - 1) / k := Nat.div_pos (by omega) hk0
    have hdiv : k * ((budget + k - 1) / k) ≤ budget + k - 1 := Nat.mul_div_le _ _
    have hsplit : k * ((budget + k - 1) / k) = k * ((budget + k - 1) / k - 1) + k := by
      rw [← Nat.mul_succ, Nat.succ_eq_add_one, Nat.sub_add_cancel hpos]
    refine ⟨hpos, Nat.div_le_of_le_mul ?_, by omega⟩
    have := Nat.add_sub_one_le_mul (Nat.ne_of_gt hk0) (Nat.ne_of_gt hb)
    omega

/-- A step of `fill` raises the next bucket by units that all would come its way. -/
theorem isStep_stepSize (h : lowest? bs = some level) (hb : 0 < budget) :
    IsStep bs budget (placeOf level bs) (stepSize bs budget) := by
  obtain ⟨hnext, hlevel, hhead⟩ := isNext_placeOf h
  obtain ⟨b, hb?, hopen⟩ := hasRoom_iff.1 hnext.hasRoom
  obtain ⟨r, hties⟩ : ∃ r, openAt level bs = b :: r := by
    rw [hb?] at hhead
    exact List.head?_eq_some_iff.1 hhead.symm
  have hcard : (ties bs (placeOf level bs)).card = r.length + 1 := by
    rw [card_ties, hlevel, hties]
    rfl
  have hblevel : b.level = level := (levelAt_eq hb?).symm.trans hlevel
  have hsize : stepSize bs budget =
      min (evenShare budget (r.length + 1)) (ceiling b bs - level) := by
    simp only [stepSize, h, hties]
  have hroom : b.level < b.capacity := of_decide_eq_true hopen
  obtain ⟨hpos, hwithin, hshare⟩ := evenShare_bounds hb (r.length + 1)
  have habove : level + 1 ≤ ceiling b bs :=
    le_ceiling_iff.2 ⟨by omega, fun x _ _ hlt => by omega⟩
  obtain ⟨hcapacity, hothers⟩ := (le_ceiling_iff (k := ceiling b bs)).1 (Nat.le_refl _)
  have hstep : level + stepSize bs budget ≤ ceiling b bs := by omega
  refine ⟨hnext, by omega, by omega, ?_, ?_, fun j hj hlt => ?_⟩
  · rw [hcard]
    refine Nat.lt_of_le_of_lt (Nat.mul_le_mul_left _ ?_) hshare
    omega
  · rw [hlevel, capacityAt_eq hb?]
    omega
  · obtain ⟨c, hc, hcopen⟩ := hasRoom_iff.1 hj
    rw [hlevel, levelAt_eq hc] at hlt ⊢
    have := hothers c (List.mem_of_getElem? hc) hcopen (by omega)
    omega

theorem stepBuckets_eq (h : lowest? bs = some level) (n : Nat) :
    stepBuckets bs n = bs.modify (placeOf level bs) (·.raise n) := by
  rw [stepBuckets, h]
  exact raiseFirst_eq level n bs

theorem stepSize_eq_zero_iff :
    stepSize bs budget = 0 ∨ budget = 0 ↔ budget = 0 ∨ lowest? bs = none := by
  cases h : lowest? bs with
  | none => simp [stepSize, h]
  | some level =>
    rcases Nat.eq_zero_or_pos budget with rfl | hb
    · simp
    · have := (isStep_stepSize h hb).pos
      simp only [reduceCtorEq, or_false]
      omega

theorem closed_of_lowest? (h : lowest? bs = none) (i : Nat) : ¬ HasRoom bs i := by
  intro hi
  obtain ⟨b, hb, hopen⟩ := hasRoom_iff.1 hi
  rw [lowest?_eq_none_iff.1 h b (List.mem_of_getElem? hb)] at hopen
  cases hopen

/-! ### The whole run -/

theorem fill_of_stop (h : stepSize bs budget = 0 ∨ budget = 0) : fill bs budget = (0, bs) := by
  unfold fill
  exact if_pos h

theorem fill_of_step (h : ¬ (stepSize bs budget = 0 ∨ budget = 0)) :
    fill bs budget =
      (stepSize bs budget +
          (fill (stepBuckets bs (stepSize bs budget)) (budget - stepSize bs budget)).1,
        (fill (stepBuckets bs (stepSize bs budget)) (budget - stepSize bs budget)).2) := by
  rw [fill]
  exact if_neg h

theorem exists_lowest (h : ¬ (stepSize bs budget = 0 ∨ budget = 0)) :
    0 < budget ∧ ∃ level, lowest? bs = some level := by
  rw [stepSize_eq_zero_iff, not_or] at h
  exact ⟨Nat.pos_of_ne_zero h.1, Option.ne_none_iff_exists'.1 h.2⟩

theorem fill_levelled (bs : List Bucket) (budget : Nat) :
    Levelled bs budget (fill bs budget).1 (fill bs budget).2 := by
  induction bs, budget using fill.induct with
  | case1 bs budget _ hstop =>
    rw [fill_of_stop hstop]
    exact .refl_of_closed ((stepSize_eq_zero_iff.1 hstop).imp id closed_of_lowest?)
  | case2 bs budget _ hgo _ _ _ ih =>
    rw [fill_of_step hgo]
    obtain ⟨hb, level, hlevel⟩ := exists_lowest hgo
    refine (isStep_stepSize hlevel hb).levelled ?_
    rw [← stepBuckets_eq hlevel]
    exact ih

theorem fill_eq_oneByOne (bs : List Bucket) (budget : Nat) :
    fill bs budget = oneByOne budget bs :=
  (fill_levelled bs budget).unique (oneByOne_levelled budget bs)

/-- The states that filling goes through: how many units are placed, and the buckets by then. -/
inductive Visits (bs : List Bucket) (budget : Nat) : Nat → List Bucket → Prop
  | start : Visits bs budget 0 bs
  | step {placed : Nat} {now : List Bucket} (h : Visits bs budget placed now)
      (hgo : ¬ (stepSize now (budget - placed) = 0 ∨ budget - placed = 0)) :
      Visits bs budget (placed + stepSize now (budget - placed))
        (stepBuckets now (stepSize now (budget - placed)))

/-- From any state on the way the rest of the run stays on it. -/
theorem visits_fill (now : List Bucket) (left : Nat) :
    ∀ placed, budget - placed = left → Visits bs budget placed now →
      Visits bs budget (placed + (fill now left).1) (fill now left).2 := by
  induction now, left using fill.induct with
  | case1 now left _ hstop =>
    intro placed _ h
    rw [fill_of_stop hstop]
    exact h
  | case2 now left _ hgo _ _ _ ih =>
    -- What is left is a difference, so the step that `fill` makes is the one that `Visits` makes.
    intro placed hleft h
    subst hleft
    rw [fill_of_step hgo, ← Nat.add_assoc]
    exact ih _ (Nat.sub_add_eq ..) (h.step hgo)

theorem Visits.bounds (h : Visits bs budget placed now) :
    placed ≤ budget ∧ ∀ i, levelAt now i ≤ max (levelAt bs i) (capacityAt bs i) ∧
      capacityAt now i = capacityAt bs i := by
  induction h with
  | start => exact ⟨Nat.zero_le _, fun i => ⟨Nat.le_max_left _ _, rfl⟩⟩
  | @step placed now _ hgo ih =>
    obtain ⟨hplaced, hnow⟩ := ih
    obtain ⟨hleft, level, hlevel⟩ := exists_lowest hgo
    have hs := isStep_stepSize hlevel hleft
    refine ⟨by have := hs.within; omega, fun i => ?_⟩
    obtain ⟨hle, hcap⟩ := hnow i
    rw [stepBuckets_eq hlevel, capacityAt_raise, levelAt_raise hs.next.hasRoom.lt_length]
    refine ⟨?_, hcap⟩
    have hroom := hs.room
    by_cases hi : i = placeOf level now
    · subst hi
      rw [if_pos rfl]
      omega
    · rw [if_neg hi]
      exact hle

/-- A state whose differences are not cut off at zero and whose levels stay below a limit: what is
left to place, the room for the next step, and the levels themselves. -/
structure Tame (limit budget placed : Nat) (now : List Bucket) : Prop where
  within : placed ≤ budget
  levels : ∀ b ∈ now, b.level < limit
  room : ∀ level b r, lowest? now = some level → openAt level now = b :: r →
    level < ceiling b now ∧ ceiling b now < limit

theorem levelAt_capacityAt_lt {limit : Nat}
    (hbs : ∀ b ∈ bs, b.level < limit ∧ b.capacity < limit) (hlimit : 0 < limit) (i : Nat) :
    levelAt bs i < limit ∧ capacityAt bs i < limit := by
  cases hi : bs[i]? with
  | none => simpa [levelAt, capacityAt, hi] using hlimit
  | some b =>
    rw [levelAt_eq hi, capacityAt_eq hi]
    exact hbs b (List.mem_of_getElem? hi)

theorem Visits.tame {limit : Nat} (h : Visits bs budget placed now)
    (hbs : ∀ b ∈ bs, b.level < limit ∧ b.capacity < limit) (hlimit : 0 < limit) :
    Tame limit budget placed now := by
  obtain ⟨hplaced, hnow⟩ := h.bounds
  have hat := levelAt_capacityAt_lt hbs hlimit
  refine ⟨hplaced, fun b hb => ?_, fun level b r hlevel hties => ?_⟩
  · obtain ⟨i, hi⟩ := List.mem_iff_getElem?.1 hb
    have hle := (hnow i).1
    have hlt := hat i
    rw [levelAt_eq hi] at hle
    omega
  · obtain ⟨hb, htie⟩ := List.mem_filter.1 (hties ▸ List.mem_cons_self : b ∈ openAt level now)
    simp only [Bool.and_eq_true, beq_iff_eq] at htie
    have hroom : b.level < b.capacity := of_decide_eq_true htie.1
    obtain ⟨i, hi⟩ := List.mem_iff_getElem?.1 hb
    have hcap := (hnow i).2
    rw [capacityAt_eq hi] at hcap
    refine ⟨le_ceiling_iff.2 ⟨by omega, fun x _ _ hlt => by omega⟩, ?_⟩
    exact Nat.lt_of_le_of_lt (le_ceiling_iff.1 (Nat.le_refl _)).1 (hcap ▸ (hat i).2)

/-- The buckets of a list of counts and their capacities. -/
def bucketsOf (counts capacities : List Count) : List Bucket :=
  List.zipWith (fun n c => ⟨n.val, c.val⟩) counts capacities

theorem mem_bucketsOf {counts capacities : List Count} {b : Bucket}
    (h : b ∈ bucketsOf counts capacities) :
    b.level < Bounded.bound 64 ∧ b.capacity < Bounded.bound 64 := by
  obtain ⟨i, hi⟩ := List.mem_iff_getElem?.1 h
  obtain ⟨n, c, -, -, rfl⟩ := List.getElem?_zipWith_eq_some.1 hi
  exact ⟨n.isLt, c.isLt⟩

/-- Spreading an amount in large steps has the outcome of placing it unit by unit, and nothing it
computes on the way leaves the width of a count. -/
theorem allocate_eq_oneByOne (counts capacities : List Count) (amount : Count)
    (h : counts.length = capacities.length) :
    allocate (counts.map (·.val)) (capacities.map (·.val)) amount.val =
        .ok ((oneByOne amount.val (bucketsOf counts capacities)).1,
          (oneByOne amount.val (bucketsOf counts capacities)).2.map Bucket.level) ∧
      Visits (bucketsOf counts capacities) amount.val
        (oneByOne amount.val (bucketsOf counts capacities)).1
        (oneByOne amount.val (bucketsOf counts capacities)).2 ∧
      ∀ placed now, Visits (bucketsOf counts capacities) amount.val placed now →
        Tame (Bounded.bound 64) amount.val placed now := by
  refine ⟨?_, ?_, fun placed now hnow => ?_⟩
  · have hbuckets : List.zipWith Bucket.mk (counts.map (·.val)) (capacities.map (·.val)) =
        bucketsOf counts capacities := List.zipWith_map ..
    simp only [allocate, List.length_map, if_pos h, hbuckets, fill_eq_oneByOne]
  · have hend := visits_fill (bucketsOf counts capacities) amount.val 0
      (Nat.sub_zero amount.val) .start
    rwa [Nat.zero_add, fill_eq_oneByOne] at hend
  · exact hnow.tame (fun b hb => mem_bucketsOf hb) (Bounded.bound_pos 64)

/-- Two tied buckets of different sizes below one that is already over its capacity. -/
theorem allocate_eq_oneByOne_tied :
    [0, 0, (7 : Count)].length = [10, 3, (5 : Count)].length ∧
      allocate [0, 0, 7] [10, 3, 5] 9 = .ok (9, [6, 3, 7]) ∧
      ∀ placed now, Visits (bucketsOf [0, 0, 7] [10, 3, 5]) 9 placed now →
        Tame (Bounded.bound 64) 9 placed now := by
  obtain ⟨hallocate, -, htame⟩ := allocate_eq_oneByOne [0, 0, 7] [10, 3, 5] 9 rfl
  refine ⟨rfl, hallocate.trans ?_, htame⟩
  decide +kernel

end Levelling
end LiquidStaking

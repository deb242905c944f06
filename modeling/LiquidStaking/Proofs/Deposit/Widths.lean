/-
What a registry computes without a check.

Modules have 32-bit numbers of their own, so there are few enough of them for the sums over all of
them.  Spreading deposits stays within the width of a count since no level leaves it.
-/
import LiquidStaking.Deposit.Allocation
import LiquidStaking.Proofs.Deposit.Levelling
import LiquidStaking.Proofs.Registry

namespace LiquidStaking

namespace Levelling

variable {bs now : List Bucket} {amount placed : Nat} {u : Unchecked}

theorem Visits.length_eq (h : Visits bs amount placed now) : now.length = bs.length := by
  induction h with
  | start => rfl
  | @step placed now _ hgo ih =>
    obtain ⟨-, level, hlevel⟩ := exists_lowest hgo
    rw [stepBuckets_eq hlevel, List.length_modify, ih]

/-- What filling buckets computes, in every state on the way: what is left, how many buckets are
tied, the place and the room of the one that is raised, its new level and the new count. -/
inductive Computes (bs : List Bucket) (amount : Nat) : Unchecked → Prop
  | left {placed : Nat} {now : List Bucket} (h : Visits bs amount placed now) :
      Computes bs amount (.difference amount placed)
  | ties {placed : Nat} {now : List Bucket} (h : Visits bs amount placed now) (level : Nat) :
      Computes bs amount (.sum 64 (openAt level now).length)
  | place {placed level : Nat} {now : List Bucket} (h : Visits bs amount placed now)
      (hlevel : lowest? now = some level) :
      Computes bs amount (.entry (placeOf level now) now.length)
  | share {placed level : Nat} {now : List Bucket} (h : Visits bs amount placed now)
      (hlevel : lowest? now = some level) :
      Computes bs amount (.quotient (openAt level now).length)
  | room {placed level : Nat} {now r : List Bucket} {b : Bucket} (h : Visits bs amount placed now)
      (hlevel : lowest? now = some level) (hties : openAt level now = b :: r) :
      Computes bs amount (.difference (ceiling b now) level)
  | raised {placed level : Nat} {now : List Bucket} (h : Visits bs amount placed now)
      (hless : placed < amount) (hlevel : lowest? now = some level) :
      Computes bs amount (.sum 64 (level + stepSize now (amount - placed)))
  | placed {placed : Nat} {now : List Bucket} (h : Visits bs amount placed now)
      (hless : placed < amount) :
      Computes bs amount (.sum 64 (placed + stepSize now (amount - placed)))

theorem Computes.fits (hu : Computes bs amount u)
    (hbs : ∀ b ∈ bs, b.level < Bounded.bound 64 ∧ b.capacity < Bounded.bound 64)
    (hlength : bs.length < Bounded.bound 64) (hamount : amount < Bounded.bound 64) : u.Fits := by
  cases hu with
  | left h => exact h.bounds.1
  | @ties placed now h level =>
    have hle : (openAt level now).length ≤ now.length := List.length_filter_le _ _
    rw [h.length_eq] at hle
    exact Nat.lt_of_le_of_lt hle hlength
  | place h hlevel => exact (isNext_placeOf hlevel).1.hasRoom.lt_length
  | @share placed level now h hlevel =>
    obtain ⟨hnext, -, hhead⟩ := isNext_placeOf hlevel
    intro hnone
    rw [List.length_eq_zero_iff.1 hnone, List.head?_nil, List.getElem?_eq_none_iff] at hhead
    exact absurd hnext.hasRoom.lt_length (Nat.not_lt.2 hhead)
  | room h hlevel hties =>
    exact Nat.le_of_lt ((h.tame hbs (Bounded.bound_pos 64)).room _ _ _ hlevel hties).1
  | @raised placed level now h hless hlevel =>
    have hs := isStep_stepSize hlevel (Nat.sub_pos_of_lt hless)
    obtain ⟨-, hat, -⟩ := isNext_placeOf hlevel
    have hroom := hs.room
    rw [hat, (h.bounds.2 _).2] at hroom
    exact Nat.lt_of_le_of_lt hroom (levelAt_capacityAt_lt hbs (Bounded.bound_pos 64) _).2
  | @placed placed now h hless =>
    show placed + stepSize now (amount - placed) < Bounded.bound 64
    cases hlevel : lowest? now with
    | none =>
      have hzero : stepSize now (amount - placed) = 0 := by simp only [stepSize, hlevel]
      omega
    | some level =>
      have hwithin := (isStep_stepSize hlevel (Nat.sub_pos_of_lt hless)).within
      omega

theorem length_of_allocate {counts capacities levels : List Nat}
    (h : allocate counts capacities amount = .ok (placed, levels)) :
    levels.length = counts.length := by
  unfold allocate at h
  split at h
  · next hsame =>
    cases h
    rw [List.length_map, (fill_levelled _ _).length_eq, List.length_zipWith, ← hsame, Nat.min_self]
  · cases h

end Levelling

namespace Registry

/-- What a registry computes, and deposits and fees over its modules: the size that a full one
refuses, the fees of a module together, all active keys, all keys of a module, the levels while
deposits are spread, and the place of a module in what that answers. -/
inductive Computes (r : Registry) : Unchecked → Prop
  | full (h : r.capacity.val ≤ r.size) : Computes r (.sum 64 (r.size + 1))
  | fees (m : StakingModule) : Computes r (.sum 128 (m.fee.val + m.treasuryFee.val))
  | keys : Computes r (.sum 128 (Bounded.total (r.modules.map (·.activeKeys))))
  | capacity {m : StakingModule} (hm : m ∈ r.modules) :
      Computes r (.sum 128 (m.activeKeys.val + m.availableKeys.val))
  | levelling {projected deposits : Count} {capacities : List Count} {u : Unchecked}
      (hcapacities : r.modules.mapM (·.capacity projected) = .ok capacities)
      (h : Levelling.Computes (Levelling.bucketsOf (r.modules.map (·.activeKeys)) capacities)
        deposits.val u) : Computes r u
  | lookup {deposits : Count} {a : DepositAllocation} {i : Nat}
      (h : allocateDeposits r.modules deposits = .ok a) (hi : i < a.moduleIds.length) :
      Computes r (.entry i a.deposits.length)

variable {r : Registry} {u : Unchecked}

theorem Valid.length_le (hr : r.Valid) : r.modules.length ≤ Bounded.bound 32 := by
  have hnodup : (r.modules.map (·.id.val)).Nodup := by
    rw [List.Nodup, List.pairwise_map]
    exact hr.distinct.imp (fun hne heq => hne (Bounded.ext heq))
  have hsub : (r.modules.map (·.id.val)).toFinset ⊆ Finset.range (Bounded.bound 32) := by
    intro n hn
    obtain ⟨m, -, rfl⟩ := List.mem_map.1 (List.mem_toFinset.1 hn)
    exact Finset.mem_range.2 m.id.isLt
  have hcard := Finset.card_le_card hsub
  rw [List.toFinset_card_of_nodup hnodup, List.length_map, Finset.card_range] at hcard
  exact hcard

theorem deposits_length {ms : List StakingModule} {deposits : Count} {a : DepositAllocation}
    (h : allocateDeposits ms deposits = .ok a) : a.deposits.length = a.moduleIds.length := by
  unfold allocateDeposits at h
  obtain ⟨total, -, h⟩ := bind_eq_ok.1 h
  obtain ⟨projected, -, h⟩ := bind_eq_ok.1 h
  obtain ⟨capacities, -, h⟩ := bind_eq_ok.1 h
  obtain ⟨⟨placed, levels⟩, hlevels, h⟩ := bind_eq_ok.1 h
  cases pure_eq_ok.1 h
  have hlength := Levelling.length_of_allocate hlevels
  simp only [List.length_map] at hlength
  simp only [List.length_zipWith, List.length_map, hlength, Nat.min_self]

theorem Computes.fits (hu : r.Computes u) (hr : r.Valid) : u.Fits := by
  have hsize := hr.length_le
  have hwidth : Bounded.bound 32 + 1 < Bounded.bound 64 := by decide
  cases hu with
  | full _ =>
    rw [hr.published] at hsize
    exact Nat.lt_of_le_of_lt (Nat.succ_le_succ hsize) hwidth
  | fees m =>
    show m.fee.val + m.treasuryFee.val < Bounded.bound 128
    have hfee := m.fee.isLt
    have htreasury := m.treasuryFee.isLt
    have hwidth : Bounded.bound 16 + Bounded.bound 16 < Bounded.bound 128 := by decide
    omega
  | keys =>
    calc Bounded.total (r.modules.map (·.activeKeys))
      _ ≤ (r.modules.map (·.activeKeys)).length * Bounded.bound 64 := Bounded.total_le _
      _ ≤ Bounded.bound 32 * Bounded.bound 64 := by
        rw [List.length_map]
        exact Nat.mul_le_mul_right _ hsize
      _ < Bounded.bound 128 := by decide
  | @capacity m _ =>
    show m.activeKeys.val + m.availableKeys.val < Bounded.bound 128
    have hactive := m.activeKeys.isLt
    have havailable := m.availableKeys.isLt
    have hwidth : Bounded.bound 64 + Bounded.bound 64 < Bounded.bound 128 := by decide
    omega
  | @levelling projected deposits capacities _ _ h =>
    refine h.fits (fun b hb => Levelling.mem_bucketsOf hb) ?_ deposits.isLt
    rw [Levelling.bucketsOf, List.length_zipWith, List.length_map]
    exact Nat.lt_of_le_of_lt (Nat.le_trans (Nat.min_le_left _ _) hsize) (by decide)
  | lookup h hi => exact deposits_length h ▸ hi

end Registry
end LiquidStaking

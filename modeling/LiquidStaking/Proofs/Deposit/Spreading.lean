/-
Where new deposits go.

A module takes deposits up to a limit, which policy sets and its own keys cut off.  Spreading places
as many deposits as there is room for below the limits, gives a module no more than its keys, and
never puts one module two deposits above another that still has room.
-/
import LiquidStaking.Deposit.Allocation
import LiquidStaking.Proofs.Deposit.Levelling
import LiquidStaking.Proofs.Fee.Charges

namespace LiquidStaking

namespace StakingModule

/-- The active keys a module may hold when the pool has `projected` of them.  One that takes no
deposits stays where it is. -/
def limit (projected : Nat) (m : StakingModule) : Nat :=
  if m.acceptsDeposits then
    min (m.target.val * projected / basisPointsBase) (m.activeKeys.val + m.availableKeys.val)
  else
    m.activeKeys.val

/-- What a module can still take, nothing if it is above its limit already. -/
def room (projected : Nat) (m : StakingModule) : Nat := m.limit projected - m.activeKeys.val

def bucket (projected : Nat) (m : StakingModule) : Bucket := ⟨m.activeKeys.val, m.limit projected⟩

variable {m : StakingModule}

theorem limit_lt (projected : Count) (hm : m.target.val ≤ basisPointsBase) :
    m.limit projected.val < Bounded.bound 64 := by
  have hshare : m.target.val * projected.val / basisPointsBase ≤ projected.val :=
    Nat.div_le_of_le_mul (Nat.mul_le_mul_right _ hm)
  have hprojected := projected.isLt
  have hactive := m.activeKeys.isLt
  unfold limit
  split
  · omega
  · exact hactive

theorem capacity_eq_ok (projected : Count) (hm : m.target.val ≤ basisPointsBase) :
    ∃ c : Count, m.capacity projected = .ok c ∧ c.val = m.limit projected.val := by
  unfold capacity
  by_cases h : m.acceptsDeposits = true
  · have hlimit : m.limit projected.val = min (m.target.val * projected.val / basisPointsBase)
        (m.activeKeys.val + m.availableKeys.val) := if_pos h
    have hshare : m.target.val * projected.val / basisPointsBase < Bounded.bound 128 :=
      calc m.target.val * projected.val / basisPointsBase
        _ ≤ projected.val := Nat.div_le_of_le_mul (Nat.mul_le_mul_right _ hm)
        _ < Bounded.bound 128 := Nat.lt_trans projected.isLt (by decide)
    have hproduct : m.target.val * projected.val < productLimit :=
      calc m.target.val * projected.val
        _ < Bounded.bound 16 * Bounded.bound 64 := Nat.mul_lt_mul'' m.target.isLt projected.isLt
        _ < productLimit := by decide
    obtain ⟨share, hval⟩ := Bounded.exists_val hshare
    obtain ⟨c, hc⟩ := Bounded.exists_val (limit_lt projected hm)
    refine ⟨c, ?_, hc⟩
    rw [if_pos h, mulDivAmount_down_eq_ok_iff.2 ⟨by decide, hproduct, hval⟩, ok_bind, hval,
      ← hlimit]
    exact Bounded.narrow_eq_ok_iff.2 hc.symm
  · rw [if_neg h]
    exact ⟨m.activeKeys, rfl, (if_neg h).symm⟩

theorem mapM_capacity_eq_ok (projected : Count) {ms : List StakingModule}
    (h : ∀ m ∈ ms, m.target.val ≤ basisPointsBase) :
    ∃ capacities : List Count, ms.mapM (·.capacity projected) = .ok capacities ∧
      capacities.map (·.val) = ms.map (·.limit projected.val) := by
  induction ms with
  | nil => exact ⟨[], rfl, rfl⟩
  | cons m ms ih =>
    obtain ⟨c, hm, hval⟩ := capacity_eq_ok projected (h m List.mem_cons_self)
    obtain ⟨capacities, hrest, hvals⟩ := ih (fun x hx => h x (List.mem_cons_of_mem _ hx))
    refine ⟨c :: capacities, ?_, ?_⟩
    · rw [List.mapM_cons, hm, ok_bind, hrest]
      rfl
    · rw [List.map_cons, List.map_cons, hval, hvals]

/-- What a module may be given: it ends with `count` active keys, `deposits` of them new.  It has
the keys, it takes deposits if it gets any, and they do not lift it above its share. -/
structure Grants (projected : Nat) (m : StakingModule) (count deposits : Nat) : Prop where
  count_eq : count = m.activeKeys.val + deposits
  keys : deposits ≤ m.availableKeys.val
  status : m.status ≠ .active → deposits = 0
  share : 0 < deposits → count ≤ m.target.val * projected / basisPointsBase

theorem Grants.count_lt {projected count deposits : Nat} (h : m.Grants projected count deposits)
    (hm : m.target.val ≤ basisPointsBase) (hprojected : projected < Bounded.bound 64) :
    count < Bounded.bound 64 := by
  rcases Nat.eq_zero_or_pos deposits with hnone | hpos
  · rw [h.count_eq, hnone]
    exact m.activeKeys.isLt
  · calc count
      _ ≤ m.target.val * projected / basisPointsBase := h.share hpos
      _ ≤ projected := Nat.div_le_of_le_mul (Nat.mul_le_mul_right _ hm)
      _ < Bounded.bound 64 := hprojected

theorem grants_of_le {projected count : Nat} (hle : m.activeKeys.val ≤ count)
    (hlimit : count ≤ max m.activeKeys.val (m.limit projected)) :
    m.Grants projected count (count - m.activeKeys.val) := by
  unfold limit acceptsDeposits at hlimit
  by_cases h : m.status = .active
  · rw [if_pos (beq_iff_eq.2 h)] at hlimit
    exact ⟨by omega, by omega, fun hnot => absurd h hnot, fun _ => by omega⟩
  · rw [if_neg (mt beq_iff_eq.1 h)] at hlimit
    exact ⟨by omega, by omega, fun _ => by omega, fun _ => by omega⟩

end StakingModule

namespace Levelling

variable {bs fs : List Bucket} {budget placed : Nat}

theorem sum_map_eq {α : Type} (f : α → Nat) (xs : List α) :
    (xs.map f).sum = ∑ i ∈ Finset.range xs.length, xs[i]?.elim 0 f := by
  induction xs with
  | nil => rfl
  | cons x xs ih =>
    rw [List.map_cons, List.sum_cons, List.length_cons, Finset.sum_range_succ', ih, Nat.add_comm]
    rfl

/-- Filling takes the whole budget, or else all the room there is. -/
theorem Levelled.placed_eq (h : Levelled bs budget placed fs) :
    placed = min budget (bs.map (fun b => b.capacity - b.level)).sum := by
  have hroom : ∀ i, bs[i]?.elim 0 (fun b => b.capacity - b.level) =
      capacityAt bs i - levelAt bs i := by
    intro i
    unfold capacityAt levelAt
    cases bs[i]? <;> rfl
  have htotal := h.total_eq
  unfold total at htotal
  rw [h.length_eq] at htotal
  rw [sum_map_eq]
  simp only [hroom]
  have hle : ∑ i ∈ Finset.range bs.length, levelAt fs i ≤
      ∑ i ∈ Finset.range bs.length, (levelAt bs i + (capacityAt bs i - levelAt bs i)) :=
    Finset.sum_le_sum (fun i _ => by have := h.level_le i; omega)
  rw [Finset.sum_add_distrib] at hle
  have hwithin := h.within
  -- If some of the budget is left, no bucket has room, and the sums agree place by place.
  by_cases hall : placed = budget
  · omega
  · have hge : ∑ i ∈ Finset.range bs.length, (levelAt bs i + (capacityAt bs i - levelAt bs i)) ≤
        ∑ i ∈ Finset.range bs.length, levelAt fs i := by
      refine Finset.sum_le_sum (fun i _ => ?_)
      have hfull := h.full (Nat.lt_of_le_of_ne hwithin hall) i
      have hcapacity := h.capacity_eq i
      have hlevel := h.le_level i
      unfold HasRoom at hfull
      omega
    rw [Finset.sum_add_distrib] at hge
    omega

end Levelling

namespace DepositAllocation

open FeeSplit Levelling

/-- What the filled buckets of modules come to. -/
def ofFilled (ms : List StakingModule) (filled : Nat × List Bucket) : DepositAllocation where
  allocated := filled.1
  moduleIds := ms.map (·.id)
  counts := filled.2.map Bucket.level
  deposits := List.zipWith (fun after (before : Count) => after - before.val)
    (filled.2.map Bucket.level) (ms.map (·.activeKeys))

/-- Whether new deposits are spread over the modules as they should be.  The lists go with the
modules, every module gets what it may get, and together they take all that is asked for or all they
have room for.  A deposit goes to a module only while no other one with room is lower. -/
structure Spreads (a : DepositAllocation) (ms : List StakingModule) (deposits : Nat) : Prop where
  ids : a.moduleIds = ms.map (·.id)
  counts_length : a.counts.length = ms.length
  deposits_length : a.deposits.length = ms.length
  grants : ∀ (i : Nat) (m : StakingModule) (n d : Nat), ms[i]? = some m → a.counts[i]? = some n →
    a.deposits[i]? = some d → m.Grants (keysOf ms + deposits) n d
  sum_eq : a.deposits.sum = a.allocated
  allocated_eq : a.allocated = min deposits (ms.map (·.room (keysOf ms + deposits))).sum
  fair : ∀ (i j : Nat) (m : StakingModule) (d n n' : Nat), a.deposits[i]? = some d → 0 < d →
    a.counts[i]? = some n → ms[j]? = some m → a.counts[j]? = some n' →
      n' < m.limit (keysOf ms + deposits) → n ≤ n' + 1

variable {ms : List StakingModule} {deposits : Count}

/-- Deposits that fit beside the active keys are spread by filling the buckets of the modules. -/
theorem allocateDeposits_eq (htarget : ∀ m ∈ ms, m.target.val ≤ basisPointsBase)
    (hfit : keysOf ms + deposits.val < Bounded.bound 64) :
    allocateDeposits ms deposits =
      .ok (ofFilled ms (fill (ms.map (·.bucket (keysOf ms + deposits.val))) deposits.val)) := by
  obtain ⟨keys, hkeys⟩ := Bounded.exists_val (Nat.lt_of_le_of_lt (Nat.le_add_right _ _) hfit)
  obtain ⟨projected, hprojected⟩ := Bounded.exists_val hfit
  obtain ⟨capacities, hcapacities, hvals⟩ :=
    StakingModule.mapM_capacity_eq_ok projected htarget
  have hsum : Bounded.sum (ms.map (·.activeKeys)) = .ok keys := Bounded.sum_eq_ok hkeys.symm
  have hadd : keys.add deposits = .ok projected :=
    Bounded.add_eq_ok_iff.2 (by rw [hkeys, hprojected])
  have hlength : ((ms.map (·.activeKeys)).map (·.val)).length =
      (capacities.map (·.val)).length := by
    rw [hvals, List.length_map, List.length_map, List.length_map]
  have hbuckets : List.zipWith Bucket.mk ((ms.map (·.activeKeys)).map (·.val))
      (capacities.map (·.val)) = ms.map (·.bucket (keysOf ms + deposits.val)) := by
    rw [hvals, List.map_map, List.zipWith_map, List.zipWith_self, hprojected]
    rfl
  dsimp only [allocateDeposits]
  rw [hsum, ok_bind, hadd, ok_bind, hcapacities, ok_bind, allocate, if_pos hlength, hbuckets]
  rfl

theorem allocateDeposits_eq_error (hfit : Bounded.bound 64 ≤ keysOf ms + deposits.val) :
    allocateDeposits ms deposits = .error .overflow := by
  dsimp only [allocateDeposits]
  by_cases hkeys : keysOf ms < Bounded.bound 64
  · have hsum : Bounded.sum (ms.map (·.activeKeys)) = .ok ⟨keysOf ms, hkeys⟩ :=
      Bounded.sum_eq_ok rfl
    rw [hsum, ok_bind, Bounded.add_eq_error hfit]
    rfl
  · rw [Bounded.sum_eq_error (Nat.le_of_not_lt hkeys)]
    rfl

section

variable {fs : List Bucket} {placed projected budget i n d : Nat} {m : StakingModule}

theorem bucketAt (projected : Nat) (hm : ms[i]? = some m) :
    levelAt (ms.map (·.bucket projected)) i = m.activeKeys.val ∧
      capacityAt (ms.map (·.bucket projected)) i = m.limit projected := by
  have hb : (ms.map (·.bucket projected))[i]? = some (m.bucket projected) := by
    rw [List.getElem?_map, hm, Option.map_some]
  exact ⟨levelAt_eq hb, capacityAt_eq hb⟩

theorem countAt (hn : (fs.map Bucket.level)[i]? = some n) : levelAt fs i = n := by
  rw [List.getElem?_map, Option.map_eq_some_iff] at hn
  obtain ⟨b, hb, rfl⟩ := hn
  exact levelAt_eq hb

theorem depositsAt (hd : (ofFilled ms (placed, fs)).deposits[i]? = some d) :
    ∃ m, ms[i]? = some m ∧ d = levelAt fs i - m.activeKeys.val := by
  obtain ⟨n, k, hn, hk, rfl⟩ := List.getElem?_zipWith_eq_some.1 hd
  rw [List.getElem?_map, Option.map_eq_some_iff] at hk
  obtain ⟨m, hm, rfl⟩ := hk
  exact ⟨m, hm, by rw [countAt hn]⟩

variable (h : Levelled (ms.map (·.bucket projected)) budget placed fs)
include h

theorem length_ofFilled : (ofFilled ms (placed, fs)).counts.length = ms.length ∧
    (ofFilled ms (placed, fs)).deposits.length = ms.length := by
  have hlength : fs.length = ms.length := h.length_eq.trans (List.length_map ..)
  unfold ofFilled
  simp only [List.length_map, List.length_zipWith, hlength, Nat.min_self, and_self]

theorem grants_ofFilled (hm : ms[i]? = some m)
    (hn : (ofFilled ms (placed, fs)).counts[i]? = some n)
    (hd : (ofFilled ms (placed, fs)).deposits[i]? = some d) : m.Grants projected n d := by
  obtain ⟨m', hm', rfl⟩ := depositsAt hd
  obtain rfl : m = m' := Option.some.inj (hm.symm.trans hm')
  obtain ⟨hlevel, hcapacity⟩ := bucketAt projected hm
  have hle := h.le_level i
  have hlimit := h.level_le i
  rw [hlevel] at hle hlimit
  rw [hcapacity] at hlimit
  rw [← countAt hn]
  exact StakingModule.grants_of_le hle hlimit

theorem sum_ofFilled : (ofFilled ms (placed, fs)).deposits.sum = placed := by
  have hlength : fs.length = ms.length := h.length_eq.trans (List.length_map ..)
  have hat : ∀ i ∈ Finset.range ms.length, (ofFilled ms (placed, fs)).deposits[i]?.elim 0 id +
      levelAt (ms.map (·.bucket projected)) i = levelAt fs i := by
    intro i hi
    have hlt : i < (ofFilled ms (placed, fs)).deposits.length :=
      (length_ofFilled h).2 ▸ Finset.mem_range.1 hi
    obtain ⟨m, hm, hd⟩ := depositsAt (List.getElem?_eq_getElem hlt)
    have hle := h.le_level i
    rw [(bucketAt _ hm).1] at hle ⊢
    rw [List.getElem?_eq_getElem hlt, Option.elim_some, hd]
    exact Nat.sub_add_cancel hle
  have hsum : ∑ i ∈ Finset.range ms.length, ((ofFilled ms (placed, fs)).deposits[i]?.elim 0 id +
      levelAt (ms.map (·.bucket projected)) i) = ∑ i ∈ Finset.range ms.length, levelAt fs i :=
    Finset.sum_congr rfl hat
  have htotal := h.total_eq
  rw [Finset.sum_add_distrib] at hsum
  rw [total, total, hlength, List.length_map] at htotal
  rw [← List.map_id (ofFilled ms (placed, fs)).deposits, sum_map_eq, (length_ofFilled h).2]
  omega

end

theorem spreads_ofFilled (ms : List StakingModule) (deposits : Nat) :
    (ofFilled ms (fill (ms.map (·.bucket (keysOf ms + deposits))) deposits)).Spreads ms
      deposits := by
  have h := fill_levelled (ms.map (·.bucket (keysOf ms + deposits))) deposits
  refine ⟨rfl, (length_ofFilled h).1, (length_ofFilled h).2, fun i m n d => grants_ofFilled h,
    sum_ofFilled h, ?_, fun i j m d n n' hd hpos hn hm hn' hroom => ?_⟩
  · have hplaced := h.placed_eq
    rw [List.map_map] at hplaced
    exact hplaced
  · obtain ⟨k, hk, rfl⟩ := depositsAt hd
    have hcapacity := h.capacity_eq j
    have hfair := h.fair i j (by rw [(bucketAt _ hk).1]; omega)
    unfold HasRoom at hfair
    rw [hcapacity, (bucketAt _ hm).2, countAt hn, countAt hn'] at hfair
    have := hfair hroom
    omega

theorem lookup_zip_ids {ms : List StakingModule} {ds : List Nat} {i d : Nat} {m : StakingModule}
    (hdistinct : ms.Pairwise (fun a b => a.id ≠ b.id)) (hm : ms[i]? = some m)
    (hd : ds[i]? = some d) : ((ms.map (·.id)).zip ds).lookup m.id = some d := by
  induction ms generalizing ds i with
  | nil => cases hm
  | cons x ms ih =>
    cases ds with
    | nil => cases hd
    | cons y ds =>
      obtain ⟨hx, hrest⟩ := List.pairwise_cons.1 hdistinct
      rw [List.map_cons, List.zip_cons_cons, List.lookup_cons]
      cases i with
      | zero =>
        cases hm
        cases hd
        rw [beq_self_eq_true]
      | succ i =>
        have hne : (m.id == x.id) = false :=
          beq_eq_false_iff_ne.2 (hx m (List.mem_of_getElem? hm)).symm
        rw [hne]
        exact ih hrest hm hd

theorem Spreads.depositsFor_eq {a : DepositAllocation} {deposits i d : Nat} {m : StakingModule}
    (h : a.Spreads ms deposits) (hdistinct : ms.Pairwise (fun a b => a.id ≠ b.id))
    (hm : ms[i]? = some m) (hd : a.deposits[i]? = some d) : a.depositsFor m.id = .ok d := by
  unfold depositsFor
  rw [h.ids, lookup_zip_ids hdistinct hm hd]

end DepositAllocation

open DepositAllocation FeeSplit in
/-- Deposits over modules with identifiers of their own, none with a target above the whole, are
refused only if they do not fit beside the active keys.  Otherwise they are spread as they should
be, and each module's deposits are found by its identifier. -/
theorem deposits_spread_fairly (ms : List StakingModule) (deposits : Count)
    (hdistinct : ms.Pairwise (fun a b => a.id ≠ b.id))
    (htarget : ∀ m ∈ ms, m.target.val ≤ basisPointsBase) :
    (Bounded.bound 64 ≤ keysOf ms + deposits.val →
        allocateDeposits ms deposits = .error .overflow) ∧
      (keysOf ms + deposits.val < Bounded.bound 64 →
        ∃ a, allocateDeposits ms deposits = .ok a ∧ a.Spreads ms deposits.val ∧
          ∀ (i : Nat) (m : StakingModule) (d : Nat), ms[i]? = some m → a.deposits[i]? = some d →
            a.depositsFor m.id = .ok d) := by
  refine ⟨allocateDeposits_eq_error, fun hfit => ?_⟩
  have hspreads := spreads_ofFilled ms deposits.val
  exact ⟨_, allocateDeposits_eq htarget hfit, hspreads,
    fun i m d hm hd => hspreads.depositsFor_eq hdistinct hm hd⟩

def keyed (id : ModuleId) (target : BasisPoints) (status : ModuleStatus)
    (active available : Count) : StakingModule where
  id := id
  name := ""
  address := .zero
  target := target
  fee := 500
  treasuryFee := 500
  status := status
  activeKeys := active
  availableKeys := available
  lastDepositBlock := Bounded.zero

/-- Two modules with room, the second with one key only, a paused one and one above its target. -/
def mixedModules : List StakingModule :=
  [keyed 1 5000 .active 5 10, keyed 2 5000 .active 7 1, keyed 3 5000 .depositsPaused 3 9,
    keyed 4 1000 .active 40 5]

theorem deposits_spread_fairly_mixed :
    mixedModules.Pairwise (fun a b => a.id ≠ b.id) ∧
      (∀ m ∈ mixedModules, m.target.val ≤ basisPointsBase) ∧
      (∃ a, allocateDeposits mixedModules 10 = .ok a ∧ a.Spreads mixedModules 10 ∧
        a.allocated = 10 ∧ a.depositsFor 1 = .ok 9 ∧ a.depositsFor 2 = .ok 1) ∧
      allocateDeposits mixedModules 18446744073709551615 = .error .overflow := by
  have hdistinct : mixedModules.Pairwise (fun a b => a.id ≠ b.id) := by decide
  have htarget : ∀ m ∈ mixedModules, m.target.val ≤ basisPointsBase := by decide
  obtain ⟨-, hfit⟩ := deposits_spread_fairly mixedModules 10 hdistinct htarget
  obtain ⟨hover, -⟩ :=
    deposits_spread_fairly mixedModules 18446744073709551615 hdistinct htarget
  obtain ⟨a, ha, hspreads, hfor⟩ := hfit (by decide)
  have hdeposits : a.deposits = [9, 1, 0, 0] := by
    rw [DepositAllocation.allocateDeposits_eq htarget (by decide), Levelling.fill_eq_oneByOne] at ha
    rw [← Except.ok.inj ha]
    decide +kernel
  refine ⟨hdistinct, htarget, ⟨a, ha, hspreads, ?_, hfor 0 _ 9 rfl ?_, hfor 1 _ 1 rfl ?_⟩,
    hover (by decide)⟩
  · rw [← hspreads.sum_eq, hdeposits]
    rfl
  · rw [hdeposits]
    rfl
  · rw [hdeposits]
    rfl

end LiquidStaking

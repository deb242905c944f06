/-
Moving deposits out of the buffer.

How many deposits go where is computed from all modules at once, and recorded module by module.  The
two agree: the modules have identifiers of their own, so a record changes one of them, and no module
is given more than the keys it has.  What is left to fail is a number that leaves its width.
-/
import LiquidStaking.Proofs.Deposit.Spreading
import LiquidStaking.Proofs.Pool.Restoration
import Mathlib.Data.List.Forall2

namespace LiquidStaking

/-- What `d` deposits in a block leave of a module: as many keys go from available to active, and
the block is noted.  Nothing is if there are none. -/
structure StakingModule.Takes (m : StakingModule) (d : Nat) (block : Count) (m' : StakingModule) :
    Prop where
  available : m'.availableKeys.val + d = m.availableKeys.val
  active : m'.activeKeys.val = m.activeKeys.val + d
  noted : m'.lastDepositBlock = if 0 < d then block else m.lastDepositBlock
  others : m' = { m with
    availableKeys := m'.availableKeys
    activeKeys := m'.activeKeys
    lastDepositBlock := m'.lastDepositBlock }

namespace StakingModule

variable {m m' : StakingModule} {d : Nat} {block : Count}

theorem Takes.id_eq (h : m.Takes d block m') : m'.id = m.id := by
  rw [h.others]

theorem takes_zero (m : StakingModule) (block : Count) : m.Takes 0 block m := ⟨rfl, rfl, rfl, rfl⟩

end StakingModule

/-! ### Recording deposits -/

namespace Registry

variable {before rest : List StakingModule} {m m' : StakingModule} {capacity block : Count}

theorem exists_recordDeposits {d : Nat} (hkeys : d ≤ m.availableKeys.val)
    (hfit : m.activeKeys.val + d < Bounded.bound 64) (hpos : 0 < d)
    (hdistinct : (before ++ m :: rest).Pairwise (fun a b => a.id ≠ b.id)) :
    ∃ m', (holding capacity (before ++ m :: rest)).recordDeposits m.id d block =
        .ok (holding capacity (before ++ m' :: rest)) ∧ m.Takes d block m' := by
  obtain ⟨active, hactive⟩ := Bounded.exists_val hfit
  obtain ⟨available, havailable⟩ := Bounded.exists_val
    (Nat.lt_of_le_of_lt (Nat.sub_le m.availableKeys.val d) m.availableKeys.isLt)
  have hleft : available.val + d = m.availableKeys.val := by omega
  have hdeposited : m.deposited d block = .ok { m with
      availableKeys := available
      activeKeys := active
      lastDepositBlock := block } :=
    StakingModule.deposited_eq_ok_iff.2 ⟨hleft, hactive, rfl⟩
  have hbefore : ∀ x ∈ before, x.id ≠ m.id := fun x hx =>
    (List.pairwise_append.1 hdistinct).2.2 x hx m List.mem_cons_self
  refine ⟨{ m with
    availableKeys := available
    activeKeys := active
    lastDepositBlock := block }, ?_, ⟨hleft, hactive, (if_pos hpos).symm, rfl⟩⟩
  rw [recordDeposits, apply_update rfl, get_of_distinct hdistinct, ok_bind, hdeposited, ok_bind]
  exact congrArg (fun ms => Except.ok (holding capacity ms)) (replace_append hbefore rfl)

/-- Recording the deposits of a list of modules, whatever stands before them, changes each by its
own deposits. -/
theorem exists_foldlM_recordDeposits (capacity block : Count) :
    ∀ (ms : List StakingModule) (ds : List Nat) (before : List StakingModule),
      (before ++ ms).Pairwise (fun a b => a.id ≠ b.id) → ds.length = ms.length →
        (∀ e ∈ ms.zip ds, e.2 ≤ e.1.availableKeys.val ∧
          e.1.activeKeys.val + e.2 < Bounded.bound 64) →
          ∃ ms', ((ms.map (·.id)).zip ds).foldlM
              (fun r e => if e.2 = 0 then .ok r else recordDeposits r e.1 e.2 block)
              (holding capacity (before ++ ms)) = Except.ok (holding capacity (before ++ ms')) ∧
            List.Forall₂ (fun e m' => e.1.Takes e.2 block m') (ms.zip ds) ms' := by
  intro ms
  induction ms with
  | nil =>
    intro ds before _ _ _
    exact ⟨[], rfl, .nil⟩
  | cons m ms ih =>
    intro ds before hdistinct hlength hkeys
    cases ds with
    | nil => cases hlength
    | cons d ds =>
      have hstep : ∃ m', (if d = 0 then .ok (holding capacity (before ++ m :: ms))
            else recordDeposits (holding capacity (before ++ m :: ms)) m.id d block) =
          Except.ok (holding capacity (before ++ m' :: ms)) ∧ m.Takes d block m' := by
        by_cases hd : d = 0
        · subst hd
          exact ⟨m, if_pos rfl, m.takes_zero block⟩
        · obtain ⟨hle, hfit⟩ := hkeys (m, d) List.mem_cons_self
          rw [if_neg hd]
          exact exists_recordDeposits hle hfit (Nat.pos_of_ne_zero hd) hdistinct
      obtain ⟨m', hrecord, htakes⟩ := hstep
      -- What was written joins the modules before, with the identifiers it had.
      have hrest : (before ++ [m'] ++ ms).Pairwise (fun a b => a.id ≠ b.id) := by
        refine distinct_of_ids ?_ hdistinct
        rw [List.append_cons, List.map_append, List.map_append, List.map_append, List.map_append,
          List.map_singleton, List.map_singleton, htakes.id_eq]
      obtain ⟨ms', hfold, hall⟩ := ih ds (before ++ [m']) hrest (Nat.succ.inj hlength)
        (fun e he => hkeys e (List.mem_cons_of_mem _ he))
      refine ⟨m' :: ms', ?_, .cons htakes hall⟩
      rw [List.map_cons, List.zip_cons_cons, List.foldlM_cons, hrecord, ok_bind,
        List.append_cons before m' ms, hfold, ← List.append_cons]

end Registry

namespace Pool

open FeeSplit

variable {policy : PoolPolicy} {p p' : Pool} {r : Registry} {a : DepositAllocation}
  {reserved : Amount} {limit block : Count} {n : Nat}

theorem exists_recordAllocation (hr : r.Valid) (h : a.Spreads r.modules n)
    (hfit : keysOf r.modules + n < Bounded.bound 64) (block : Count) :
    ∃ ms', recordAllocation r a block = .ok (.holding r.capacity ms') ∧
      List.Forall₂ (fun e m' => e.1.Takes e.2 block m') (r.modules.zip a.deposits) ms' := by
  have hkeys : ∀ e ∈ r.modules.zip a.deposits, e.2 ≤ e.1.availableKeys.val ∧
      e.1.activeKeys.val + e.2 < Bounded.bound 64 := by
    intro e he
    obtain ⟨i, hi⟩ := List.mem_iff_getElem?.1 he
    obtain ⟨hm, hd⟩ := List.getElem?_zip_eq_some.1 hi
    have hlt : i < a.counts.length := by
      rw [h.counts_length]
      exact (List.getElem?_eq_some_iff.1 hm).1
    have hgrants := h.grants i e.1 _ e.2 hm (List.getElem?_eq_getElem hlt) hd
    have hchecked := hr.checked e.1 (List.mem_of_getElem? hm)
    rw [← hgrants.count_eq]
    exact ⟨hgrants.keys,
      hgrants.count_lt (StakingModule.validate_eq_ok_iff.1 hchecked).1 hfit⟩
  obtain ⟨ms', hfold, hall⟩ := Registry.exists_foldlM_recordDeposits r.capacity block r.modules
    a.deposits [] hr.distinct h.deposits_length hkeys
  refine ⟨ms', ?_, hall⟩
  unfold recordAllocation
  rw [h.ids, hr.eq_holding]
  exact hfold

/-- The number of deposits that are asked for: what the buffer pays for beyond the reserve, and no
more than the limit. -/
def depositCount (p : Pool) (reserved : Amount) (limit : Count) : Nat :=
  min ((p.totals.bufferedEther.val - reserved.val) / p.policy.depositSize.val) limit.val

/-- How many of `n` deposits the modules of a pool have room for. -/
def depositsPlaced (p : Pool) (n : Nat) : Nat :=
  min n (p.registry.modules.map (·.room (keysOf p.registry.modules + n))).sum

/-- Whether `n` deposits lift the keys of all modules, or the staked ether, above the greatest
number of their width. -/
def DepositsOverflow (p : Pool) (n : Nat) : Prop :=
  Bounded.bound 64 ≤ keysOf p.registry.modules + n ∨
    Bounded.bound 128 ≤ p.totals.stakedEther.val + p.policy.depositSize.val * p.depositsPlaced n

instance (p : Pool) (n : Nat) : Decidable (p.DepositsOverflow n) :=
  inferInstanceAs (Decidable (_ ∨ _))

/-- What deposits out of the buffer leave of a pool.  Every module takes its own, the ether for them
goes from buffered to staked, what withdrawals are promised stays buffered as far as it was, and
nothing else changes. -/
structure Deposited (p : Pool) (reserved : Amount) (limit block : Count) (a : DepositAllocation)
    (p' : Pool) : Prop where
  spread : a.Spreads p.registry.modules (p.depositCount reserved limit)
  modules : List.Forall₂ (fun e m' => e.1.Takes e.2 block m') (p.registry.modules.zip a.deposits)
    p'.registry.modules
  buffered : p'.totals.bufferedEther.val + p.policy.depositSize.val * a.deposits.sum =
    p.totals.bufferedEther.val
  staked : p'.totals.stakedEther.val =
    p.totals.stakedEther.val + p.policy.depositSize.val * a.deposits.sum
  within : a.allocated ≤ limit.val
  reserve : min p.totals.bufferedEther.val reserved.val ≤ p'.totals.bufferedEther.val
  others : p' = { p with
    totals := { p.totals with
      bufferedEther := p'.totals.bufferedEther
      stakedEther := p'.totals.stakedEther }
    registry := .holding p.registry.capacity p'.registry.modules }

theorem depositCount_mul_le (p : Pool) (reserved : Amount) (limit : Count) :
    p.depositCount reserved limit * p.policy.depositSize.val ≤
      p.totals.bufferedEther.val - reserved.val :=
  calc p.depositCount reserved limit * p.policy.depositSize.val
    _ ≤ (p.totals.bufferedEther.val - reserved.val) / p.policy.depositSize.val *
        p.policy.depositSize.val := Nat.mul_le_mul_right _ (Nat.min_le_left _ _)
    _ ≤ p.totals.bufferedEther.val - reserved.val := Nat.div_mul_le_self _ _

theorem exists_affordableDeposits (hsize : p.policy.depositSize.val ≠ 0) (reserved : Amount)
    (limit : Count) : ∃ count, p.affordableDeposits reserved limit = .ok count ∧
      count.val = p.depositCount reserved limit := by
  dsimp only [affordableDeposits, Bounded.div]
  rw [if_neg hsize]
  exact ⟨_, rfl, rfl⟩

/-- The parts of a deposit out of the buffer up to the one that may still fail. -/
structure Moving (p : Pool) (reserved : Amount) (limit block : Count) (a : DepositAllocation)
    (moved buffered : Amount) (ms' : List StakingModule) : Prop where
  spread : a.Spreads p.registry.modules (p.depositCount reserved limit)
  cost : moved.val = p.policy.depositSize.val * a.deposits.sum
  paid : moved.val ≤ p.totals.bufferedEther.val - reserved.val
  left : p.totals.bufferedEther.val = buffered.val + moved.val
  modules : List.Forall₂ (fun e m' => e.1.Takes e.2 block m') (p.registry.modules.zip a.deposits)
    ms'

theorem Governed.exists_moving (hp : Governed policy p) {count : Count}
    (hcount : count.val = p.depositCount reserved limit)
    (hkeys : keysOf p.registry.modules + count.val < Bounded.bound 64) (block : Count) :
    ∃ a moved buffered ms', Moving p reserved limit block a moved buffered ms' ∧
      allocateDeposits p.registry.modules count = .ok a ∧
      Bounded.fit .overflow (a.allocated * p.policy.depositSize.val) = .ok moved ∧
      recordAllocation p.registry a block = .ok (.holding p.registry.capacity ms') := by
  have htarget : ∀ m ∈ p.registry.modules, m.target.val ≤ basisPointsBase := fun m hm =>
    (StakingModule.validate_eq_ok_iff.1 (hp.registry.checked m hm)).1
  have hallocate := DepositAllocation.allocateDeposits_eq htarget hkeys
  have hspread := DepositAllocation.spreads_ofFilled p.registry.modules count.val
  generalize DepositAllocation.ofFilled p.registry.modules _ = a at hallocate hspread
  obtain ⟨ms', hregistry, hmodules⟩ := exists_recordAllocation hp.registry hspread hkeys block
  have hpaid : a.allocated * p.policy.depositSize.val ≤
      p.totals.bufferedEther.val - reserved.val := by
    refine Nat.le_trans (Nat.mul_le_mul_right _ ?_) (p.depositCount_mul_le reserved limit)
    rw [hspread.allocated_eq, hcount]
    exact Nat.min_le_left _ _
  have hbuffered := p.totals.bufferedEther.isLt
  obtain ⟨moved, hmoved⟩ : ∃ moved : Amount,
      moved.val = a.allocated * p.policy.depositSize.val := Bounded.exists_val (by omega)
  obtain ⟨buffered, hleft⟩ : ∃ buffered : Amount,
      buffered.val = p.totals.bufferedEther.val - moved.val := Bounded.exists_val (by omega)
  refine ⟨a, moved, buffered, ms', ?_, hallocate, Bounded.fit_eq_ok_iff.2 hmoved.symm,
    hregistry⟩
  exact {
    spread := hcount ▸ hspread
    cost := by rw [hmoved, hspread.sum_eq, Nat.mul_comm]
    paid := hmoved ▸ hpaid
    left := by omega
    modules := hmodules }

theorem Moving.deposited {moved buffered staked : Amount} {ms' : List StakingModule}
    (h : Moving p reserved limit block a moved buffered ms')
    (hstaked : staked.val = p.totals.stakedEther.val + moved.val) :
    p.Deposited reserved limit block a { p with
      totals := { p.totals with bufferedEther := buffered, stakedEther := staked }
      registry := .holding p.registry.capacity ms' } where
  spread := h.spread
  modules := h.modules
  buffered := by
    show buffered.val + _ = _
    rw [← h.cost, h.left]
  staked := by
    show staked.val = _
    rw [hstaked, h.cost]
  within := by
    rw [h.spread.allocated_eq]
    exact Nat.le_trans (Nat.min_le_left _ _) (Nat.min_le_right _ _)
  reserve := by
    have hpaid := h.paid
    have hleft := h.left
    show min _ _ ≤ buffered.val
    omega
  others := rfl

/-- A deposit out of the buffer overflows, or moves the ether of the deposits it places. -/
theorem deposit_cases (hp : Governed policy p) (hpolicy : policy.validate = .ok ())
    (hreserved : p.queue.unfinalizedEther = .ok reserved) (limit block : Count) :
    (p.DepositsOverflow (p.depositCount reserved limit) ∧
        p.deposit limit block = .error (.refused .overflow)) ∨
      (¬ p.DepositsOverflow (p.depositCount reserved limit) ∧
        ∃ a p', p.deposit limit block = .ok (a, p') ∧
          p.Deposited reserved limit block a p') := by
  have hsize : p.policy.depositSize.val ≠ 0 := by
    rw [hp.policy]
    exact (PoolPolicy.validate_eq_ok_iff.1 hpolicy).2.2.1
  obtain ⟨count, hcount, hval⟩ := exists_affordableDeposits hsize reserved limit
  unfold DepositsOverflow deposit
  rw [hreserved, ok_bind, hcount, lift_ok, ok_bind, ← hval]
  by_cases hkeys : keysOf p.registry.modules + count.val < Bounded.bound 64
  · obtain ⟨a, moved, buffered, ms', hmoving, hallocate, hfit, hregistry⟩ :=
      hp.exists_moving hval hkeys block
    have hsub : p.totals.bufferedEther.sub moved = .ok buffered :=
      Bounded.sub_eq_ok_iff.2 hmoving.left
    -- Past the keys only the staked ether can overflow, and it does so by what is placed.
    have hcost : p.policy.depositSize.val * p.depositsPlaced count.val = moved.val := by
      rw [hmoving.cost, hmoving.spread.sum_eq, hmoving.spread.allocated_eq, hval]
      rfl
    rw [hallocate, lift_ok, ok_bind, hfit, lift_ok, ok_bind, hregistry, lift_ok, ok_bind, hsub,
      lift_ok, ok_bind, hcost]
    by_cases hstaked : p.totals.stakedEther.val + moved.val < Bounded.bound 128
    · obtain ⟨staked, hsum⟩ := Bounded.exists_val hstaked
      have hadd : p.totals.stakedEther.add moved = .ok staked :=
        Bounded.add_eq_ok_iff.2 hsum.symm
      refine .inr ⟨by omega, a, _, ?_, hmoving.deposited hsum⟩
      rw [hadd]
      rfl
    · refine .inl ⟨.inr (Nat.le_of_not_lt hstaked), ?_⟩
      rw [Bounded.add_eq_error (Nat.le_of_not_lt hstaked)]
      rfl
  · refine .inl ⟨.inl (Nat.le_of_not_lt hkeys), ?_⟩
    rw [DepositAllocation.allocateDeposits_eq_error (Nat.le_of_not_lt hkeys)]
    rfl

/-- In a pool that was run from the start, a deposit out of the buffer does what it should, and
fails with an overflow only, exactly when the keys or the staked ether would leave their width. -/
theorem deposit_moves_ether (h : Reached policy p) (limit block : Count) :
    ∃ reserved, p.queue.unfinalizedEther = .ok reserved ∧
      (∀ a p', p.deposit limit block = .ok (a, p') → p.Deposited reserved limit block a p') ∧
      ∀ failure, p.deposit limit block = .error failure ↔
        failure = .refused .overflow ∧ p.DepositsOverflow (p.depositCount reserved limit) := by
  obtain ⟨reserved, hreserved, -⟩ := h.sound.queue.exists_unfinalizedEther
  refine ⟨reserved, hreserved, ?_⟩
  rcases deposit_cases h.governed h.validate hreserved limit block with
    ⟨hover, hdeposit⟩ | ⟨hfits, a, p', hdeposit, hdeposited⟩
  · rw [hdeposit]
    refine ⟨fun _ _ hok => (nomatch hok), fun failure => ⟨fun hfail => ?_, fun hfail => ?_⟩⟩
    · exact ⟨(Except.error.inj hfail).symm, hover⟩
    · rw [hfail.1]
  · rw [hdeposit]
    refine ⟨fun _ _ hok => ?_, fun failure => ⟨fun hfail => (nomatch hfail), fun hfail => ?_⟩⟩
    · cases hok
      exact hdeposited
    · exact absurd hfail.2 hfits

/-- Two modules, one of them paused, 200 ether, and a withdrawal of 40 that waits. -/
def reservingMoves : List Move :=
  [.run (.manage (.add (keyed 7 10000 .active 1 2))),
    .run (.manage (.add (keyed 3 5000 .depositsPaused 4 5))),
    .run (.submit .zero 200000000000000000000),
    .run (.requestWithdrawal .zero 40000000000000000000 1)]

def reservingPool : Pool := ((Books.fresh (initial .standard)).after reservingMoves).pool

/-- The same pool with all the keys there can be in one of its modules. -/
def fullPool : Pool :=
  ((Books.mk reservingPool .empty).move
    (.run (.manage (.setKeys 3 18446744073709551615 1)))).pool

/-- The buffer would pay for five deposits beyond the reserve, and the modules have room for two.
Once the keys are at their limit no deposit fits. -/
theorem deposit_moves_ether_reserved :
    (Reached .standard reservingPool ∧
      reservingPool.queue.unfinalizedEther = .ok 40000000000000000000 ∧
      reservingPool.depositCount 40000000000000000000 10 = 5 ∧
      ∃ a p', reservingPool.deposit 10 9 = .ok (a, p') ∧
        reservingPool.Deposited 40000000000000000000 10 9 a p' ∧ a.allocated = 2 ∧
        p'.totals.bufferedEther.val = 136 * oneEther) ∧
    Reached .standard fullPool ∧ fullPool.deposit 10 9 = .error (.refused .overflow) ∧
      fullPool.DepositsOverflow (fullPool.depositCount 40000000000000000000 10) := by
  have hreached : Reached .standard reservingPool :=
    Reached.after (b := Books.fresh (initial .standard)) reservingMoves (.create rfl)
  have hfull : Reached .standard fullPool := hreached.run .empty _
  have hreserve : reservingPool.queue.unfinalizedEther = .ok 40000000000000000000 := by
    decide +kernel
  have hcount : reservingPool.depositCount 40000000000000000000 10 = 5 := by decide +kernel
  refine ⟨⟨hreached, hreserve, hcount, ?_⟩, hfull, ?_⟩
  · obtain ⟨reserved, hreserved, hok, hfail⟩ := deposit_moves_ether hreached 10 9
    obtain rfl := Except.ok.inj (hreserved.symm.trans hreserve)
    cases hdeposit : reservingPool.deposit 10 9 with
    | error failure =>
      have hover := ((hfail failure).1 hdeposit).2
      rw [hcount] at hover
      exact absurd hover (by decide +kernel)
    | ok out =>
      have hdeposited := hok out.1 out.2 hdeposit
      have hallocated : out.1.allocated = 2 := by
        rw [hdeposited.spread.allocated_eq, hcount]
        decide +kernel
      have hbuffered := hdeposited.buffered
      rw [hdeposited.spread.sum_eq, hallocated] at hbuffered
      refine ⟨out.1, out.2, rfl, hdeposited, hallocated,
        Nat.add_right_cancel (hbuffered.trans ?_)⟩
      decide +kernel
  · obtain ⟨reserved, hreserved, -, hfail⟩ := deposit_moves_ether hfull 10 9
    have hsame : fullPool.queue.unfinalizedEther = .ok 40000000000000000000 := hreserve
    obtain rfl := Except.ok.inj (hreserved.symm.trans hsame)
    have hover : fullPool.deposit 10 9 = .error (.refused .overflow) := by decide +kernel
    exact ⟨hover, ((hfail _).1 hover).2⟩

end Pool
end LiquidStaking

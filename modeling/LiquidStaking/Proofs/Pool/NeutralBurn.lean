/-
The shares that a batch burns at once.

A batch locks the floor of what its shares are worth, or less, and burns the floor of what that
ether is worth.  The two roundings lower the rate of the other shares by less than what one share
is worth, and no subtraction on the way can fail: a batch holds no more than the queue, and the
queue no more than the supply.
-/
import LiquidStaking.Proofs.Pool.Refusals
import LiquidStaking.Proofs.Pool.ShareLedger

namespace LiquidStaking

/-- Any fault but that of a difference below zero. -/
def Fault.NotUnderflow (f : Fault) : Prop := f ≠ .underflow

theorem Fault.notUnderflow_allowsBatch : AllowsBatch NotUnderflow := by
  constructor <;> nofun

namespace Pool

open Fault

variable {p : Pool} {t t' : PoolTotals} {last : Count} {balance burn : Amount} {b : Batch}

/-- Whether the shares of a batch at some totals are burned neutrally: `burn` of them at once, which
is what the locked ether is worth, and the other ones, its discount, later.  Differences are those
of integers. -/
structure BurnsNeutrally (t : PoolTotals) (s : Settlement) (burn discount : Amount) : Prop where
  lock_le : s.etherToLock.val ≤ t.poolValue.val
  shares_le : s.sharesToBurn.val ≤ t.queuedShares.val ∧ t.queuedShares.val ≤ t.totalShares.val
  worth : Rate.sharesForValue ⟨t.poolValue.val, t.totalShares.val⟩ s.etherToLock.val = .ok burn.val
  burned : neutralBurn t.poolValue t.totalShares s = .ok burn
  burn_le : burn.val ≤ s.sharesToBurn.val
  discounted : s.sharesToBurn.sub burn = .ok discount
  rate_falls : 0 ≤ (t.poolValue.val : Int) * (t.totalShares.val - burn.val) -
    t.totalShares.val * (t.poolValue.val - s.etherToLock.val)
  rate_kept : (t.poolValue.val : Int) * (t.totalShares.val - burn.val) -
    t.totalShares.val * (t.poolValue.val - s.etherToLock.val) < t.poolValue.val
  rate_of_all : (t.poolValue.val : Int) * (t.totalShares.val - s.sharesToBurn.val) ≤
    t.totalShares.val * (t.poolValue.val - s.etherToLock.val)

theorem neutralBurn_of_worth {poolValue shares : Amount} {s : Settlement} (hshares : shares.val ≠ 0)
    (hworth : Rate.sharesForValue ⟨poolValue.val, shares.val⟩ s.etherToLock.val = .ok burn.val)
    (hle : burn.val ≤ s.sharesToBurn.val) : neutralBurn poolValue shares s = .ok burn := by
  have hrate : Rate.ofAmounts poolValue shares = .ok ⟨poolValue.val, shares.val⟩ :=
    Rate.ofAmounts_eq_ok hshares
  have hnarrow : Bounded.narrow burn.val = .ok burn := Bounded.narrow_eq_ok_iff.2 rfl
  rw [neutralBurn, hrate, ok_bind, hworth, ok_bind, hnarrow, ok_bind, if_pos hle]
  rfl

theorem rounding_of_burn {value shares lock burn : Nat} (hburn : burn = lock * shares / value) :
    (value : Int) * (shares - burn) - shares * (value - lock) = (lock * shares % value : Nat) := by
  have hsplit : (value : Int) * burn + (lock * shares % value : Nat) = lock * shares := by
    rw [hburn]
    exact_mod_cast Nat.div_add_mod (lock * shares) value
  rw [Int.mul_sub, Int.mul_sub, Int.mul_comm shares value, Int.mul_comm shares lock]
  omega

/-- Without shares that are worth the locked ether and more, the rate does not fall. -/
theorem rate_without_batch {value shares lock batch : Nat}
    (hworth : lock * shares ≤ batch * value) :
    (value : Int) * (shares - batch) ≤ shares * (value - lock) := by
  have hworth : (shares : Int) * lock ≤ value * batch := by
    rw [Int.mul_comm, Int.mul_comm (value : Int)]
    exact_mod_cast hworth
  rw [Int.mul_sub, Int.mul_sub, Int.mul_comm (shares : Int) value]
  omega

theorem Sound.settlement_le (hp : p.Sound) {poolValue shares : Amount} {s : Settlement}
    (hs : p.queue.settlement last poolValue shares = .ok s) :
    s.sharesToBurn.val ≤ p.totals.queuedShares.val ∧
      p.totals.queuedShares.val ≤ p.totals.totalShares.val := by
  obtain ⟨-, hlast, -, hshares, -⟩ := WithdrawalQueue.settlement_eq_ok hs
  have hsupply := hp.supply
  have hmono : p.queue.sharesUpTo (last.val + 1) ≤ p.queue.sharesUpTo p.queue.length :=
    hp.queue.sharesUpTo_mono hlast (Nat.le_refl _)
  refine ⟨?_, by omega⟩
  rw [hp.queued, WithdrawalQueue.waitingShares]
  omega

theorem Sound.planBatch_fails (hp : p.Sound) (hsupply : t.totalShares = p.totals.totalShares)
    (hqueued : t.queuedShares = p.totals.queuedShares) :
    FailsOnly NotUnderflow (p.planBatch t last balance) := by
  have hP := notUnderflow_allowsBatch
  unfold planBatch
  refine (WithdrawalQueue.settlement_fails hP hp.queue _ _ _).bind (fun s hs => ?_)
  obtain ⟨hbatch, hqueue⟩ := hp.settlement_le hs
  rw [← hqueued] at hbatch hqueue
  rw [← hsupply] at hqueue
  split
  · exact .error nofun
  · next hbuffer =>
    refine (neutralBurn_fails hP _ _ _).bind (fun burn hburn => ?_)
    have hburn : burn.val ≤ s.sharesToBurn.val :=
      (neutralBurn_eq_ok hburn).2 ▸ Nat.min_le_right _ _
    refine (Bounded.sub_fails (by omega)).bind (fun discount _ => ?_)
    refine (Bounded.fit_fails hP.overflow _).bind (fun funded _ => ?_)
    refine (WithdrawalQueue.checkFinalize_fails hP (fun _ _ _ => nofun)).bind (fun _ _ => ?_)
    refine FailsOnly.bind ?_ (fun _ _ => .pure _)
    refine (Bounded.sub_fails (by omega)).bind (fun buffered _ => ?_)
    refine (Bounded.sub_fails (by omega)).bind (fun queued _ => ?_)
    refine (Bounded.sub_fails (by omega)).bind (fun supply _ => ?_)
    exact (Bounded.fit_fails hP.overflow _).bind (fun pending _ => .pure _)

theorem PlansBatch.burnsNeutrally (hb : p.PlansBatch t t' last balance burn b) (hp : p.Sound)
    (hsupply : t.totalShares = p.totals.totalShares)
    (hqueued : t.queuedShares = p.totals.queuedShares) :
    ∃ discount, BurnsNeutrally t b.settlement burn discount ∧
      t'.pendingBurn.val = t.pendingBurn.val + discount.val := by
  obtain ⟨hbatch, hqueue⟩ := hp.settlement_le hb.settled
  rw [← hqueued] at hbatch hqueue
  rw [← hsupply] at hqueue
  obtain ⟨-, -, hshares, -⟩ := WithdrawalQueue.settlement_eq_ok hb.settled
  have hworth := hb.lock_mul_le
  have hburned : burn.val ≤ b.settlement.sharesToBurn.val := hb.neutral ▸ Nat.min_le_right _ _
  obtain ⟨discount, hdiscount⟩ := Bounded.exists_val
    (Nat.lt_of_le_of_lt (Nat.sub_le b.settlement.sharesToBurn.val burn.val)
      b.settlement.sharesToBurn.isLt)
  have hpending := hb.takes.pending
  have hrounding := rounding_of_burn hb.burn_eq
  have hrest := Nat.mod_lt (b.settlement.etherToLock.val * t.totalShares.val)
    (Nat.pos_of_ne_zero hb.valued)
  have hbought : Rate.sharesForValue ⟨t.poolValue.val, t.totalShares.val⟩
      b.settlement.etherToLock.val = .ok burn.val :=
    mulDiv_down_eq_ok_iff.2 ⟨hb.valued, Amount.mul_lt_productLimit _ _, hb.burn_eq⟩
  refine ⟨discount, ⟨?_, ⟨hbatch, hqueue⟩, hbought, neutralBurn_of_worth hshares hbought hburned,
    hburned, Bounded.sub_eq_ok_iff.2 (by omega), by omega, by omega, rate_without_batch hworth⟩,
    by omega⟩
  refine Nat.le_of_mul_le_mul_right ?_ (Nat.pos_of_ne_zero hshares)
  calc b.settlement.etherToLock.val * t.totalShares.val
    _ ≤ b.settlement.sharesToBurn.val * t.poolValue.val := hworth
    _ ≤ t.totalShares.val * t.poolValue.val := Nat.mul_le_mul_right _ (Nat.le_trans hbatch hqueue)
    _ = t.poolValue.val * t.totalShares.val := Nat.mul_comm ..

/-- A batch of a reachable pool, at whatever ether a report brings in before it: it locks no more
than there is, its shares that are worth just that are burned, and no subtraction fails. -/
theorem burned_neutrally {policy : PoolPolicy} (h : Reached policy p)
    (bufferedEther stakedEther : Amount) (last : Count) (balance : Amount) :
    let t : PoolTotals := { p.totals with bufferedEther, stakedEther }
    (∀ cause, p.planBatch t last balance = .error cause → cause ≠ .underflow) ∧
      ∀ b t', p.planBatch t last balance = .ok (b, t') →
        ∃ burn discount, BurnsNeutrally t b.settlement burn discount ∧
          t.totalShares.val = t'.totalShares.val + burn.val ∧
          t'.pendingBurn.val = t.pendingBurn.val + discount.val := by
  intro t
  refine ⟨h.sound.planBatch_fails rfl rfl, fun b t' hplan => ?_⟩
  obtain ⟨burn, hb⟩ := planBatch_eq_ok hplan
  obtain ⟨discount, hneutral, hpending⟩ := hb.burnsNeutrally h.sound rfl rfl
  exact ⟨burn, discount, hneutral, hb.takes.supply, hpending⟩

/-- Of 1000000 shares 400000 are withdrawn before a gain of 7 wei. -/
def discountedMoves : List Move :=
  [.run (.submit .zero 1000000),
    .run (.requestWithdrawal .zero 400000 Bounded.zero),
    .run (.report ⟨1, .ofInt 7, Bounded.zero, none, []⟩)]

/-- The 400000 wei they asked for are worth 399997 shares and a fifth of one. -/
theorem burned_neutrally_discounted :
    ∃ p, Reached .standard p ∧
      (∀ cause, p.planBatch p.totals 1 0 = .error cause → cause ≠ .underflow) ∧
      ∃ b t' burn discount, p.planBatch p.totals 0 0 = .ok (b, t') ∧
        BurnsNeutrally p.totals b.settlement burn discount ∧ burn.val = 399997 ∧
        discount.val = 3 ∧
        (p.totals.poolValue.val : Int) * (p.totals.totalShares.val - burn.val) -
          p.totals.totalShares.val * (p.totals.poolValue.val - b.settlement.etherToLock.val) =
            200021 := by
  have hreached : Reached .standard _ :=
    Reached.after (b := Books.fresh (initial .standard)) discountedMoves (.create rfl)
  generalize hp : ((Books.fresh (initial .standard)).after discountedMoves).pool = p at hreached
  obtain ⟨⟨b, t'⟩, hplan, hcheck⟩ := exists_ok_of_any (p.planBatch p.totals 0 0)
    (fun out => decide (p.totals.totalShares.val = out.2.totalShares.val + 399997 ∧
      out.2.pendingBurn.val = p.totals.pendingBurn.val + 3 ∧
      (p.totals.poolValue.val : Int) * (p.totals.totalShares.val - 399997) -
        p.totals.totalShares.val * (p.totals.poolValue.val - out.1.settlement.etherToLock.val) =
          200021))
    (by rw [← hp]; decide +kernel)
  simp only [decide_eq_true_eq] at hcheck
  obtain ⟨hsupply, hpending, hrate⟩ := hcheck
  have hmain := burned_neutrally hreached p.totals.bufferedEther p.totals.stakedEther
  obtain ⟨burn, discount, hneutral, hburn, hdiscount⟩ : ∃ burn discount,
      BurnsNeutrally p.totals b.settlement burn discount ∧
        p.totals.totalShares.val = t'.totalShares.val + burn.val ∧
          t'.pendingBurn.val = p.totals.pendingBurn.val + discount.val :=
    (hmain 0 0).2 b t' hplan
  have hburned : burn.val = 399997 := by omega
  refine ⟨p, hreached, (hmain 1 0).1, b, t', burn, discount, hplan, hneutral, hburned, by omega, ?_⟩
  rw [hburned]
  exact hrate

end Pool
end LiquidStaking

/-
What deposits do to a pool that has value and shares.

Every deposit buys the floor of what it is worth at the rate it finds, so the rate never falls, and
what a list of deposits buys is within what all of its ether buys at the first rate.  The floor of
the way back, at a rate after the deposit, takes no more out than came in.
-/
import LiquidStaking.Proofs.Pool.Ownership
import LiquidStaking.Proofs.Withdrawal.Obligations

namespace LiquidStaking

namespace Pool

/-- The rate of a pool that has shares. -/
def pair (p : Pool) : Rate := ⟨p.poolValue.val, p.totals.totalShares.val⟩

/-- Whether a pool has value and shares, so that a deposit is priced by its rate. -/
structure Open (p : Pool) : Prop where
  value : 0 < p.poolValue.val
  supply : 0 < p.totals.totalShares.val

/-- Deposit one after the other.  Answers what each of them buys. -/
def submitAll (p : Pool) : List (Address × Amount) → Except Fault (List Amount × Pool)
  | [] => .ok ([], p)
  | (sender, amount) :: rest => do
    let (shares, p) ← p.submit sender amount
    let (minted, p) ← p.submitAll rest
    return (shares :: minted, p)

variable {p p' : Pool}

theorem Open.rate (hp : p.Open) : p.rate = .ok p.pair :=
  Rate.ofAmounts_eq_ok (Nat.ne_of_gt hp.supply)

/-- What a deposit into an open pool brings and buys. -/
structure Deposits (p p' : Pool) (amount shares : Amount) : Prop where
  buffered : p'.totals.bufferedEther.val = p.totals.bufferedEther.val + amount.val
  staked : p'.totals.stakedEther = p.totals.stakedEther
  supply : p'.totals.totalShares.val = p.totals.totalShares.val + shares.val
  bought : shares.val = amount.val * p.totals.totalShares.val / p.poolValue.val

theorem Open.deposits (hp : p.Open) {sender : Address} {amount shares : Amount}
    (h : p.submit sender amount = .ok (shares, p')) : Deposits p p' amount shares := by
  obtain ⟨hbought, -, buffered, total, balance, hbuffered, htotal, -, rfl⟩ := submit_eq_ok h
  refine ⟨hbuffered, rfl, htotal, ?_⟩
  rcases sharesForDeposit_eq_ok hbought with ⟨hzero, -⟩ | hbought
  · exact absurd hzero (Nat.ne_of_gt hp.supply)
  · exact hbought

namespace Deposits

variable {amount shares : Amount}

theorem price (h : Deposits p p' amount shares) :
    shares.val * p.poolValue.val ≤ amount.val * p.totals.totalShares.val := by
  rw [h.bought]
  exact Nat.div_mul_le_self _ _

theorem opened (h : Deposits p p' amount shares) (hp : p.Open) : p'.Open := by
  have hvalue := hp.value
  have hsupply := hp.supply
  have hkept : p.poolValue.val ≤ p'.poolValue.val := by
    show min (p.totals.bufferedEther.val + p.totals.stakedEther.val) _ ≤
      min (p'.totals.bufferedEther.val + p'.totals.stakedEther.val) _
    rw [h.buffered, h.staked]
    omega
  exact ⟨by omega, by rw [h.supply]; omega⟩

theorem atMost (h : Deposits p p' amount shares)
    (hfits : p'.totals.bufferedEther.val + p'.totals.stakedEther.val < Bounded.bound 128) :
    p.pair.AtMost p'.pair := by
  have hbefore : p.poolValue.val ≤ p.totals.bufferedEther.val + p.totals.stakedEther.val :=
    poolValue_le p.totals
  have hafter : p'.poolValue.val = p'.totals.bufferedEther.val + p'.totals.stakedEther.val :=
    poolValue_of_fits hfits
  have hgrown : p.poolValue.val + amount.val ≤ p'.poolValue.val := by
    rw [hafter, h.buffered, h.staked]
    omega
  show p.poolValue.val * p'.totals.totalShares.val ≤
    p'.poolValue.val * p.totals.totalShares.val
  refine Nat.le_trans ?_ (Nat.mul_le_mul_right _ hgrown)
  rw [h.supply, Nat.mul_add, Nat.add_mul, Nat.mul_comm p.poolValue.val shares.val]
  exact Nat.add_le_add_left h.price _

end Deposits

/- Deposits one after the other. -/

variable {deposits : List (Address × Amount)} {minted : List Amount}

theorem submitAll_cons_eq_ok {d : Address × Amount}
    (h : p.submitAll (d :: deposits) = .ok (minted, p')) :
    ∃ shares next bought, p.submit d.1 d.2 = .ok (shares, next) ∧
      next.submitAll deposits = .ok (bought, p') ∧ minted = shares :: bought := by
  obtain ⟨⟨shares, next⟩, hfirst, h⟩ := bind_eq_ok.1 h
  obtain ⟨⟨bought, last⟩, hrest, h⟩ := bind_eq_ok.1 h
  cases pure_eq_ok.1 h
  exact ⟨shares, next, bought, hfirst, hrest, rfl⟩

theorem submitAll_append_eq_ok : ∀ (earlier : List (Address × Amount))
    {later : List (Address × Amount)} {p : Pool} {minted : List Amount},
    p.submitAll (earlier ++ later) = .ok (minted, p') →
      ∃ bought mid rest, p.submitAll earlier = .ok (bought, mid) ∧
        mid.submitAll later = .ok (rest, p') ∧ minted = bought ++ rest
  | [], _, p, minted, h => ⟨[], p, minted, rfl, h, rfl⟩
  | d :: earlier, later, p, minted, h => by
    obtain ⟨shares, next, others, hfirst, hothers, rfl⟩ := submitAll_cons_eq_ok h
    obtain ⟨bought, mid, rest, hearlier, hlater, rfl⟩ := submitAll_append_eq_ok earlier hothers
    refine ⟨shares :: bought, mid, rest, ?_, hlater, rfl⟩
    show (p.submit d.1 d.2 >>= fun (shares, p) => p.submitAll earlier >>= fun (minted, p) =>
      pure (shares :: minted, p)) = _
    rw [hfirst, ok_bind]
    simp only [hearlier, ok_bind]
    rfl

/-- What a list of deposits brings and buys.  Ether only comes in, so what fits at the end fits
throughout. -/
structure DepositsAll (p p' : Pool) (deposits : List (Address × Amount)) (minted : List Amount) :
    Prop where
  opened : p'.Open
  ether : p'.totals.bufferedEther.val + p'.totals.stakedEther.val =
    p.totals.bufferedEther.val + p.totals.stakedEther.val + Bounded.total (deposits.map (·.2))
  atMost : p'.totals.bufferedEther.val + p'.totals.stakedEther.val < Bounded.bound 128 →
    p.pair.AtMost p'.pair
  price : p'.totals.bufferedEther.val + p'.totals.stakedEther.val < Bounded.bound 128 →
    Bounded.total minted * p.poolValue.val ≤
      Bounded.total (deposits.map (·.2)) * p.totals.totalShares.val

theorem Open.depositsAll : ∀ {deposits : List (Address × Amount)} {p : Pool}
    {minted : List Amount}, p.Open → p.submitAll deposits = .ok (minted, p') →
      DepositsAll p p' deposits minted
  | [], p, minted, hp, h => by
    cases h
    refine ⟨hp, rfl, fun _ => .refl _, fun _ => ?_⟩
    rw [Bounded.total_nil, Nat.zero_mul]
    exact Nat.zero_le _
  | d :: deposits, p, minted, hp, h => by
    obtain ⟨shares, next, bought, hfirst, hrest, rfl⟩ := submitAll_cons_eq_ok h
    have hd := hp.deposits hfirst
    have hopen := hd.opened hp
    have hall := hopen.depositsAll hrest
    have hbuffered := hd.buffered
    have hstaked := congrArg Bounded.val hd.staked
    have hether := hall.ether
    have hstep : p'.totals.bufferedEther.val + p'.totals.stakedEther.val < Bounded.bound 128 →
        p.pair.AtMost next.pair := fun hfits => hd.atMost (by omega)
    refine ⟨hall.opened, ?_, fun hfits => ?_, fun hfits => ?_⟩
    · rw [List.map_cons, Bounded.total_cons]
      omega
    · exact (hstep hfits).trans (hall.atMost hfits) hopen.supply
    · have hlater : Bounded.total bought * p.poolValue.val ≤
          Bounded.total (deposits.map (·.2)) * p.totals.totalShares.val :=
        (hstep hfits).buys hopen.value (hall.price hfits)
      rw [List.map_cons, Bounded.total_cons, Bounded.total_cons, Nat.add_mul, Nat.add_mul]
      exact Nat.add_le_add hd.price hlater

theorem etherOf_of_requestWithdrawal {owner : Address} {shares : Amount} {block id : Count}
    (h : p.requestWithdrawal owner shares block = .ok (id, p')) :
    p'.queue.etherOf id.val =
      shares.val * p.poolValue.val / p.totals.totalShares.val := by
  obtain ⟨_, ether, _, queue, -, hether, -, hqueue, rfl⟩ := requestWithdrawal_eq_ok h
  exact (WithdrawalQueue.etherOf_enqueue hqueue).trans hether

/-- Shares that were just bought are worth no more than what was paid for them. -/
theorem Open.round_trip (hp : p.Open) {sender owner : Address} {amount shares : Amount}
    {taken queued : Pool} {block id : Count}
    (hsubmit : p.submit sender amount = .ok (shares, taken))
    (hrequest : taken.requestWithdrawal owner shares block = .ok (id, queued)) :
    queued.queue.etherOf id.val ≤ amount.val := by
  have howned : p.Owned := fun _ => hp.supply
  have hworth := howned.fairDeposits sender amount shares taken hsubmit
  rw [etherOf_of_requestWithdrawal hrequest]
  exact Nat.div_le_of_le_mul (Nat.mul_comm amount.val _ ▸ hworth)

/-- Deposits extract no value.  Into a pool with value and shares, none of them lowers the rate,
all of them together buy no more than their ether buys in one deposit, and shares that are withdrawn
as soon as they are bought ask for no more than was paid. -/
theorem deposits_extract_nothing (hp : p.Open)
    (hfits : p'.totals.bufferedEther.val + p'.totals.stakedEther.val < Bounded.bound 128)
    (h : p.submitAll deposits = .ok (minted, p')) :
    (∀ earlier d later, deposits = earlier ++ d :: later →
      ∃ bought before shares after, p.submitAll earlier = .ok (bought, before) ∧
        before.submit d.1 d.2 = .ok (shares, after) ∧ before.rate = .ok before.pair ∧
        after.rate = .ok after.pair ∧ before.pair.AtMost after.pair) ∧
    Bounded.total minted ≤
      Bounded.total (deposits.map (·.2)) * p.totals.totalShares.val / p.poolValue.val ∧
    (∃ whole : Amount, whole.val = Bounded.total (deposits.map (·.2)) ∧
      ∀ sender once single, p.submit sender whole = .ok (once, single) →
        Bounded.total minted ≤ once.val) ∧
    ∀ sender amount shares taken owner block id queued,
      p'.submit sender amount = .ok (shares, taken) →
        taken.requestWithdrawal owner shares block = .ok (id, queued) →
          queued.queue.etherOf id.val ≤ amount.val := by
  have hall := hp.depositsAll h
  have hether := hall.ether
  have hbought := (Nat.le_div_iff_mul_le hp.value).2 (hall.price hfits)
  refine ⟨?_, hbought, ?_, ?_⟩
  · rintro earlier d later rfl
    obtain ⟨bought, before, rest, hearlier, hlater, -⟩ := submitAll_append_eq_ok earlier h
    obtain ⟨shares, after, others, hd, hothers, -⟩ := submitAll_cons_eq_ok hlater
    have hbefore := (hp.depositsAll hearlier).opened
    have hstep := hbefore.deposits hd
    have hafter := hstep.opened hbefore
    have hrest := (hafter.depositsAll hothers).ether
    exact ⟨bought, before, shares, after, hearlier, hd, hbefore.rate, hafter.rate,
      hstep.atMost (by omega)⟩
  · obtain ⟨whole, hwhole⟩ :=
      Bounded.exists_val (Nat.lt_of_le_of_lt (Nat.le_add_left _ _) (hether ▸ hfits))
    refine ⟨whole, hwhole, fun sender once single hsingle => ?_⟩
    rw [(hp.deposits hsingle).bought, hwhole]
    exact hbought
  · intro sender amount shares taken owner block id queued hsubmit hrequest
    exact hall.opened.round_trip hsubmit hrequest

/-- A pool that gained half of its first deposit. -/
def gained : Pool :=
  ((Books.fresh (initial .standard)).after
    [.run (.submit .zero 1000), .run (.report ⟨1, .ofInt 500, Bounded.zero, none, []⟩)]).pool

def unevenDeposits : List (Address × Amount) :=
  [(.zero, 1000), (Address.ofCount 1, 100), (Address.ofCount 2, 7)]

/-- At 1500 wei over 1000 shares, deposits of 1107 wei buy 736 shares where one would buy 738.  Of
1000 wei that come after them, a withdrawal asks for 999. -/
theorem deposits_extract_nothing_uneven :
    Reached .standard gained ∧ gained.pair = ⟨1500, 1000⟩ ∧
      ∃ minted p', gained.submitAll unevenDeposits = .ok (minted, p') ∧
        Bounded.total minted = 736 ∧ 736 ≤ 1107 * 1000 / 1500 ∧ gained.pair.AtMost p'.pair ∧
        ∃ shares taken id queued, p'.submit .zero 1000 = .ok (shares, taken) ∧
          taken.requestWithdrawal .zero shares Bounded.zero = .ok (id, queued) ∧
          queued.queue.etherOf id.val = 999 ∧ queued.queue.etherOf id.val ≤ 1000 := by
  have hopen : gained.Open := ⟨by decide +kernel, by decide +kernel⟩
  obtain ⟨⟨minted, p'⟩, hall, hcheck⟩ := exists_ok_of_any (gained.submitAll unevenDeposits)
    (fun out => decide (Bounded.total out.1 = 736 ∧ gained.pair.AtMost out.2.pair ∧
      out.2.totals.bufferedEther.val + out.2.totals.stakedEther.val < Bounded.bound 128) &&
      (out.2.submit .zero 1000).toOption.any (fun bought =>
        (bought.2.requestWithdrawal .zero bought.1 Bounded.zero).toOption.any (fun asked =>
          asked.2.queue.etherOf asked.1.val == 999))) (by decide +kernel)
  simp only [Bool.and_eq_true, decide_eq_true_eq] at hcheck
  obtain ⟨⟨hminted, hrate, hfits⟩, hcheck⟩ := hcheck
  obtain ⟨⟨shares, taken⟩, hsubmit, hcheck⟩ := exists_ok_of_any _ _ hcheck
  obtain ⟨⟨id, queued⟩, hrequest, hether⟩ := exists_ok_of_any _ _ hcheck
  obtain ⟨-, hbought, -, hworth⟩ := deposits_extract_nothing hopen hfits hall
  refine ⟨reached_of_moves rfl _, by decide +kernel, minted, p', hall, hminted,
    hminted ▸ hbought, hrate, shares, taken, id, queued, hsubmit, hrequest, ?_, ?_⟩
  · exact beq_iff_eq.1 hether
  · exact hworth _ _ _ _ _ _ _ _ hsubmit hrequest

end Pool
end LiquidStaking

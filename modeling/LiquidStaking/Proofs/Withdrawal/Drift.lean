/-
How far the rate a request is paid at is from the rate it was settled at.

A batch whose integer price is that of the last run joins the run and is paid at the rate the run
began with.  Batches are compared with that rate and never with one that joined before, so however
many of them join, the rate paid and the rate settled at have one integer price.  On no more shares
than the price is for, such rates agree within a wei.
-/
import LiquidStaking.Proofs.Withdrawal.Payments

namespace LiquidStaking

namespace Rate

/-- Whether two rates have one integer price. -/
def SamePrice (a b : Rate) : Prop :=
  a.poolValue * priceBase / a.shares = b.poolValue * priceBase / b.shares

theorem SamePrice.symm {a b : Rate} (h : a.SamePrice b) : b.SamePrice a := Eq.symm h

/-- Rates of one integer price agree within a wei on as many shares as the price is for. -/
theorem SamePrice.value_le {a b : Rate} (h : a.SamePrice b) (ha : a.shares ≠ 0)
    (hb : b.shares ≠ 0) {n : Nat} (hn : n ≤ priceBase) :
    n * a.poolValue / a.shares ≤ n * b.poolValue / b.shares + 1 := by
  have hapos : 0 < a.shares := Nat.pos_of_ne_zero ha
  have hbpos : 0 < b.shares := Nat.pos_of_ne_zero hb
  generalize hprice : b.poolValue * priceBase / b.shares = price
  generalize hvalue : n * b.poolValue / b.shares = value
  have habove : a.poolValue * priceBase < (price + 1) * a.shares :=
    Nat.lt_mul_of_div_lt (Nat.lt_succ_of_le (Nat.le_of_eq (h.trans hprice))) hapos
  have hbelow : price * b.shares ≤ b.poolValue * priceBase := hprice ▸ Nat.div_mul_le_self _ _
  have hworth : n * b.poolValue < (value + 1) * b.shares :=
    Nat.lt_mul_of_div_lt (Nat.lt_succ_of_le (Nat.le_of_eq hvalue)) hbpos
  -- At the integer price alone the shares are already worth less than one more wei.
  have hfloor : n * price < (value + 1) * priceBase := by
    refine Nat.lt_of_mul_lt_mul_right (a := b.shares) ?_
    calc n * price * b.shares
      _ = n * (price * b.shares) := Nat.mul_assoc _ _ _
      _ ≤ n * (b.poolValue * priceBase) := Nat.mul_le_mul_left _ hbelow
      _ = n * b.poolValue * priceBase := (Nat.mul_assoc _ _ _).symm
      _ < (value + 1) * b.shares * priceBase :=
        Nat.mul_lt_mul_of_pos_right hworth (by decide)
      _ = (value + 1) * priceBase * b.shares := Nat.mul_right_comm _ _ _
  have hnext : n * (price + 1) < (value + 2) * priceBase := by
    rw [Nat.mul_succ, Nat.succ_mul]
    omega
  refine Nat.le_of_lt_succ ((Nat.div_lt_iff_lt_mul hapos).2 ?_)
  refine Nat.lt_of_mul_lt_mul_right (a := priceBase) ?_
  calc n * a.poolValue * priceBase
    _ = n * (a.poolValue * priceBase) := Nat.mul_assoc _ _ _
    _ ≤ n * ((price + 1) * a.shares) := Nat.mul_le_mul_left _ (Nat.le_of_lt habove)
    _ = n * (price + 1) * a.shares := (Nat.mul_assoc _ _ _).symm
    _ < (value + 2) * priceBase * a.shares := Nat.mul_lt_mul_of_pos_right hnext hapos
    _ = (value + 2) * a.shares * priceBase := Nat.mul_right_comm _ _ _

end Rate

theorem PriceRun.samePrice {a b : PriceRun} (h : a.price = b.price) (hb : b.shares.val ≠ 0) :
    a.pair.SamePrice b.pair :=
  (PriceRun.price_eq_ok_iff.1 (h.trans (PriceRun.price_eq_ok_iff.2 ⟨hb, rfl⟩))).2.symm

namespace WithdrawalQueue

variable {q q' : WithdrawalQueue}

theorem worth_le_of_samePrice {a b : Rate} (h : a.SamePrice b) (ha : a.shares ≠ 0)
    (hb : b.shares ≠ 0) {id : Nat} (hshares : q.sharesOf id ≤ priceBase) :
    q.worth id a ≤ q.worth id b + 1 := by
  have hvalue := h.value_le ha hb hshares
  unfold worth
  omega

/-- A request that a batch finalizes is priced at a rate of the batch's integer price. -/
theorem samePrice_of_finalize (hv : q.Valid) {last : Count}
    {lock poolValue shares balance : Amount}
    (h : q.finalize last lock poolValue shares balance = .ok q') {id : Nat}
    (hopen : q.finalizedCount.val ≤ id) (hfinal : id < q'.finalizedCount.val) :
    ∃ rate, q'.prices.rateFor id = some rate ∧ rate.SamePrice ⟨poolValue.val, shares.val⟩ := by
  obtain ⟨-, -, hne, -, -, hcount, -, -, hprices⟩ := finalize_eq_ok h
  rw [hcount] at hfinal
  obtain ⟨run, hrate, hrun⟩ :=
    hv.priced.rateFor_record_of_ge hprices hopen (Nat.le_of_lt_succ hfinal)
  have hprice : run.price = PriceRun.price ⟨poolValue, shares, last⟩ := by
    rcases hrun with rfl | ⟨-, hprice⟩
    · rfl
    · exact hprice
  have hsame : run.pair.SamePrice (PriceRun.pair ⟨poolValue, shares, last⟩) :=
    PriceRun.samePrice hprice hne
  exact ⟨run.pair, hrate, hsame⟩

/-- Whether a claim is paid from entry `index` of the prices, which holds `run`, and what it is paid
there is within a wei of what the request is worth at `batch`. -/
structure PaidNear (q : WithdrawalQueue) (id : Count) (hint : Option Nat) (batch : Rate)
    (index : Nat) (run : PriceRun) : Prop where
  found : q.priceIndex id hint = .ok index
  entry : q.prices.runs[index]? = some run
  priced : run.shares.val ≠ 0 ∧ batch.shares ≠ 0
  payout : ∀ paid, q.payout id index = .ok paid ↔
    q.sharesOf id.val * run.poolValue.val / run.shares.val < Bounded.bound 128 ∧
      paid.val = q.worth id.val run.pair
  paid_le : q.worth id.val run.pair ≤ q.worth id.val batch + 1
  le_paid : q.worth id.val batch ≤ q.worth id.val run.pair + 1

theorem Valid.paidNear (hv : q.Valid) {id : Count} (hfinal : id.val < q.finalizedCount.val)
    (hshares : q.sharesOf id.val ≤ priceBase) {rate batch : Rate}
    (hrate : q.prices.rateFor id.val = some rate) (hprice : rate.SamePrice batch)
    (hbatch : batch.shares ≠ 0) (hint : Option Nat) :
    ∃ index run, q.PaidNear id hint batch index run := by
  have hpayout := fun paid => hv.payout_eq_ok_iff hfinal hrate (a := paid)
  rw [PriceHistory.rateFor_eq_covering] at hrate
  obtain ⟨run, hrun, rfl⟩ := Option.map_eq_some_iff.1 hrate
  have hpriced : run.shares.val ≠ 0 := hv.priced.priced run (List.mem_of_getElem? hrun)
  exact ⟨q.prices.covering id.val, run,
    { found := hv.priceIndex_eq hfinal hint
      entry := hrun
      priced := ⟨hpriced, hbatch⟩
      payout := hpayout
      paid_le := worth_le_of_samePrice hprice hpriced hbatch hshares
      le_paid := worth_le_of_samePrice hprice.symm hbatch hpriced hshares }⟩

end WithdrawalQueue

namespace WithdrawalDesk

/-- The rate a move finalizes at. -/
def Move.rate : Move → Option Rate
  | .finalize _ _ poolValue shares _ => some ⟨poolValue.val, shares.val⟩
  | _ => none

/-- The rate of the batch that finalizes a request in a run, if one does. -/
def settledAt (d : WithdrawalDesk) (id : Nat) : List Move → Option Rate
  | [] => none
  | m :: rest =>
    if d.queue.finalizedCount.val ≤ id ∧ id < (d.move m).queue.finalizedCount.val then m.rate
    else settledAt (d.move m) id rest

variable {d : WithdrawalDesk} {id : Nat}

theorem finalizedCount_move {m : Move} (h : m.rate = none) :
    (d.move m).queue.finalizedCount = d.queue.finalizedCount := by
  cases m with
  | enqueue recipient ether shares block =>
    cases hq : d.queue.enqueue recipient ether shares block with
    | error cause => simp only [move, hq]
    | ok out =>
      obtain ⟨-, -, -, -, e, s, -, -, hout⟩ := WithdrawalQueue.enqueue_eq_ok_iff.1 hq
      simp only [move, hq, hout]
  | finalize last lock poolValue shares balance => cases h
  | claim request hint =>
    show (d.claim request hint).2.queue.finalizedCount = _
    rcases d.claim_cases request hint with ⟨cause, h⟩ | ⟨receipt, queue, escrow, hok, h⟩
    · rw [h]
    · obtain ⟨-, -, locked, -, -, -, -, -, -, -, -, -, rfl⟩ :=
        WithdrawalQueue.claim_eq_ok_iff.1 hok
      rw [h]
  | escrow change => rfl

theorem samePrice_of_move (hv : d.queue.Valid) {m : Move}
    (hopen : d.queue.finalizedCount.val ≤ id)
    (hfinal : id < (d.move m).queue.finalizedCount.val) :
    ∃ rate batch, m.rate = some batch ∧ batch.shares ≠ 0 ∧
      (d.move m).queue.prices.rateFor id = some rate ∧ rate.SamePrice batch := by
  have hmoved : (d.move m).queue.finalizedCount ≠ d.queue.finalizedCount := by
    intro hsame
    rw [hsame] at hfinal
    exact Nat.not_lt.2 hopen hfinal
  cases m with
  | enqueue => exact absurd (finalizedCount_move rfl) hmoved
  | claim => exact absurd (finalizedCount_move rfl) hmoved
  | escrow => exact absurd (finalizedCount_move rfl) hmoved
  | finalize last lock poolValue shares balance =>
    cases h : d.queue.finalize last lock poolValue shares balance with
    | error cause =>
      refine absurd ?_ hmoved
      simp only [move, h]
    | ok queue =>
      have hmove : d.move (.finalize last lock poolValue shares balance) = { d with queue } := by
        simp only [move, h]
      rw [hmove] at hfinal ⊢
      obtain ⟨rate, hrate, hprice⟩ :=
        WithdrawalQueue.samePrice_of_finalize hv h hopen hfinal
      obtain ⟨-, -, hne, -⟩ := WithdrawalQueue.finalize_eq_ok h
      exact ⟨rate, _, rfl, hne, hrate, hprice⟩

theorem rateFor_after (moves : List Move) (hv : d.queue.Valid)
    (hid : id < d.queue.finalizedCount.val) :
    (d.after moves).queue.prices.rateFor id = d.queue.prices.rateFor id := by
  have hkept := queue_after
    (P := fun q => q.Valid ∧ id < q.finalizedCount.val ∧
      q.prices.rateFor id = d.queue.prices.rateFor id)
    (fun ⟨hv, hid, hrate⟩ h => ⟨hv.changes h, Nat.lt_of_lt_of_le hid h.finalizedCount_le,
      (h.rateFor_eq hv hid).trans hrate⟩)
    moves ⟨hv, hid, rfl⟩
  exact hkept.2.2

theorem samePrice_after : ∀ (moves : List Move) {d : WithdrawalDesk}, d.queue.Valid →
    d.queue.finalizedCount.val ≤ id → id < (d.after moves).queue.finalizedCount.val →
      ∃ rate batch, d.settledAt id moves = some batch ∧ batch.shares ≠ 0 ∧
        (d.after moves).queue.prices.rateFor id = some rate ∧ rate.SamePrice batch
  | [], _, _, hopen, hfinal => absurd hfinal (Nat.not_lt.2 hopen)
  | m :: rest, d, hv, hopen, hfinal => by
    have hv' : (d.move m).queue.Valid := by
      rcases d.queue_move m with hsame | hchange
      · exact hsame ▸ hv
      · exact hv.changes hchange
    rw [settledAt]
    by_cases hnow : id < (d.move m).queue.finalizedCount.val
    · obtain ⟨rate, batch, hbatch, hne, hrate, hprice⟩ := samePrice_of_move hv hopen hnow
      rw [if_pos ⟨hopen, hnow⟩]
      exact ⟨rate, batch, hbatch, hne, (rateFor_after rest hv' hnow).trans hrate, hprice⟩
    · rw [if_neg (fun h => hnow h.2)]
      exact samePrice_after rest hv' (Nat.not_lt.1 hnow) hfinal

/-- However many batches joined the run a claim is paid from, a request of at most a whole price's
shares is paid what it was worth at the rate of its own batch, within a wei. -/
theorem drift_at_most_one (limits : WithdrawalLimits) (escrow : Escrow) (moves : List Move)
    (id : Count) (hint : Option Nat)
    (hfinal : id.val < ((opened limits escrow).after moves).queue.finalizedCount.val)
    (hshares : ((opened limits escrow).after moves).queue.sharesOf id.val ≤ priceBase) :
    ∃ batch index run, (opened limits escrow).settledAt id.val moves = some batch ∧
      ((opened limits escrow).after moves).queue.PaidNear id hint batch index run := by
  obtain ⟨rate, batch, hbatch, hne, hrate, hprice⟩ := samePrice_after moves
    (d := opened limits escrow) (WithdrawalQueue.create_valid limits) (Nat.zero_le _) hfinal
  obtain ⟨index, run, hpaid⟩ :=
    (valid_after limits escrow moves).paidNear hfinal hshares hrate hprice hne hint
  exact ⟨batch, index, run, hbatch, hpaid⟩

/-- Three requests for 100 wei with 300 shares each.  The first is settled at a third, and so is the
last; the second is settled just below a third, and joins the run all the same. -/
def joiningMoves : List Move :=
  [.enqueue .zero 100 300 Bounded.zero, .enqueue .zero 100 300 Bounded.zero,
    .enqueue .zero 100 300 Bounded.zero, .finalize Bounded.zero 100 1 3 300,
    .finalize 1 99 333333333333333333333333333 1000000000000000000000000000 300,
    .finalize 2 100 2 6 300]

theorem drift_at_most_one_joining :
    (∃ batch index run, (opened ⟨Bounded.zero, 1000⟩ (.ofBalance 300)).settledAt 1 joiningMoves =
        some batch ∧
      ((opened ⟨Bounded.zero, 1000⟩ (.ofBalance 300)).after joiningMoves).queue.PaidNear 1 none
        batch index run) ∧
      ((opened ⟨Bounded.zero, 1000⟩ (.ofBalance 300)).after joiningMoves).queue.prices.runs =
        [⟨1, 3, 2⟩] ∧
      ((opened ⟨Bounded.zero, 1000⟩ (.ofBalance 300)).after joiningMoves).queue.payout 1 0 =
        .ok 100 ∧
      ((opened ⟨Bounded.zero, 1000⟩ (.ofBalance 300)).after joiningMoves).queue.worth 1
        ⟨333333333333333333333333333, 1000000000000000000000000000⟩ = 99 :=
  ⟨drift_at_most_one ⟨Bounded.zero, 1000⟩ (.ofBalance 300) joiningMoves 1 none
      (by decide +kernel) (by decide +kernel),
    by decide +kernel, by decide +kernel, by decide +kernel⟩

end WithdrawalDesk
end LiquidStaking

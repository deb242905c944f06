/-
One batch finalized in parts.

The parts settle at the rate of the whole batch, each for what its own settlement asks for at its
turn.  They leave the queue the whole batch leaves, with at most as much locked: the first part
starts a run or joins one just when the batch does, later parts join that run, and floors of parts
never add up to more than the floor of the whole.
-/
import LiquidStaking.Proofs.Withdrawal.Residue

namespace LiquidStaking

theorem PriceRun.price_extend (r : PriceRun) (last : Count) : { r with last }.price = r.price := rfl

/-- A batch recorded in two parts of one rate leaves what the whole batch leaves. -/
theorem PriceHistory.record_split {h h₁ h₂ whole : PriceHistory} {next last : Count}
    {poolValue shares : Amount} (e₁ : h.record next poolValue shares = .ok h₁)
    (e₂ : h₁.record last poolValue shares = .ok h₂)
    (e : h.record last poolValue shares = .ok whole) : h₂ = whole := by
  have hprice : PriceRun.price ⟨poolValue, shares, next⟩ =
      PriceRun.price ⟨poolValue, shares, last⟩ := rfl
  -- The run the first part ends is the run the second part joins.
  have hjoin : ∀ {rs : List PriceRun} {r : PriceRun}, h₁.runs = rs ++ [r] →
      r.price = PriceRun.price ⟨poolValue, shares, last⟩ → h₂.runs = rs ++ [{ r with last }] := by
    intro rs r hruns hr
    obtain ⟨-, -, ⟨-, hdiffer⟩ | ⟨rs', r', hold, hnew, -⟩⟩ := record_eq_ok e₂
    · exact absurd hr (hdiffer r (by rw [hruns, List.getLast?_concat]; rfl))
    · obtain ⟨rfl, hlast⟩ := List.append_inj' (hold.symm.trans hruns) rfl
      rw [hnew, (List.cons.inj hlast).1]
  have hruns : h₂.runs = whole.runs := by
    obtain ⟨-, -, ⟨hruns, hdiffer⟩ | ⟨rs, r, hold, hruns, hsame⟩⟩ := record_eq_ok e₁
    · rw [hjoin hruns hprice]
      obtain ⟨-, -, ⟨hwhole, -⟩ | ⟨rs, r, hold, -, hsame⟩⟩ := record_eq_ok e
      · exact hwhole.symm
      · exact absurd hsame (hdiffer r (by rw [hold, List.getLast?_concat]; rfl))
    · rw [hjoin hruns ((r.price_extend next).trans (hsame.trans hprice))]
      obtain ⟨-, -, ⟨-, hdiffer⟩ | ⟨rs', r', hold', hwhole, -⟩⟩ := record_eq_ok e
      · exact absurd (hsame.trans hprice) (hdiffer r (by rw [hold, List.getLast?_concat]; rfl))
      · obtain ⟨rfl, hlast⟩ := List.append_inj' (hold'.symm.trans hold) rfl
        rw [hwhole, (List.cons.inj hlast).1]
  cases h₂
  cases whole
  exact congrArg PriceHistory.mk hruns

namespace WithdrawalQueue

open Finset

variable {q q' whole : WithdrawalQueue} {last next : Count}
  {lock poolValue shares balance balance' : Amount} {s s' : Settlement}

/-- The escrow decides whether a batch is finalized, and nothing of what that leaves. -/
theorem finalize_of_balance (h : q.finalize last lock poolValue shares balance = .ok q')
    (hb : q.totalLocked.val + lock.val ≤ balance'.val) :
    q.finalize last lock poolValue shares balance' = .ok q' := by
  unfold finalize at h ⊢
  simp only [bind_eq_ok, lift_eq_ok] at h
  obtain ⟨locked, hcheck, h⟩ := h
  obtain ⟨hfirst, hlast, hlocked, -, hs⟩ := checkFinalize_eq_ok_iff.1 hcheck
  have hcheck' : q.checkFinalize last lock poolValue shares balance' = .ok locked :=
    checkFinalize_eq_ok_iff.2 ⟨hfirst, hlast, hlocked, hlocked ▸ hb, hs⟩
  simp only [bind_eq_ok, lift_eq_ok]
  exact ⟨locked, hcheck', h⟩

theorem Valid.exists_settlement_of_le (hv : q.Valid) (hfirst : q.finalizedCount.val ≤ last.val)
    (hlast : last.val < q.length) (hs : shares.val ≠ 0) {burn : Nat}
    (hpart : q.sharesUpTo (last.val + 1) - q.sharesUpTo q.finalizedCount.val ≤ burn)
    (hfits : burn * poolValue.val / shares.val < Bounded.bound 128) :
    ∃ s, q.settlement last poolValue shares = .ok s :=
  hv.exists_settlement hfirst hlast hs
    (Nat.lt_of_le_of_lt (Nat.div_le_div_right (Nat.mul_le_mul_right _ hpart)) hfits)

theorem Valid.exists_settlement_part (hv : q.Valid)
    (hs : q.settlement last poolValue shares = .ok s)
    (hfirst : q.finalizedCount.val ≤ next.val) (hnext : next.val ≤ last.val) :
    ∃ s', q.settlement next poolValue shares = .ok s' := by
  obtain ⟨-, hlast, hne, hburn, hfits, -⟩ := settlement_eq_ok hs
  have hmono : q.sharesUpTo (next.val + 1) ≤ q.sharesUpTo (last.val + 1) :=
    hv.sharesUpTo_mono (Nat.succ_le_succ hnext) hlast
  exact hv.exists_settlement_of_le hfirst (Nat.lt_of_le_of_lt hnext hlast) hne (by omega) hfits

theorem Valid.exists_settlement_rest (hv : q.Valid)
    (hs : q.settlement last poolValue shares = .ok s) (hnext : next.val < last.val)
    (h : q.finalize next lock poolValue shares balance = .ok q') :
    ∃ rest, q'.settlement last poolValue shares = .ok rest := by
  obtain ⟨hfirst, hlast', -, hreq, -, hcount, -, -, -⟩ := finalize_eq_ok h
  obtain ⟨-, hlast, hne, hburn, hfits, -⟩ := settlement_eq_ok hs
  have hsums : ∀ n, q'.sharesUpTo n = q.sharesUpTo n := fun n => (upTo_of_requests hreq n).2
  have hmono : q.sharesUpTo q.finalizedCount.val ≤ q.sharesUpTo (next.val + 1) :=
    hv.sharesUpTo_mono (Nat.le_succ_of_le hfirst) hlast'
  have hlength : q'.length = q.length := congrArg List.length hreq
  refine (hv.finalize h).exists_settlement_of_le (hcount ▸ hnext) (hlength ▸ hlast) hne ?_ hfits
  rw [hcount, hsums, hsums]
  omega

theorem settlement_add_le (hs : q.settlement last poolValue shares = .ok s)
    (hnext : q.settlement next poolValue shares = .ok s') (hreq : q'.requests = q.requests)
    (hcount : q'.finalizedCount.val = next.val + 1) {rest : Settlement}
    (hrest : q'.settlement last poolValue shares = .ok rest) :
    s'.etherToLock.val + rest.etherToLock.val ≤ s.etherToLock.val := by
  have hsums := upTo_of_requests hreq
  obtain ⟨-, -, -, hburn, -, ether, hether, hlock⟩ := settlement_eq_ok hs
  obtain ⟨-, -, -, hburn', -, ether', hether', hlock'⟩ := settlement_eq_ok hnext
  obtain ⟨-, -, -, hburnRest, -, etherRest, hetherRest, hlockRest⟩ := settlement_eq_ok hrest
  rw [hcount, (hsums _).1, (hsums _).1] at hetherRest
  rw [hcount, (hsums _).2, (hsums _).2] at hburnRest
  have hsum := Rate.discount_add_le ⟨poolValue.val, shares.val⟩ ether' etherRest
    s'.sharesToBurn.val rest.sharesToBurn.val
  have hasked : ether' + etherRest = ether := by omega
  have hburnt : s'.sharesToBurn.val + rest.sharesToBurn.val = s.sharesToBurn.val := by omega
  rw [hasked, hburnt] at hsum
  rw [hlock, hlock', hlockRest]
  exact hsum

/-- A queue is another but for what is locked once the rest agrees. -/
theorem eq_but_locked (hreq : q.requests = q'.requests) (hprices : q.prices = q'.prices)
    (hcount : q.finalizedCount = q'.finalizedCount) (hlimits : q.limits = q'.limits) :
    q = { q' with totalLocked := q.totalLocked } := by
  cases q
  cases q'
  cases hreq
  cases hprices
  cases hcount
  cases hlimits
  rfl

/-- Once its first part is finalized, the rest of a batch can be, and leaves what the whole batch
leaves but for what is locked. -/
theorem Valid.finalize_rest (hv : q.Valid) (hs : q.settlement last poolValue shares = .ok s)
    (h : q.finalize last s.etherToLock poolValue shares balance = .ok whole)
    (hnext : next.val < last.val) (hs' : q.settlement next poolValue shares = .ok s')
    (h' : q.finalize next s'.etherToLock poolValue shares balance' = .ok q') :
    ∃ rest done, q'.settlement last poolValue shares = .ok rest ∧
      q'.finalize last rest.etherToLock poolValue shares balance = .ok done ∧
      done = { whole with totalLocked := done.totalLocked } ∧
      s'.etherToLock.val + rest.etherToLock.val ≤ s.etherToLock.val := by
  obtain ⟨rest, hrest⟩ := hv.exists_settlement_rest hs hnext h'
  obtain ⟨-, -, -, hreqWhole, hlimitsWhole, hcountWhole, hlockWhole, hleWhole, hpricesWhole⟩ :=
    finalize_eq_ok h
  obtain ⟨-, -, -, hreq, hlimits, hcount, hlock, -, hprices⟩ := finalize_eq_ok h'
  have hadd := settlement_add_le hs hs' hreq hcount hrest
  have hb : q'.totalLocked.val + rest.etherToLock.val ≤ balance.val := by omega
  obtain ⟨done, hdone⟩ := (hv.finalize h').exists_finalize_of_balance hrest hb
  obtain ⟨-, -, -, hreqDone, hlimitsDone, hcountDone, -, -, hpricesDone⟩ := finalize_eq_ok hdone
  refine ⟨rest, done, hrest, hdone, ?_, hadd⟩
  exact eq_but_locked (hreqDone.trans (hreq.trans hreqWhole.symm))
    (PriceHistory.record_split hprices hpricesDone hpricesWhole)
    (Bounded.ext (hcountDone.trans hcountWhole.symm))
    (hlimitsDone.trans (hlimits.trans hlimitsWhole.symm))

/-- A part of a batch: its last request, and what the escrow holds when it is finalized. -/
structure Part where
  last : Count
  balance : Amount

/-- Whether parts follow each other from request `first` to request `last`. -/
inductive Tiles : Nat → List Part → Count → Prop
  | last {first : Nat} {part : Part} (h : first ≤ part.last.val) : Tiles first [part] part.last
  | cons {first : Nat} {part : Part} {rest : List Part} {last : Count}
      (h : first ≤ part.last.val) (hlt : part.last.val < last.val)
      (tail : Tiles (part.last.val + 1) rest last) : Tiles first (part :: rest) last

/-- Finalize parts in turn at one rate, each with the lock its settlement asks for.  Answers the
locks. -/
def finalizeEach (poolValue shares : Amount) :
    WithdrawalQueue → List Part → Except Failure (WithdrawalQueue × List Amount)
  | q, [] => .ok (q, [])
  | q, part :: rest => do
    let s ← q.settlement part.last poolValue shares
    let q ← q.finalize part.last s.etherToLock poolValue shares part.balance
    let (q, locks) ← finalizeEach poolValue shares q rest
    return (q, s.etherToLock :: locks)

/-- Whether the escrow holds enough at every turn: what is locked before it and what it locks. -/
def Funded (poolValue shares : Amount) : WithdrawalQueue → List Part → Prop
  | _, [] => True
  | q, part :: rest => ∀ s, q.settlement part.last poolValue shares = .ok s →
      q.totalLocked.val + s.etherToLock.val ≤ part.balance.val ∧
        ∀ q', q.finalize part.last s.etherToLock poolValue shares part.balance = .ok q' →
          Funded poolValue shares q' rest

theorem funded_cons {part : Part} {rest : List Part}
    (hs : q.settlement part.last poolValue shares = .ok s)
    (hb : q.totalLocked.val + s.etherToLock.val ≤ part.balance.val)
    (h : q.finalize part.last s.etherToLock poolValue shares part.balance = .ok q')
    (hrest : Funded poolValue shares q' rest) : Funded poolValue shares q (part :: rest) := by
  intro s' hs'
  obtain rfl : s = s' := Except.ok.inj (hs.symm.trans hs')
  refine ⟨hb, fun next hnext => ?_⟩
  obtain rfl : q' = next := Except.ok.inj (h.symm.trans hnext)
  exact hrest

/-- Whether parts that lock `locks` leave the queue that the whole batch leaves, with no more
locked. -/
structure LeavesWhole (q whole : WithdrawalQueue) (s : Settlement) (each : WithdrawalQueue)
    (locks : List Amount) : Prop where
  same : each = { whole with totalLocked := each.totalLocked }
  locked : each.totalLocked.val = q.totalLocked.val + Bounded.total locks
  within : Bounded.total locks ≤ s.etherToLock.val

theorem Tiles.finalizeEach {first : Nat} {parts : List Part} (htiles : Tiles first parts last)
    (hv : q.Valid) (hfirst : first = q.finalizedCount.val)
    (hs : q.settlement last poolValue shares = .ok s)
    (h : q.finalize last s.etherToLock poolValue shares balance = .ok whole)
    (hfunded : Funded poolValue shares q parts) :
    ∃ each locks, q.finalizeEach poolValue shares parts = .ok (each, locks) ∧
      LeavesWhole q whole s each locks := by
  induction htiles generalizing q s whole with
  | @last first part hpart =>
    obtain ⟨hb, -⟩ := hfunded s hs
    have hlock := (finalize_eq_ok h).2.2.2.2.2.2.1
    refine ⟨whole, [s.etherToLock], ?_, rfl, hlock, Nat.le_refl _⟩
    simp only [WithdrawalQueue.finalizeEach, hs, lift_ok, ok_bind, finalize_of_balance h hb]
    rfl
  | @cons first part rest last hpart hlt tail ih =>
    obtain ⟨s', hs'⟩ := hv.exists_settlement_part hs (hfirst ▸ hpart) (Nat.le_of_lt hlt)
    obtain ⟨hb, hfunded⟩ := hfunded s' hs'
    obtain ⟨q', h'⟩ := hv.exists_finalize_of_balance hs' hb
    obtain ⟨-, -, -, -, -, hcount, hlock, -, -⟩ := finalize_eq_ok h'
    obtain ⟨sRest, done, hsRest, hdone, hsame, hadd⟩ := hv.finalize_rest hs h hlt hs' h'
    obtain ⟨each, locks, heach, hrest⟩ :=
      ih (hv.finalize h') hcount.symm hsRest hdone (hfunded q' h')
    have hlocked := hrest.locked
    have hwithin := hrest.within
    refine ⟨each, s'.etherToLock :: locks, ?_, ?_, ?_, ?_⟩
    · simp only [WithdrawalQueue.finalizeEach, hs', h', heach, lift_ok, ok_bind]
      rfl
    · rw [hrest.same, hsame]
    · rw [Bounded.total_cons]
      omega
    · rw [Bounded.total_cons]
      omega

/-- A lock covers what the requests of its batch are worth one by one. -/
theorem Valid.sum_worth_le_lock (hv : q.Valid) (hs : q.settlement last poolValue shares = .ok s) :
    ∑ i ∈ Ico q.finalizedCount.val (last.val + 1), q.worth i ⟨poolValue.val, shares.val⟩ ≤
      s.etherToLock.val := by
  obtain ⟨hfirst, -, hne, -⟩ := settlement_eq_ok hs
  obtain ⟨hlow, -⟩ := SettledBatch.lock_bounds (q := q)
    (b := ⟨q.finalizedCount.val, last.val + 1, ⟨poolValue.val, shares.val⟩⟩) hne
    ⟨last.val, mem_Ico.2 ⟨hfirst, Nat.lt_succ_self _⟩⟩
  rw [lock_of_settlement hv hs] at hlow
  exact Nat.le_trans (Nat.le_add_left _ _) hlow

end WithdrawalQueue

namespace WithdrawalDesk

open Finset WithdrawalQueue

/-- Parts of a batch that can be finalized whole can all be finalized, and leave the queue of the
whole batch but for what is locked.  They lock no more than it does, and what it locks covers what
its requests are worth one by one. -/
theorem finalize_in_parts (limits : WithdrawalLimits) (escrow : Escrow) (moves : List Move)
    {last : Count} {poolValue shares balance : Amount} {s : Settlement} {whole : WithdrawalQueue}
    (hs : ((opened limits escrow).after moves).queue.settlement last poolValue shares = .ok s)
    (h : ((opened limits escrow).after moves).queue.finalize last s.etherToLock poolValue shares
      balance = .ok whole)
    {parts : List Part}
    (htiles : Tiles ((opened limits escrow).after moves).queue.finalizedCount.val parts last)
    (hfunded : Funded poolValue shares ((opened limits escrow).after moves).queue parts) :
    (∃ each locks,
      ((opened limits escrow).after moves).queue.finalizeEach poolValue shares parts =
        .ok (each, locks) ∧
      LeavesWhole ((opened limits escrow).after moves).queue whole s each locks) ∧
    ∑ i ∈ Ico ((opened limits escrow).after moves).queue.finalizedCount.val (last.val + 1),
      ((opened limits escrow).after moves).queue.worth i ⟨poolValue.val, shares.val⟩ ≤
        s.etherToLock.val := by
  have hv := valid_after limits escrow moves
  exact ⟨htiles.finalizeEach hv rfl hs h hfunded, hv.sum_worth_le_lock hs⟩

/-- Two requests for 100 wei, with 150 shares and with 450. -/
def unequalMoves : List Move :=
  [.enqueue .zero 100 150 Bounded.zero, .enqueue .zero 100 450 Bounded.zero]

def unequal (runs : List PriceRun) (finalized : Count) (locked : Amount) : WithdrawalQueue where
  requests :=
    [⟨Bounded.zero, 100, 150, .zero, Bounded.zero, false⟩,
      ⟨1, 200, 600, .zero, Bounded.zero, false⟩]
  prices := ⟨runs⟩
  finalizedCount := finalized
  totalLocked := locked
  limits := ⟨Bounded.zero, 1000⟩

/-- At a third the two requests lock 200 wei together, and 50 and 100 one after the other. -/
theorem finalize_in_parts_unequal :
    ∃ each locks, (unequal [] Bounded.zero Bounded.zero).finalizeEach 1 3
        [⟨Bounded.zero, 50⟩, ⟨1, 150⟩] = .ok (each, locks) ∧
      LeavesWhole (unequal [] Bounded.zero Bounded.zero) (unequal [⟨1, 3, 1⟩] 2 200) ⟨200, 600⟩
        each locks ∧
      each.totalLocked.val = 150 := by
  have hqueue : ((opened ⟨Bounded.zero, 1000⟩ (.ofBalance 200)).after unequalMoves).queue =
      unequal [] Bounded.zero Bounded.zero := by decide +kernel
  have hwhole : (unequal [] Bounded.zero Bounded.zero).settlement 1 1 3 = .ok ⟨200, 600⟩ := by
    decide +kernel
  have hfinal : (unequal [] Bounded.zero Bounded.zero).finalize 1 200 1 3 200 =
      .ok (unequal [⟨1, 3, 1⟩] 2 200) := by decide +kernel
  have hfirst : (unequal [] Bounded.zero Bounded.zero).settlement Bounded.zero 1 3 =
      .ok ⟨50, 150⟩ := by decide +kernel
  have hthen : (unequal [] Bounded.zero Bounded.zero).finalize Bounded.zero 50 1 3 50 =
      .ok (unequal [⟨1, 3, Bounded.zero⟩] 1 50) := by decide +kernel
  have hsecond : (unequal [⟨1, 3, Bounded.zero⟩] 1 50).settlement 1 1 3 = .ok ⟨100, 450⟩ := by
    decide +kernel
  have hlast : (unequal [⟨1, 3, Bounded.zero⟩] 1 50).finalize 1 100 1 3 150 =
      .ok (unequal [⟨1, 3, 1⟩] 2 150) := by decide +kernel
  have htiles : Tiles 0 [⟨Bounded.zero, 50⟩, ⟨1, 150⟩] 1 :=
    .cons (Nat.le_refl 0) Nat.one_pos (.last (Nat.le_refl 1))
  have hfunded : Funded 1 3 (unequal [] Bounded.zero Bounded.zero)
      [⟨Bounded.zero, 50⟩, ⟨1, 150⟩] :=
    funded_cons hfirst (by decide) hthen (funded_cons hsecond (by decide) hlast trivial)
  obtain ⟨⟨each, locks, heach, hleaves⟩, -⟩ := finalize_in_parts ⟨Bounded.zero, 1000⟩
    (.ofBalance 200) unequalMoves (by rw [hqueue]; exact hwhole) (by rw [hqueue]; exact hfinal)
    (by rw [hqueue]; exact htiles) (by rw [hqueue]; exact hfunded)
  rw [hqueue] at heach hleaves
  have hdone : (unequal [] Bounded.zero Bounded.zero).finalizeEach 1 3
      [⟨Bounded.zero, 50⟩, ⟨1, 150⟩] = .ok (unequal [⟨1, 3, 1⟩] 2 150, [50, 100]) := by
    decide +kernel
  refine ⟨each, locks, heach, hleaves, ?_⟩
  obtain ⟨rfl, -⟩ := Prod.mk.inj (Except.ok.inj (heach.symm.trans hdone))
  rfl

end WithdrawalDesk
end LiquidStaking

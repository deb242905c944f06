/-
Solvency of finalized requests.

A queue that is backed pays all its debts: every open request can be claimed, in whatever order,
and no claim runs out of locked ether.
-/
import LiquidStaking.Proofs.Escrow
import LiquidStaking.Proofs.Withdrawal.Obligations

namespace LiquidStaking

namespace Escrow

/-- Whether an escrow holds an amount and can pay all of it to anyone. -/
structure Ready (e : Escrow) (locked : Nat) : Prop where
  holds : locked ≤ e.balance.val
  accepts : ∀ a, e.rejecting.contains a = false
  room : ∀ a, (e.paidTo a).val + locked < Bounded.bound 128

theorem Ready.transfer {e : Escrow} {rest : Nat} {amount : Amount}
    (h : e.Ready (rest + amount.val)) (a : Address) :
    ∃ e', e.transfer a amount = .ok e' ∧ e'.Ready rest := by
  have hholds := h.holds
  have hroom := h.room a
  obtain ⟨balance, hbalance⟩ : ∃ balance : Amount, balance.val = e.balance.val - amount.val :=
    Bounded.exists_val (Nat.lt_of_le_of_lt (Nat.sub_le _ _) e.balance.isLt)
  obtain ⟨credit, hcredit⟩ : ∃ credit : Amount, credit.val = (e.paidTo a).val + amount.val :=
    Bounded.exists_val (by omega)
  refine ⟨_, transfer_eq_ok_iff.2 ⟨h.accepts a, balance, credit, by omega, hcredit, rfl⟩, ?_,
    h.accepts, fun b => ?_⟩
  · show rest ≤ balance.val
    omega
  · have hroom' := h.room b
    rw [paidTo_insert]
    by_cases hb : b = a
    · rw [if_pos hb, hcredit]
      omega
    · rw [if_neg hb]
      omega

end Escrow

namespace WithdrawalQueue

open Finset

/-- Whether a request is finalized and not claimed yet. -/
def Open (q : WithdrawalQueue) (id : Count) : Prop :=
  id.val < q.finalizedCount.val ∧ ∃ r, q.requests[id.val]? = some r ∧ r.claimed = false

/-- What claims would pay now, for all requests together. -/
def owed (q : WithdrawalQueue) : Nat :=
  Bounded.total (q.requests.filterMap (fun r => (q.claimableEther r.id none).toOption))

def claimAll (q : WithdrawalQueue) (escrow : Escrow) (claims : List (Count × Option Nat)) :
    Except Fault (WithdrawalQueue × Escrow) :=
  claims.foldlM (fun s c => do
    let (_, q, escrow) ← s.1.claim c.1 c.2 s.2
    return (q, escrow)) (q, escrow)

/-- Whether a queue can pay what it owes: now, and to everyone in whatever order they claim. -/
structure Solvent (q : WithdrawalQueue) : Prop where
  covered : q.owed ≤ q.totalLocked.val
  claimable : ∀ id, q.Open id → ∀ hint, ∃ a, q.claimableEther id hint = .ok a
  neverShort : ∀ id hint escrow required available,
    q.claim id hint escrow ≠ .error (.insufficientEscrow required available)
  drained : ∀ escrow claims, escrow.Ready q.totalLocked.val → (claims.map Prod.fst).Nodup →
    (∀ c ∈ claims, q.Open c.1) → ∃ q' escrow', q.claimAll escrow claims = .ok (q', escrow')

variable {q q' : WithdrawalQueue}

/-- What a claim of the request at one place would pay now, nothing if it would not. -/
def claimableAt (q : WithdrawalQueue) (i : Nat) : Nat :=
  (q.requests[i]?.bind (fun r => (q.claimableEther r.id none).toOption)).elim 0 (·.val)

theorem total_filterMap {α : Type} {bits : Nat} (g : α → Option (Bounded bits)) (xs : List α) :
    Bounded.total (xs.filterMap g) =
      ∑ i ∈ range xs.length, (xs[i]?.bind g).elim 0 (·.val) := by
  induction xs with
  | nil => rfl
  | cons x xs ih =>
    rw [List.length_cons, sum_range_succ', List.filterMap_cons]
    simp only [List.getElem?_cons_succ, List.getElem?_cons_zero, Option.bind_some]
    rw [← ih]
    cases g x with
    | none => rfl
    | some a => exact Nat.add_comm _ _

theorem owed_eq_sum (q : WithdrawalQueue) : q.owed = ∑ i ∈ range q.length, q.claimableAt i :=
  total_filterMap _ _

/-- A request that is not open has no claim, and the fault says why. -/
theorem claimablePriceIndex_of_not_open {id : Count} (h : ¬ q.Open id) (hint : Option Nat) :
    ∃ e, q.claimablePriceIndex id hint = .error e ∧
      (e = .notFinalized id.val ∨ e = .unknownRequest id.val ∨ e = .alreadyClaimed id.val) := by
  unfold claimablePriceIndex
  by_cases hfin : q.finalizedCount.val ≤ id.val
  · rw [if_pos hfin]
    exact ⟨_, rfl, .inl rfl⟩
  · rw [if_neg hfin]
    cases hr : q.requests[id.val]? with
    | none =>
      have hunknown : q.request id.val = .error (.unknownRequest id.val) := by rw [request, hr]
      rw [hunknown, error_bind]
      exact ⟨_, rfl, .inr (.inl rfl)⟩
    | some r =>
      have hclaimed : r.claimed = true := by
        cases hc : r.claimed with
        | true => rfl
        | false => exact absurd ⟨Nat.not_le.1 hfin, r, hr, hc⟩ h
      rw [request_eq_ok_iff.2 hr, ok_bind, if_pos hclaimed, throw_eq]
      exact ⟨_, rfl, .inr (.inr rfl)⟩

namespace Backed

theorem claimable_eq (hb : q.Backed) {id : Count} (hopen : q.Open id) (hint : Option Nat) :
    ∃ a, q.claimableEther id hint = .ok a ∧ a.val = q.due id.val := by
  obtain ⟨hfin, r, hr, hclaimed⟩ := hopen
  obtain ⟨rate, hrate, -⟩ := hb.valid.priced.rateFor_isSome hfin
  have hfits := hb.payable id.val hfin rate hrate
  have hlt : q.worth id.val rate < Bounded.bound 128 :=
    Nat.lt_of_le_of_lt (Nat.min_le_right _ _) hfits
  exact ⟨⟨_, hlt⟩, hb.valid.claimableEther_eq_ok_iff.2
    ⟨hfin, ⟨r, hr, hclaimed⟩, rate, hrate, hfits, rfl⟩, (due_of_unclaimed hr hclaimed hrate).symm⟩

theorem claimableAt_eq (hb : q.Backed) {i : Nat} (hi : i < q.length) :
    q.claimableAt i = if i < q.finalizedCount.val then q.due i else 0 := by
  have hr : q.requests[i]? = some q.requests[i] := List.getElem?_eq_getElem hi
  have hid : q.requests[i].id.val = i := hb.valid.numbered i _ hr
  rw [claimableAt, hr, Option.bind_some]
  by_cases hopen : q.Open q.requests[i].id
  · obtain ⟨a, ha, hdue⟩ := hb.claimable_eq hopen none
    rw [ha, ← hid, if_pos hopen.1, ← hdue]
    rfl
  · have hnone : (q.claimableEther q.requests[i].id none).toOption = none := by
      cases h : q.claimableEther q.requests[i].id none with
      | error e => rfl
      | ok a =>
        obtain ⟨hfin, hunclaimed, -⟩ := hb.valid.claimableEther_eq_ok_iff.1 h
        exact absurd ⟨hfin, hunclaimed⟩ hopen
    rw [hnone]
    by_cases hfin : i < q.finalizedCount.val
    · rw [if_pos hfin, due, hr]
      cases hclaimed : q.requests[i].claimed with
      | true => simp [hclaimed]
      | false =>
        rw [← hid] at hfin
        exact absurd ⟨hfin, _, by rw [hid]; exact hr, hclaimed⟩ hopen
    · rw [if_neg hfin]
      rfl

theorem owed_eq (hb : q.Backed) : q.owed = ∑ i ∈ range q.finalizedCount.val, q.due i := by
  rw [owed_eq_sum]
  have hsub : range q.finalizedCount.val ⊆ range q.length :=
    range_subset_range.2 hb.valid.reached
  rw [← sum_subset hsub]
  · refine sum_congr rfl (fun i hi => ?_)
    have hfin := mem_range.1 hi
    rw [hb.claimableAt_eq (Nat.lt_of_lt_of_le hfin hb.valid.reached), if_pos hfin]
  · intro i hi hnot
    rw [hb.claimableAt_eq (mem_range.1 hi), if_neg (fun h => hnot (mem_range.2 h))]

theorem due_le_locked (hb : q.Backed) {id : Nat} (hfin : id < q.finalizedCount.val) :
    q.due id ≤ q.totalLocked.val :=
  Nat.le_trans (single_le_sum (fun _ _ => Nat.zero_le _) (mem_range.2 hfin)) hb.covered

/-- Whether a claim of an open request succeeds is up to the escrow alone. -/
theorem claim_of_transfer (hb : q.Backed) {id : Count} (hopen : q.Open id) (hint : Option Nat) :
    ∃ r index amount locked, q.requests[id.val]? = some r ∧
      q.claimablePriceIndex id hint = .ok index ∧ q.payout id index = .ok amount ∧
      q.totalLocked.sub amount = .ok locked := by
  obtain ⟨hfin, r, hr, hclaimed⟩ := hopen
  obtain ⟨amount, hamount, hdue⟩ := hb.claimable_eq ⟨hfin, r, hr, hclaimed⟩ hint
  obtain ⟨index, hindex, hpayout⟩ := bind_eq_ok.1 hamount
  have hle := hb.due_le_locked hfin
  have hlt : q.totalLocked.val - amount.val < Bounded.bound 128 :=
    Nat.lt_of_le_of_lt (Nat.sub_le _ _) q.totalLocked.isLt
  refine ⟨r, index, amount, ⟨_, hlt⟩, hr, hindex, hpayout, Bounded.sub_eq_ok_iff.2 ?_⟩
  show q.totalLocked.val = q.totalLocked.val - amount.val + amount.val
  omega

theorem neverShort (hb : q.Backed) (id : Count) (hint : Option Nat) (escrow : Escrow)
    (required available : Nat) :
    q.claim id hint escrow ≠ .error (.insufficientEscrow required available) := by
  intro h
  by_cases hopen : q.Open id
  · obtain ⟨r, index, amount, locked, hr, hindex, hpayout, hsub⟩ := hb.claim_of_transfer hopen hint
    unfold WithdrawalQueue.claim at h
    simp only [hindex, hpayout, request_eq_ok_iff.2 hr, hsub, ok_bind] at h
    cases ht : escrow.transfer r.recipient amount with
    | error e =>
      rw [ht] at h
      cases h
    | ok e =>
      rw [ht] at h
      cases h
  · obtain ⟨e, he, hkind⟩ := claimablePriceIndex_of_not_open hopen hint
    unfold WithdrawalQueue.claim at h
    rw [he, error_bind] at h
    cases h
    rcases hkind with hkind | hkind | hkind <;> cases hkind

theorem claim_ok (hb : q.Backed) {id : Count} (hopen : q.Open id) (hint : Option Nat)
    {escrow : Escrow} (hready : escrow.Ready q.totalLocked.val) :
    ∃ receipt q' escrow', q.claim id hint escrow = .ok (receipt, q', escrow') ∧
      q'.finalizedCount = q.finalizedCount ∧ q'.requests = q.markClaimed id.val ∧
      escrow'.Ready q'.totalLocked.val := by
  obtain ⟨r, index, amount, locked, hr, hindex, hpayout, hsub⟩ := hb.claim_of_transfer hopen hint
  have hlocked := Bounded.sub_eq_ok_iff.1 hsub
  rw [hlocked] at hready
  obtain ⟨escrow', htransfer, hready'⟩ := hready.transfer r.recipient
  unfold WithdrawalQueue.claim
  simp only [hindex, hpayout, request_eq_ok_iff.2 hr, hsub, htransfer, ok_bind]
  exact ⟨_, _, _, rfl, rfl, rfl, hready'⟩

theorem claimAll_ok : ∀ (claims : List (Count × Option Nat)) {q : WithdrawalQueue}
    {escrow : Escrow}, q.Backed → escrow.Ready q.totalLocked.val → (claims.map Prod.fst).Nodup →
      (∀ c ∈ claims, q.Open c.1) → ∃ q' escrow', q.claimAll escrow claims = .ok (q', escrow')
  | [], q, escrow, _, _, _, _ => ⟨q, escrow, rfl⟩
  | (id, hint) :: rest, q, escrow, hb, hready, hnodup, hopen => by
    have hid := hopen (id, hint) List.mem_cons_self
    obtain ⟨receipt, q', escrow', hclaim, hcount, hreq, hready'⟩ := hb.claim_ok hid hint hready
    rw [List.map_cons, List.nodup_cons] at hnodup
    -- A claim closes its own request and no other.
    have hrest : ∀ c ∈ rest, q'.Open c.1 := by
      intro c hc
      have hne : id.val ≠ c.1.val := by
        intro heq
        have hmem : c.1 ∈ rest.map Prod.fst := List.mem_map_of_mem hc
        exact hnodup.1 ((Bounded.ext heq : id = c.1) ▸ hmem)
      obtain ⟨hfin, r, hr, hclaimed⟩ := hopen c (List.mem_cons_of_mem _ hc)
      refine ⟨hcount ▸ hfin, r, ?_, hclaimed⟩
      rw [hreq, getElem?_markClaimed_of_ne _ hne, hr]
    obtain ⟨q'', escrow'', hall⟩ := claimAll_ok rest (hb.claim hclaim) hready' hnodup.2 hrest
    refine ⟨q'', escrow'', ?_⟩
    unfold claimAll at hall ⊢
    rw [List.foldlM_cons, hclaim]
    exact hall

theorem solvent (hb : q.Backed) : q.Solvent where
  covered := hb.owed_eq ▸ hb.covered
  claimable := fun _ hopen hint =>
    let ⟨a, ha, _⟩ := hb.claimable_eq hopen hint
    ⟨a, ha⟩
  neverShort := hb.neverShort
  drained := fun _ claims hready hnodup hopen => claimAll_ok claims hb hready hnodup hopen

end Backed

end WithdrawalQueue
end LiquidStaking

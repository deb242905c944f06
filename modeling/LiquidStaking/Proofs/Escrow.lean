/-
Payments of the escrow.

A payment takes its amount from the balance and adds it to the credit of its recipient, and fails
if one of the two leaves its width.
-/
import LiquidStaking.Escrow
import LiquidStaking.Proofs.AddressMap
import LiquidStaking.Proofs.Arithmetic

namespace LiquidStaking
namespace Escrow

variable {e e' e'' : Escrow} {a b : Address} {amount amount' : Amount}

theorem transfer_eq_ok_iff :
    e.transfer a amount = .ok e' ↔
      e.rejecting.contains a = false ∧ ∃ balance credit : Amount,
        e.balance.val = balance.val + amount.val ∧
        credit.val = (e.paidTo a).val + amount.val ∧
        e' = { e with balance, paid := e.paid.insert a credit } := by
  unfold transfer
  constructor
  · intro h
    split at h
    · cases h
    · next haccepts =>
      split at h
      · cases h
      · next balance hsub =>
        split at h
        · cases h
        · next credit hadd =>
          cases h
          exact ⟨Bool.eq_false_iff.2 haccepts, balance, credit, Bounded.sub_eq_ok_iff.1 hsub,
            (Bounded.add_eq_ok_iff.1 hadd).symm, rfl⟩
  · rintro ⟨haccepts, balance, credit, hsub, hadd, rfl⟩
    have hsub := Bounded.sub_eq_ok_iff.2 hsub
    have hadd := Bounded.add_eq_ok_iff.2 hadd.symm
    simp only [haccepts, hsub, hadd]
    rfl

theorem paidTo_insert (e : Escrow) (balance : Amount) (a b : Address) (credit : Amount) :
    ({ e with balance, paid := e.paid.insert a credit } : Escrow).paidTo b =
      if b = a then credit else e.paidTo b := by
  unfold paidTo
  rw [AddressMap.get?_insert]
  by_cases h : b = a
  · rw [if_pos h, if_pos h, Option.getD_some]
  · rw [if_neg h, if_neg h]

/-- Two payments, to one recipient or to two, can be made in either order. -/
theorem transfer_swap (h : e.transfer a amount = .ok e') (h' : e'.transfer b amount' = .ok e'') :
    ∃ middle, e.transfer b amount' = .ok middle ∧ middle.transfer a amount = .ok e'' := by
  obtain ⟨ha, balance, credit, hbalance, hcredit, rfl⟩ := transfer_eq_ok_iff.1 h
  obtain ⟨hb, balance', credit', hbalance', hcredit', rfl⟩ := transfer_eq_ok_iff.1 h'
  simp only at hbalance'
  rw [paidTo_insert] at hcredit'
  obtain ⟨between, hbetween⟩ : ∃ between : Amount, between.val = balance'.val + amount.val :=
    Bounded.exists_val (by have := e.balance.isLt; omega)
  by_cases hsame : b = a
  · subst hsame
    rw [if_pos rfl] at hcredit'
    obtain ⟨first, hfirst⟩ : ∃ first : Amount, first.val = (e.paidTo b).val + amount'.val :=
      Bounded.exists_val (by have := credit'.isLt; omega)
    refine ⟨_, transfer_eq_ok_iff.2 ⟨hb, between, first, by omega, hfirst, rfl⟩,
      transfer_eq_ok_iff.2 ⟨ha, balance', credit', hbetween, ?_, ?_⟩⟩
    · rw [paidTo_insert, if_pos rfl]
      omega
    · rw [AddressMap.insert_insert, AddressMap.insert_insert]
  · rw [if_neg hsame] at hcredit'
    refine ⟨_, transfer_eq_ok_iff.2 ⟨hb, between, credit', by omega, hcredit', rfl⟩,
      transfer_eq_ok_iff.2 ⟨ha, balance', credit, hbetween, ?_, ?_⟩⟩
    · rw [paidTo_insert, if_neg (Ne.symm hsame)]
      exact hcredit
    · rw [AddressMap.insert_comm _ hsame]

end Escrow
end LiquidStaking

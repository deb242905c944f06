/-
Parts of a text whose characters take one byte each.

Such a text may be cut anywhere up to its end.
-/
import LiquidStaking.Text.Slice

namespace LiquidStaking
namespace Text

theorem utf8Size_of_isAscii {c : Char} (h : isAscii c = true) : c.utf8Size = 1 := by
  have hlt : c.toNat < 128 := of_decide_eq_true h
  rw [Char.utf8Size_eq_one_iff]
  exact UInt32.le_iff_toNat_le.2 (Nat.le_of_lt_succ hlt)

theorem byteLength_of_ascii {cs : List Char} (h : cs.all isAscii = true) :
    byteLength cs = cs.length := by
  induction cs with
  | nil => rfl
  | cons c cs ih =>
    rw [List.all_cons, Bool.and_eq_true] at h
    rw [byteLength, utf8Size_of_isAscii h.1, ih h.2, List.length_cons, Nat.add_comm]

theorem splitBytes?_of_ascii : ∀ {n : Nat} {cs : List Char}, cs.all isAscii = true →
    n ≤ cs.length → splitBytes? n cs = some (cs.take n, cs.drop n)
  | 0, _, _, _ => by rw [splitBytes?, List.take_zero, List.drop_zero]
  | n + 1, [], _, hn => absurd hn (Nat.not_succ_le_zero n)
  | n + 1, c :: cs, h, hn => by
    rw [List.all_cons, Bool.and_eq_true] at h
    rw [splitBytes?, utf8Size_of_isAscii h.1, if_pos (Nat.le_add_left 1 n), Nat.add_sub_cancel,
      splitBytes?_of_ascii h.2 (Nat.le_of_succ_le_succ hn)]
    rfl

/-- A part of such a text that ends before it does. -/
theorem slice_of_ascii {start stop : Nat} {cs : List Char} (h : cs.all isAscii = true)
    (horder : start ≤ stop) (hstop : stop ≤ cs.length) :
    slice start stop cs = .ok ((cs.drop start).take (stop - start)) := by
  have hrest : (cs.drop start).all isAscii = true :=
    List.all_eq_true.2 fun c hc => List.all_eq_true.1 h c (List.mem_of_mem_drop hc)
  have hlength : stop - start ≤ (cs.drop start).length := by
    rw [List.length_drop]
    omega
  rw [slice, if_pos horder, splitBytes?_of_ascii h (Nat.le_trans horder hstop)]
  simp only [splitBytes?_of_ascii hrest hlength]

end Text
end LiquidStaking

/-
A journal that goes on.

When the first part of a journal ends with a whole line, its lines are the first ones of all, and
what follows has the others.  So the events after those of the first part are those of the rest.
-/
import LiquidStaking.Keeper.Journal
import LiquidStaking.Proofs.Traversal

namespace LiquidStaking

namespace Text

/-- Whether a text holds whole lines only: it is empty, or its last line has an end. -/
def EndsLine (cs : List Char) : Prop := cs = [] ∨ cs.getLast? = some '\n'

theorem lines_ne_nil : ∀ {cs : List Char}, cs ≠ [] → lines cs ≠ []
  | [], h => absurd rfl h
  | c :: r, _ => by
    unfold lines
    split
    · exact List.cons_ne_nil _ _
    · split
      · exact List.cons_ne_nil _ _
      · exact List.cons_ne_nil _ _

theorem lines_cons_append (c : Char) {r ds : List Char} (hr : r ≠ [])
    (h : lines (r ++ ds) = lines r ++ lines ds) :
    lines (c :: (r ++ ds)) = lines (c :: r) ++ lines ds := by
  obtain ⟨l, ls, hcons⟩ := List.exists_cons_of_ne_nil (lines_ne_nil hr)
  simp only [lines, h, hcons, List.cons_append]
  split <;> rfl

theorem lines_append (ds : List Char) : ∀ {cs : List Char}, EndsLine cs →
    lines (cs ++ ds) = lines cs ++ lines ds
  | [], _ => rfl
  | [c], h => by
    -- The last character of the first part ends its line, so what follows starts a new one.
    obtain rfl : c = '\n' := by
      rcases h with h | h
      · cases h
      · exact Option.some.inj h
    rfl
  | c :: d :: r, h => by
    have hrest : EndsLine (d :: r) := by
      rcases h with h | h
      · cases h
      · exact .inr (by rwa [List.getLast?_cons_cons] at h)
    exact lines_cons_append c (List.cons_ne_nil d r) (lines_append ds hrest)

theorem length_lines_le : ∀ cs : List Char, (lines cs).length ≤ cs.length
  | [] => Nat.le_refl 0
  | c :: r => by
    have hrest := length_lines_le r
    unfold lines
    split
    · exact Nat.succ_le_succ hrest
    · split
      · exact Nat.succ_le_succ (Nat.zero_le _)
      · next h =>
        rw [h] at hrest
        exact Nat.le_succ_of_le hrest

end Text

namespace Journal

theorem length_numberedLines_le (cs : List Char) : (numberedLines cs).length ≤ cs.length := by
  have hlines : ((Text.lines cs).zipIdx 1).length ≤ cs.length := by
    rw [List.length_zipIdx]
    exact Text.length_lines_le cs
  exact Nat.le_trans (List.length_filterMap_le _ _) hlines

theorem numberedLines_append {cs : List Char} (h : Text.EndsLine cs) (ds : List Char) :
    ∃ later, numberedLines (cs ++ ds) = numberedLines cs ++ later := by
  unfold numberedLines
  rw [Text.lines_append ds h, List.zipIdx_append, List.filterMap_append]
  exact ⟨_, rfl⟩

theorem length_le_of_read {journal : String} {entries : List JournalEntry}
    (h : read journal 0 = .ok entries) : entries.length ≤ journal.toList.length := by
  rw [length_of_mapM h]
  exact length_numberedLines_le _

/-- The events of a journal are those of its first part, and those that are read when as many are
skipped. -/
theorem read_append {first rest : String} (hfirst : Text.EndsLine first.toList)
    {entries : List JournalEntry} (h : read (first ++ rest) 0 = .ok entries) :
    ∃ before later, entries = before ++ later ∧ read first 0 = .ok before ∧
      read (first ++ rest) before.length = .ok later := by
  obtain ⟨more, hlines⟩ := numberedLines_append hfirst rest.toList
  simp only [read, String.toList_append, hlines, List.drop_zero, List.mapM_append, bind_eq_ok]
    at h ⊢
  obtain ⟨before, hbefore, later, hlater, h⟩ := h
  refine ⟨before, later, (pure_eq_ok.1 h).symm, hbefore, ?_⟩
  rw [List.drop_left' (length_of_mapM hbefore).symm]
  exact hlater

end Journal
end LiquidStaking

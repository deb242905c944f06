/-
Texts as lines.

Lines that are joined by line feeds are the lines of the text again, but for a last one that is
empty.
-/
import LiquidStaking.Text.Blank
import Mathlib.Data.List.TakeWhile

namespace LiquidStaking
namespace Text

/-- The characters of a line, without its end. -/
structure Line where
  chars : List Char
  unbroken : '\n' ∉ chars

/-- Whether a line holds nothing but white space. -/
def Line.isBlank (l : Line) : Bool := l.chars.all Text.isBlank

/-- Lines with a line feed after each but the last one. -/
def join (ls : List Line) : List Char := ['\n'].intercalate (ls.map Line.chars)

theorem splitOn_join {ls : List Line} (h : ls ≠ []) :
    (join ls).splitOn '\n' = ls.map Line.chars := by
  refine List.splitOn_intercalate '\n' (fun cs hcs => ?_) (mt List.map_eq_nil_iff.1 h)
  obtain ⟨l, -, rfl⟩ := List.mem_map.1 hcs
  exact l.unbroken

/-- What follows the last line feed is a line unless it is empty. -/
theorem splitOn_eq_lines (cs : List Char) :
    cs.splitOn '\n' = lines cs ∨ cs.splitOn '\n' = lines cs ++ [[]] := by
  induction cs with
  | nil => exact .inr rfl
  | cons c r ih =>
    rw [List.splitOn_cons_eq_if_modifyHead]
    simp only [lines, beq_iff_eq]
    split
    · rcases ih with h | h
      · exact .inl (by rw [h])
      · exact .inr (by rw [h]; rfl)
    · rcases ih with h | h
      · have hne : lines r ≠ [] := h ▸ List.splitOn_ne_nil '\n' r
        obtain ⟨l, ls, hcons⟩ := List.exists_cons_of_ne_nil hne
        rw [h, hcons]
        exact .inl rfl
      · rw [h]
        cases lines r with
        | nil => exact .inl rfl
        | cons l ls => exact .inr rfl

theorem trim_eq_nil_iff {cs : List Char} : trim cs = [] ↔ ∀ c ∈ cs, isBlank c = true := by
  rw [trim, List.reverse_eq_nil_iff, List.dropWhile_eq_nil_iff]
  constructor
  · intro h
    refine List.dropWhile_eq_nil_iff.1 ?_
    by_contra hne
    have hhead := List.head_dropWhile_not isBlank hne
    rw [h _ (List.mem_reverse.2 (List.head_mem hne))] at hhead
    cases hhead
  · intro h c hc
    rw [List.dropWhile_eq_nil_iff.2 h] at hc
    exact absurd hc List.not_mem_nil

/-- What stands between blanks, and neither starts nor ends with one, is all that is left. -/
theorem trim_margins {before core after : List Char} (hbefore : ∀ c ∈ before, isBlank c = true)
    (hafter : ∀ c ∈ after, isBlank c = true) {first last : Char} {rest start : List Char}
    (hfirst : core = first :: rest) (hlast : core = start ++ [last])
    (hblank : isBlank first = false ∧ isBlank last = false) :
    trim (before ++ core ++ after) = core := by
  have hfront : (before ++ core ++ after).dropWhile isBlank = core ++ after := by
    rw [List.append_assoc, List.dropWhile_append_of_pos hbefore, hfirst, List.cons_append,
      List.dropWhile_cons_of_neg (by rw [hblank.1]; decide)]
  have hback : (core ++ after).reverse.dropWhile isBlank = core.reverse := by
    rw [List.reverse_append,
      List.dropWhile_append_of_pos (fun c hc => hafter c (List.mem_reverse.1 hc)), hlast,
      List.reverse_append, List.reverse_singleton, List.singleton_append,
      List.dropWhile_cons_of_neg (by rw [hblank.2]; decide)]
  rw [trim, hfront, hback, List.reverse_reverse]

end Text
end LiquidStaking

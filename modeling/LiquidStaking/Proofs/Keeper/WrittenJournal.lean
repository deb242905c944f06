/-
Journals there and back.

An event is written on one line, and reads as the same event with white space around it and empty
lines in between.  Of the lines that hold something, those that are skipped only count.
-/
import LiquidStaking.Keeper.Journal
import LiquidStaking.Proofs.Json.OneLine
import LiquidStaking.Proofs.Text.Lines
import LiquidStaking.Proofs.Wire.Event

namespace LiquidStaking

/-- White space that stays on a line. -/
structure Margin where
  chars : List Char
  blank : ∀ c ∈ chars, Text.isBlank c = true
  unbroken : '\n' ∉ chars

/-- A line of a journal: an event with white space around it, or white space alone.  The carriage
return of a line that ends with two characters is white space behind the event. -/
structure JournalLine where
  before : Margin
  event : Option PoolEvent
  after : Margin

namespace PoolEvent

theorem toText_printable (e : PoolEvent) : Text.Printable (Wire.toText e).toList := by
  rw [Wire.toText, Json.compact, String.toList_ofList]
  exact Json.staysOnLine _ 0

theorem toText_braced (e : PoolEvent) :
    ∃ inner, (Wire.toText e).toList = '\x7b' :: (inner ++ ['\x7d']) := by
  rw [Wire.toText, Json.compact, String.toList_ofList]
  exact ⟨_, rfl⟩

end PoolEvent

namespace JournalLine

def core (l : JournalLine) : List Char :=
  match l.event with
  | none => []
  | some e => (Wire.toText e).toList

def chars (l : JournalLine) : List Char := l.before.chars ++ l.core ++ l.after.chars

theorem unbroken (l : JournalLine) : '\n' ∉ l.chars := by
  have hcore : '\n' ∉ l.core := by
    unfold core
    split
    · exact List.not_mem_nil
    · next e _ => exact e.toText_printable.unbroken
  intro h
  rcases List.mem_append.1 h with h | h
  · rcases List.mem_append.1 h with h | h
    · exact l.before.unbroken h
    · exact hcore h
  · exact l.after.unbroken h

def line (l : JournalLine) : Text.Line := ⟨l.chars, l.unbroken⟩

theorem trim_chars (l : JournalLine) : Text.trim l.chars = l.core := by
  obtain ⟨before, event, after⟩ := l
  cases event with
  | none =>
    refine Text.trim_eq_nil_iff.2 (fun c hc => ?_)
    have hc : c ∈ before.chars ++ [] ++ after.chars := hc
    rw [List.append_nil] at hc
    rcases List.mem_append.1 hc with hc | hc
    · exact before.blank c hc
    · exact after.blank c hc
  | some e =>
    obtain ⟨inner, hbraced⟩ := e.toText_braced
    exact Text.trim_margins before.blank after.blank hbraced
      (hbraced.trans (List.cons_append.symm)) (by decide)

theorem isBlank_line (l : JournalLine) : l.line.isBlank = l.event.isNone := by
  have htrim := l.trim_chars
  obtain ⟨before, event, after⟩ := l
  cases event with
  | none => exact List.all_eq_true.2 (Text.trim_eq_nil_iff.1 htrim)
  | some e =>
    obtain ⟨inner, hbraced⟩ := e.toText_braced
    refine Bool.eq_false_iff.2 (fun h => ?_)
    have hnil := Text.trim_eq_nil_iff.2 (List.all_eq_true.1 h)
    cases (hbraced.symm.trans htrim.symm).trans hnil

end JournalLine

namespace Journal

/-- What a line holds, with its number. -/
def held (l : List Char × Nat) : Option (List Char × Nat) :=
  match Text.trim l.1 with
  | [] => none
  | cs => some (cs, l.2)

theorem numberedLines_eq (cs : List Char) :
    numberedLines cs = ((cs.splitOn '\n').zipIdx 1).filterMap held := by
  have hlines : numberedLines cs = ((Text.lines cs).zipIdx 1).filterMap held := rfl
  rcases Text.splitOn_eq_lines cs with h | h
  · rw [h, hlines]
  · rw [h, hlines, List.zipIdx_append, List.filterMap_append]
    exact (List.append_nil _).symm

/-- The events of a journal in order, each with the number of its line. -/
def entries (ls : List JournalLine) : List JournalEntry :=
  (ls.zipIdx 1).filterMap (fun l => l.1.event.map (fun e => ⟨l.2, e⟩))

/-- The line an entry is read from. -/
def written (e : JournalEntry) : List Char × Nat := ((Wire.toText e.event).toList, e.line)

theorem readEntry_written (e : JournalEntry) : readEntry (written e) = .ok e := by
  have hread : Wire.ofChars (Wire.toText e.event).toList = .ok e.event :=
    Wire.ofText_compact e.event
  rw [readEntry, written, mapError_eq_ok.2 hread]
  rfl

theorem held_line (l : JournalLine) (n : Nat) :
    held (l.line.chars, n) = (l.event.map (fun e => JournalEntry.mk n e)).map written := by
  have htrim : Text.trim l.line.chars = l.core := l.trim_chars
  obtain ⟨before, event, after⟩ := l
  cases event with
  | none =>
    rw [held, htrim]
    rfl
  | some e =>
    obtain ⟨inner, hbraced⟩ := e.toText_braced
    rw [held, htrim.trans hbraced]
    show some ('\x7b' :: (inner ++ ['\x7d']), n) = some (written ⟨n, e⟩)
    rw [written, hbraced]

/-- The lines of a journal that hold something are those of its events. -/
theorem numberedLines_join (ls : List JournalLine) :
    numberedLines (Text.join (ls.map JournalLine.line)) = (entries ls).map written := by
  cases ls with
  | nil => rfl
  | cons l ls =>
    have hne : (l :: ls).map JournalLine.line ≠ [] := List.cons_ne_nil _ _
    rw [numberedLines_eq, Text.splitOn_join hne, List.map_map,
      List.zipIdx_map, List.filterMap_map, entries, List.map_filterMap]
    exact List.filterMap_congr (fun l _ => held_line l.1 l.2)

theorem events_entries (ls : List JournalLine) :
    (entries ls).map (·.event) = ls.filterMap (·.event) := by
  have hevent : ∀ l : JournalLine × Nat,
      (l.1.event.map (fun e => JournalEntry.mk l.2 e)).map (·.event) = l.1.event := by
    rintro ⟨⟨before, event, after⟩, n⟩
    cases event <;> rfl
  rw [entries, List.map_filterMap, List.filterMap_congr (fun l _ => hevent l)]
  show (ls.zipIdx 1).filterMap ((·.event) ∘ Prod.fst) = _
  rw [← List.filterMap_map, List.zipIdx_map_fst]

theorem read_join (ls : List JournalLine) (skip : Nat) :
    read (String.ofList (Text.join (ls.map JournalLine.line))) skip =
      .ok ((entries ls).drop skip) := by
  rw [read, String.toList_ofList, numberedLines_join, ← List.map_drop]
  exact mapM_map_pure readEntry_written _

theorem held_of_blank {l : Text.Line} (h : l.isBlank = true) (n : Nat) :
    held (l.chars, n) = none := by
  rw [held, Text.trim_eq_nil_iff.2 (List.all_eq_true.1 h)]

theorem exists_held {l : Text.Line} (h : l.isBlank = false) (n : Nat) :
    ∃ x, held (l.chars, n) = some x := by
  have htrim : Text.trim l.chars ≠ [] := by
    intro hnil
    rw [Text.Line.isBlank, List.all_eq_true.2 (Text.trim_eq_nil_iff.1 hnil)] at h
    cases h
  obtain ⟨c, r, hcons⟩ := List.exists_cons_of_ne_nil htrim
  rw [held, hcons]
  exact ⟨_, rfl⟩

theorem length_filterMap_held (ls : List Text.Line) (n : Nat) :
    (((ls.map Text.Line.chars).zipIdx n).filterMap held).length =
      ls.countP (fun l => !l.isBlank) := by
  induction ls generalizing n with
  | nil => rfl
  | cons l ls ih =>
    rw [List.map_cons, List.zipIdx_cons, List.filterMap_cons, List.countP_cons]
    cases h : l.isBlank with
    | true =>
      rw [held_of_blank h]
      exact ih (n + 1)
    | false =>
      obtain ⟨x, hx⟩ := exists_held h n
      rw [hx]
      exact congrArg (· + 1) (ih (n + 1))

/-- What is left of a journal after more events than stand before a line that holds something does
not depend on what the line holds. -/
theorem drop_numberedLines {before : List Text.Line} (after : List Text.Line) {skip : Nat}
    (hskip : before.countP (fun l => !l.isBlank) < skip) :
    ∃ rest, ∀ line : Text.Line, line.isBlank = false →
      (numberedLines (Text.join (before ++ line :: after))).drop skip = rest := by
  obtain ⟨more, hmore⟩ : ∃ more, skip - before.countP (fun l => !l.isBlank) = more + 1 :=
    ⟨skip - before.countP (fun l => !l.isBlank) - 1, by omega⟩
  refine ⟨(((after.map Text.Line.chars).zipIdx (1 + before.length + 1)).filterMap held).drop more,
    fun line hline => ?_⟩
  have hne : before ++ line :: after ≠ [] :=
    List.append_ne_nil_of_right_ne_nil _ (List.cons_ne_nil _ _)
  obtain ⟨x, hx⟩ := exists_held hline (1 + before.length)
  have hpast : (((before.map Text.Line.chars).zipIdx 1).filterMap held).drop skip = [] :=
    List.drop_eq_nil_of_le (by rw [length_filterMap_held]; exact Nat.le_of_lt hskip)
  rw [numberedLines_eq, Text.splitOn_join hne, List.map_append, List.map_cons, List.zipIdx_append,
    List.zipIdx_cons, List.filterMap_append, List.length_map, List.filterMap_cons, hx,
    List.drop_append, hpast, length_filterMap_held, hmore]
  rfl

theorem read_replaced {before after : List Text.Line} {line line' : Text.Line} {skip : Nat}
    (hline : line.isBlank = false) (hline' : line'.isBlank = false)
    (hskip : before.countP (fun l => !l.isBlank) < skip) :
    read (String.ofList (Text.join (before ++ line :: after))) skip =
      read (String.ofList (Text.join (before ++ line' :: after))) skip := by
  obtain ⟨rest, hdrop⟩ := drop_numberedLines after hskip
  rw [read, read, String.toList_ofList, String.toList_ofList, hdrop line hline,
    hdrop line' hline']

/-- From a journal of events, however they are set on their lines, exactly those that are not
skipped are read, in order and each with the number of its line.  In any journal a line that holds
something may hold anything else instead, if it is one of those that are skipped. -/
theorem read_written (skip : Nat) :
    (∀ ls : List JournalLine, (entries ls).map (·.event) = ls.filterMap (·.event) ∧
      read (String.ofList (Text.join (ls.map JournalLine.line))) skip =
        .ok ((entries ls).drop skip)) ∧
    ∀ (before after : List Text.Line) (line line' : Text.Line), line.isBlank = false →
      line'.isBlank = false → before.countP (fun l => !l.isBlank) < skip →
        read (String.ofList (Text.join (before ++ line :: after))) skip =
          read (String.ofList (Text.join (before ++ line' :: after))) skip :=
  ⟨fun ls => ⟨events_entries ls, read_join ls skip⟩,
    fun _ _ _ _ hline hline' hskip => read_replaced hline hline' hskip⟩

/- A journal of two events with an empty line between them, and a comment in place of the first. -/

theorem blank_return : ∀ c ∈ ['\r'], Text.isBlank c = true := fun _ hc =>
  List.mem_singleton.1 hc ▸ rfl

theorem unbroken_return : '\n' ∉ ['\r'] := by decide

theorem unbroken_comment : '\n' ∉ ['#'] := by decide

def claimThenSubmit : List JournalLine :=
  let nothing : Margin := ⟨[], fun _ hc => absurd hc List.not_mem_nil, List.not_mem_nil⟩
  let carriageReturn : Margin := ⟨['\r'], blank_return, unbroken_return⟩
  [⟨nothing, some (.claim Bounded.zero none), carriageReturn⟩,
    ⟨carriageReturn, none, carriageReturn⟩,
    ⟨nothing, some (.submit .zero Bounded.zero), nothing⟩]

def comment : Text.Line := ⟨['#'], unbroken_comment⟩

theorem read_written_comment :
    read (String.ofList (Text.join (comment :: claimThenSubmit.tail.map JournalLine.line))) 1 =
      .ok [⟨3, .submit .zero Bounded.zero⟩] := by
  obtain ⟨hread, hreplaced⟩ := read_written 1
  have hsame := hreplaced [] (claimThenSubmit.tail.map JournalLine.line)
    (claimThenSubmit.head (List.cons_ne_nil _ _)).line comment
    (JournalLine.isBlank_line _) rfl (by decide)
  exact hsame.symm.trans (hread claimThenSubmit).2

end Journal
end LiquidStaking

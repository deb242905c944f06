/-
JSON there and back.

In whatever layout a value is written, reading gives it again and leaves what follows.  A number is
the only value that does not say where it ends, so what follows may not go on with one.
-/
import LiquidStaking.Json.Reader
import LiquidStaking.Json.Writer
import LiquidStaking.Proofs.Text.Digits
import Mathlib.Data.List.TakeDrop

namespace LiquidStaking

theorem mapM_map_pure {m : Type → Type} [Monad m] [LawfulMonad m] {α β : Type} {f : α → β}
    {g : β → m α} (h : ∀ a, g (f a) = pure a) (xs : List α) : (xs.map f).mapM g = pure xs := by
  induction xs with
  | nil => exact List.mapM_nil
  | cons x xs ih => rw [List.map_cons, List.mapM_cons, h, ih, pure_bind, pure_bind]

namespace Json

/-- What holds of a value as soon as it holds of all its parts holds of every value. -/
@[elab_as_elim]
theorem induct {motive : Json → Prop} (null : motive null) (bool : ∀ b, motive (bool b))
    (int : ∀ negative n, motive (int negative n)) (text : ∀ s, motive (text s))
    (list : ∀ xs, (∀ x ∈ xs, motive x) → motive (list xs))
    (record : ∀ fs, (∀ f ∈ fs, motive f.2) → motive (record fs)) (other : motive other) :
    ∀ j : Json, motive j
  | .null => null
  | .bool b => bool b
  | .int negative n => int negative n
  | .text s => text s
  | .list xs => list xs (fun x _ => induct null bool int text list record other x)
  | .record fs => record fs (fun f _ => induct null bool int text list record other f.2)
  | .other => other
termination_by j => sizeOf j
decreasing_by
  · next h =>
    have := List.sizeOf_lt_of_mem h
    simp only [Json.list.sizeOf_spec]
    omega
  · next h =>
    have := List.sizeOf_lt_of_mem h
    obtain ⟨name, value⟩ := f
    simp only [Prod.mk.sizeOf_spec, Json.record.sizeOf_spec] at this ⊢
    omega

theorem skipBlank_append {bs : List Char} (h : ∀ c ∈ bs, isBlank c = true) (cs : List Char) :
    skipBlank (bs ++ cs) = skipBlank cs := List.dropWhile_append_of_pos h

theorem skipBlank_cons {c : Char} (h : isBlank c = false) (r : List Char) :
    skipBlank (c :: r) = c :: r := List.dropWhile_cons_of_neg (by rw [h]; decide)

/-! ### Texts -/

theorem readPieces_escaped {e c : Char} (he : e ≠ 'u') (hc : unescape? e = some c)
    (cs : List Char) : readPieces ('\\' :: e :: cs) =
      (readPieces cs).map (fun p => (.char c :: p.1, p.2)) := by
  rw [readPieces.eq_def]
  simp only [if_neg (by decide : ¬ '\\' = '"'), if_true, if_neg he, hc]
  cases readPieces cs <;> rfl

theorem readPieces_code {n : Nat} (h : n < 32) (cs : List Char) :
    readPieces ('\\' :: 'u' :: Text.hexDigits 4 n ++ cs) =
      (readPieces cs).map (fun p => (.code n :: p.1, p.2)) := by
  have hvalue : ∀ n, n < 32 → Text.ofDigits? 16 (Text.hexDigits 4 n) = some n := by decide
  have hdigits : Text.hexDigits 4 n = [Text.hexDigit (n / 16 / 16 / 16 % 16),
    Text.hexDigit (n / 16 / 16 % 16), Text.hexDigit (n / 16 % 16), Text.hexDigit (n % 16)] := rfl
  have hread := hvalue n h
  rw [hdigits] at hread ⊢
  rw [List.cons_append, List.cons_append, readPieces.eq_def]
  simp only [List.cons_append, List.nil_append, if_neg (by decide : ¬ '\\' = '"'), if_true, hread]
  cases readPieces cs <;> rfl

theorem readPieces_plain {c : Char} (hquote : c ≠ '"') (hescape : c ≠ '\\')
    (hcontrol : ¬ c.toNat < 32) (cs : List Char) :
    readPieces (c :: cs) = (readPieces cs).map (fun p => (.char c :: p.1, p.2)) := by
  rw [readPieces.eq_def]
  simp only [if_neg hquote, if_neg hescape, if_neg hcontrol]
  cases readPieces cs <;> rfl

/-- A character is read as one piece, which denotes it. -/
theorem readPieces_escape (c : Char) :
    ∃ p : Piece, (∀ ps, joinPieces (p :: ps) = (joinPieces ps).map (c :: ·)) ∧
      ∀ cs, readPieces (escape c ++ cs) = (readPieces cs).map (fun q => (p :: q.1, q.2)) := by
  have hcode : ∀ n, c.toNat = n → c = Char.ofNat n := fun n h => h ▸ (Char.ofNat_toNat c).symm
  unfold escape
  split
  · next h => exact ⟨.char c, fun _ => rfl, readPieces_escaped (by decide) (by rw [h]; rfl)⟩
  split
  · next h => exact ⟨.char c, fun _ => rfl, readPieces_escaped (by decide) (by rw [h]; rfl)⟩
  split
  · next h => exact ⟨.char c, fun _ => rfl, readPieces_escaped (by decide) (by rw [h]; rfl)⟩
  split
  · next h => exact ⟨.char c, fun _ => rfl, readPieces_escaped (by decide) (by rw [h]; rfl)⟩
  split
  · next h => exact ⟨.char c, fun _ => rfl, readPieces_escaped (by decide) (by rw [h]; rfl)⟩
  split
  · next h =>
    exact ⟨.char c, fun _ => rfl, readPieces_escaped (by decide) (by rw [hcode 8 h]; rfl)⟩
  split
  · next h =>
    exact ⟨.char c, fun _ => rfl, readPieces_escaped (by decide) (by rw [hcode 12 h]; rfl)⟩
  split
  · next h =>
    refine ⟨.code c.toNat, fun ps => ?_, readPieces_code h⟩
    have hhigh : isHighHalf c.toNat = false := by
      simp only [isHighHalf, Bool.and_eq_false_iff, decide_eq_false_iff_not]
      omega
    have hlow : isLowHalf c.toNat = false := by
      simp only [isLowHalf, Bool.and_eq_false_iff, decide_eq_false_iff_not]
      omega
    rw [joinPieces.eq_def]
    simp only [hhigh, hlow, Bool.false_eq_true, if_false, Char.ofNat_toNat]
  · next hquote hescape _ _ _ _ _ hcontrol =>
    exact ⟨.char c, fun _ => rfl, readPieces_plain hquote hescape hcontrol⟩

theorem readPieces_flatMap (rest : List Char) : ∀ cs : List Char,
    ∃ ps, joinPieces ps = some cs ∧
      readPieces (cs.flatMap escape ++ '"' :: rest) = some (ps, rest)
  | [] => ⟨[], rfl, by rw [List.flatMap_nil, List.nil_append, readPieces.eq_def]; rfl⟩
  | c :: cs => by
    obtain ⟨p, hjoin, hread⟩ := readPieces_escape c
    obtain ⟨ps, hjoins, hreads⟩ := readPieces_flatMap rest cs
    refine ⟨p :: ps, ?_, ?_⟩
    · rw [hjoin, hjoins]
      rfl
    · rw [List.flatMap_cons, List.append_assoc, hread, hreads]
      rfl

theorem readText_quoted (s : String) (rest : List Char) :
    readText (s.toList.flatMap escape ++ '"' :: rest) = some (some s, rest) := by
  obtain ⟨ps, hjoin, hread⟩ := readPieces_flatMap rest s.toList
  rw [readText, hread]
  simp only [hjoin, Option.map_some, String.ofList_toList]

theorem quote_append (s : String) (rest : List Char) :
    quote s ++ rest = '"' :: (s.toList.flatMap escape ++ '"' :: rest) := by
  rw [quote, List.append_assoc]
  rfl

/-! ### Numbers -/

/-- Whether a text does not go on with a number. -/
def Stops (rest : List Char) : Prop :=
  ∀ c r, rest = c :: r → Text.isDigit c = false ∧ c ≠ '.' ∧ c ≠ 'e' ∧ c ≠ 'E'

theorem Stops.nil : Stops [] := fun _ _ h => nomatch h

theorem Stops.cons {c : Char} (h : Text.isDigit c = false ∧ c ≠ '.' ∧ c ≠ 'e' ∧ c ≠ 'E')
    (r : List Char) : Stops (c :: r) := by
  intro _ _ heq
  cases heq
  exact h

theorem Stops.blanks {bs : List Char} (hbs : ∀ c ∈ bs, isBlank c = true) {rest : List Char}
    (h : Stops rest) : Stops (bs ++ rest) := by
  cases bs with
  | nil => exact h
  | cons c r =>
    have hc := hbs c List.mem_cons_self
    simp only [isBlank, Bool.or_eq_true, beq_iff_eq] at hc
    rcases hc with ((rfl | rfl) | rfl) | rfl <;> exact .cons (by decide) _

theorem Stops.startsFraction {rest : List Char} (h : Stops rest) :
    startsFraction rest = false := by
  cases rest with
  | nil => rfl
  | cons c r =>
    obtain ⟨-, hdot, hlower, hupper⟩ := h c r rfl
    simp only [Json.startsFraction, Bool.or_eq_false_iff, beq_eq_false_iff_ne]
    exact ⟨⟨hdot, hlower⟩, hupper⟩

theorem readDigits_append {ds : List Char} (hds : ∀ c ∈ ds, Text.isDigit c = true)
    {rest : List Char} (h : Stops rest) : readDigits (ds ++ rest) = (ds, rest) := by
  rw [readDigits, List.span_eq_takeWhile_dropWhile, List.takeWhile_append_of_pos hds,
    List.dropWhile_append_of_pos hds]
  cases rest with
  | nil => simp
  | cons c r =>
    have hdigit := (h c r rfl).1
    rw [List.takeWhile_cons_of_neg (by rw [hdigit]; decide),
      List.dropWhile_cons_of_neg (by rw [hdigit]; decide), List.append_nil]

theorem readMagnitude_decimal (negative : Bool) (n : Nat) {rest : List Char}
    (h : Stops rest) :
    readMagnitude negative (Text.decimal n ++ rest) = some (int negative n, rest) := by
  have hread := readDigits_append (Text.isDigit_of_mem_decimal n) h
  have hvalue := Text.ofDigits?_decimal n
  obtain ⟨c, r, hdigits, -, hzero⟩ := Text.decimal_eq_cons n
  rw [hdigits] at hread hvalue
  rw [readMagnitude, hdigits, hread]
  simp only
  rw [if_neg (fun hlead => hlead.2 (hzero hlead.1)), h.startsFraction, hvalue]
  rfl

theorem readMagnitude_other {rest : List Char} (h : Stops rest) :
    readMagnitude false ('0' :: '.' :: '0' :: rest) = some (other, rest) := by
  have hzero : ∀ c ∈ ['0'], Text.isDigit c = true := fun c hc => List.mem_singleton.1 hc ▸ rfl
  have hwhole : readDigits ('0' :: '.' :: '0' :: rest) = (['0'], '.' :: '0' :: rest) := rfl
  have hskip : skipDigits ('0' :: rest) = some rest := by
    rw [skipDigits, show readDigits ('0' :: rest) = (['0'], rest) from readDigits_append hzero h]
  have hexponent : skipExponent rest = some rest := by
    cases rest with
    | nil => rfl
    | cons c r =>
      obtain ⟨-, -, hlower, hupper⟩ := h c r rfl
      rw [skipExponent.eq_def]
      exact if_neg (not_or.2 ⟨hlower, hupper⟩)
  simp only [readMagnitude, hwhole]
  rw [if_neg (fun hlead => hlead.2 rfl), if_pos (by rfl), skipFraction, if_pos rfl]
  simp only [hskip, hexponent, Option.map_some]

/-! ### Values -/

/-- A layout that puts nothing but blanks between the parts of a value, and a colon after names. -/
structure Layout.Blank (l : Layout) : Prop where
  breaks : ∀ depth, ∀ c ∈ l.breakAt depth, isBlank c = true
  colon : ∃ bs, l.colon = ':' :: bs ∧ ∀ c ∈ bs, isBlank c = true

theorem Layout.compact_blank : Layout.compact.Blank :=
  ⟨fun _ _ h => (nomatch h), [], rfl, fun _ h => (nomatch h)⟩

theorem Layout.pretty_blank : Layout.pretty.Blank := by
  refine ⟨fun depth c hc => ?_, [' '], rfl, fun c hc => List.mem_singleton.1 hc ▸ rfl⟩
  rcases List.mem_cons.1 hc with rfl | hc
  · rfl
  · rw [List.eq_of_mem_replicate hc]
    rfl

/-- A value that is read again from what a layout writes, at any depth and before anything that
does not go on with a number.  The steps that reading may take are no fewer than the characters. -/
def ReadsBack (l : Layout) (j : Json) : Prop :=
  ∀ (depth n : Nat) (rest : List Char), (render l depth j).length ≤ n → Stops rest →
    readValue n (render l depth j ++ rest) = some (j, rest)

variable {l : Layout}

theorem readValue_blanks {bs : List Char} (h : ∀ c ∈ bs, isBlank c = true) (n : Nat)
    (cs : List Char) : readValue n (bs ++ cs) = readValue n cs := by
  cases n with
  | zero => rfl
  | succ n => simp only [readValue, skipBlank_append h]

theorem readItems_blanks {bs : List Char} (h : ∀ c ∈ bs, isBlank c = true) (n : Nat)
    (cs : List Char) : readItems n (bs ++ cs) = readItems n cs := by
  cases n with
  | zero => rfl
  | succ n => simp only [readItems, readValue_blanks h]

theorem readField_blanks {bs : List Char} (h : ∀ c ∈ bs, isBlank c = true) (n : Nat)
    (cs : List Char) : readField n (bs ++ cs) = readField n cs := by
  cases n with
  | zero => rfl
  | succ n => simp only [readField, skipBlank_append h]

theorem readFields_blanks {bs : List Char} (h : ∀ c ∈ bs, isBlank c = true) (n : Nat)
    (cs : List Char) : readFields n (bs ++ cs) = readFields n cs := by
  cases n with
  | zero => rfl
  | succ n => simp only [readFields, readField_blanks h]

/-- The items of a list, up to a closing bracket that blanks may stand before. -/
theorem readItems_render (hl : l.Blank) (depth : Nat) {bs : List Char}
    (hbs : ∀ c ∈ bs, isBlank c = true) (rest : List Char) :
    ∀ (xs : List Json) (x : Json) (n : Nat), (∀ y ∈ x :: xs, ReadsBack l y) →
      (render l depth x ++ renderItems l depth xs).length < n →
        readItems n (render l depth x ++ (renderItems l depth xs ++ (bs ++ ']' :: rest))) =
          some (x :: xs, rest)
  | xs, x, 0, _, hn => absurd hn (Nat.not_lt_zero _)
  | [], x, n + 1, hread, hn => by
    have hstop : Stops (bs ++ ']' :: rest) := .blanks hbs (.cons (by decide) rest)
    have hx := hread x List.mem_cons_self depth n _ (by simp [renderItems] at hn; omega) hstop
    simp only [renderItems, List.nil_append, readItems, hx, skipBlank_append hbs,
      skipBlank_cons (by decide : isBlank ']' = false)]
    rfl
  | y :: ys, x, n + 1, hread, hn => by
    simp only [renderItems, List.length_append, List.length_cons] at hn
    have htail : renderItems l depth (y :: ys) ++ (bs ++ ']' :: rest) =
        ',' :: (l.breakAt depth ++
          (render l depth y ++ (renderItems l depth ys ++ (bs ++ ']' :: rest)))) := by
      simp only [renderItems, List.cons_append, List.append_assoc]
    have hstop : Stops (renderItems l depth (y :: ys) ++ (bs ++ ']' :: rest)) :=
      htail ▸ .cons (by decide) _
    have hx := hread x List.mem_cons_self depth n _ (by omega) hstop
    have hys := readItems_render hl depth hbs rest ys y n
      (fun z hz => hread z (List.mem_cons_of_mem _ hz)) (by simp only [List.length_append]; omega)
    simp only [readItems, hx]
    simp only [htail, skipBlank_cons (by decide : isBlank ',' = false), if_true,
      readItems_blanks (hl.breaks depth), hys, Option.map_some]

theorem readField_render (hl : l.Blank) (depth : Nat) {f : String × Json} (hf : ReadsBack l f.2)
    {n : Nat} (hn : (renderField l depth f).length ≤ n) {rest : List Char} (hrest : Stops rest) :
    readField n (renderField l depth f ++ rest) = some ((some f.1, f.2), rest) := by
  obtain ⟨name, value⟩ := f
  obtain ⟨bs, hcolon, hbs⟩ := hl.colon
  simp only [renderField, quote, hcolon, List.length_append, List.length_cons] at hn
  obtain _ | n := n
  · omega
  · have hvalue := hf depth n rest (by simp only; omega) hrest
    have htext : renderField l depth (name, value) ++ rest =
        '"' :: (name.toList.flatMap escape ++
          '"' :: ':' :: (bs ++ (render l depth value ++ rest))) := by
      simp only [renderField, hcolon, List.append_assoc, quote_append, List.cons_append]
    simp only [readField, htext, skipBlank_cons (by decide : isBlank '"' = false), if_true,
      readText_quoted, skipBlank_cons (by decide : isBlank ':' = false), readValue_blanks hbs,
      hvalue, Option.map_some]

/-- The fields of a record, up to a closing brace that blanks may stand before. -/
theorem readFields_render (hl : l.Blank) (depth : Nat) {bs : List Char}
    (hbs : ∀ c ∈ bs, isBlank c = true) (rest : List Char) :
    ∀ (fs : List (String × Json)) (f : String × Json) (n : Nat),
      (∀ g ∈ f :: fs, ReadsBack l g.2) →
        (renderField l depth f ++ renderFields l depth fs).length < n →
          readFields n (renderField l depth f ++
              (renderFields l depth fs ++ (bs ++ '\x7d' :: rest))) =
            some ((f :: fs).map (fun g => (some g.1, g.2)), rest)
  | fs, f, 0, _, hn => absurd hn (Nat.not_lt_zero _)
  | [], f, n + 1, hread, hn => by
    have hstop : Stops (bs ++ '\x7d' :: rest) := .blanks hbs (.cons (by decide) rest)
    have hf := readField_render hl depth (hread f List.mem_cons_self) (n := n)
      (by simp [renderFields] at hn; omega) hstop
    simp only [renderFields, List.nil_append, readFields, hf, skipBlank_append hbs,
      skipBlank_cons (by decide : isBlank '\x7d' = false)]
    rfl
  | g :: gs, f, n + 1, hread, hn => by
    simp only [renderFields, List.length_append, List.length_cons] at hn
    have htail : renderFields l depth (g :: gs) ++ (bs ++ '\x7d' :: rest) =
        ',' :: (l.breakAt depth ++
          (renderField l depth g ++ (renderFields l depth gs ++ (bs ++ '\x7d' :: rest)))) := by
      simp only [renderFields, List.cons_append, List.append_assoc]
    have hstop : Stops (renderFields l depth (g :: gs) ++ (bs ++ '\x7d' :: rest)) :=
      htail ▸ .cons (by decide) _
    have hf := readField_render hl depth (hread f List.mem_cons_self) (n := n) (by omega) hstop
    have hgs := readFields_render hl depth hbs rest gs g n
      (fun z hz => hread z (List.mem_cons_of_mem _ hz)) (by simp only [List.length_append]; omega)
    simp only [readFields, hf]
    simp only [htail, skipBlank_cons (by decide : isBlank ',' = false), if_true,
      readFields_blanks (hl.breaks depth), hgs, Option.map_some, List.map_cons]

theorem ofFields_some (fs : List (String × Json)) :
    ofFields (fs.map (fun g => (some g.1, g.2))) = record fs := by
  have hnames : (fs.map (fun g => (some g.1, g.2))).mapM
      (fun f : Option String × Json => f.1.map (fun name => (name, f.2))) = some fs :=
    mapM_map_pure (g := fun f : Option String × Json => f.1.map (fun name => (name, f.2)))
      (fun _ => rfl) fs
  rw [ofFields, hnames]

theorem isBlank_of_isDigit {c : Char} (hc : Text.isDigit c = true) : isBlank c = false := by
  simp only [isBlank, Bool.or_eq_false_iff, beq_eq_false_iff_ne]
  exact ⟨⟨⟨Text.ne_of_isDigit hc (by decide), Text.ne_of_isDigit hc (by decide)⟩,
    Text.ne_of_isDigit hc (by decide)⟩, Text.ne_of_isDigit hc (by decide)⟩

theorem readValue_number {c : Char} (hc : c = '-' ∨ Text.isDigit c = true) (n : Nat)
    (r : List Char) : readValue (n + 1) (c :: r) = readNumber (c :: r) := by
  have hother : ∀ d : Char, d ≠ '-' → Text.isDigit d = false → c ≠ d := by
    intro d hsign hd
    rcases hc with rfl | hc
    · exact hsign.symm
    · exact Text.ne_of_isDigit hc hd
  have hblank : isBlank c = false := by
    rcases hc with rfl | hc
    · rfl
    · exact isBlank_of_isDigit hc
  simp only [readValue, skipBlank_cons hblank, if_neg (hother '"' (by decide) (by decide)),
    if_neg (hother '[' (by decide) (by decide)), if_neg (hother '\x7b' (by decide) (by decide)),
    if_neg (hother 'n' (by decide) (by decide)), if_neg (hother 't' (by decide) (by decide)),
    if_neg (hother 'f' (by decide) (by decide))]

/-- Every value starts with a character that is neither blank nor a closing bracket. -/
theorem render_eq_cons (l : Layout) (depth : Nat) (j : Json) :
    ∃ c r, render l depth j = c :: r ∧ isBlank c = false ∧ c ≠ ']' := by
  cases j with
  | null => exact ⟨_, _, rfl, by decide, by decide⟩
  | bool b => cases b <;> exact ⟨_, _, rfl, by decide, by decide⟩
  | int negative n =>
    cases negative with
    | true => exact ⟨_, _, rfl, by decide, by decide⟩
    | false =>
      obtain ⟨c, r, hdigits, hdigit, -⟩ := Text.decimal_eq_cons n
      exact ⟨c, r, hdigits, isBlank_of_isDigit hdigit, Text.ne_of_isDigit hdigit (by decide)⟩
  | text s => exact ⟨_, _, rfl, by decide, by decide⟩
  | list items => cases items <;> exact ⟨_, _, rfl, by decide, by decide⟩
  | record fields => cases fields <;> exact ⟨_, _, rfl, by decide, by decide⟩
  | other => exact ⟨_, _, rfl, by decide, by decide⟩

theorem readsBack_null (l : Layout) : ReadsBack l null
  | _, _ + 4, _, _, _ => rfl

theorem readsBack_bool (l : Layout) : ∀ b : Bool, ReadsBack l (bool b)
  | true, _, _ + 4, _, _, _ => rfl
  | false, _, _ + 5, _, _, _ => rfl

theorem readsBack_other (l : Layout) : ReadsBack l other
  | _, n + 3, rest, _, hrest => by
    show readValue (n + 3) ('0' :: '.' :: '0' :: rest) = _
    rw [readValue_number (.inr (by decide)), readNumber, if_neg (by decide)]
    exact readMagnitude_other hrest

theorem readsBack_int (l : Layout) (negative : Bool) (m : Nat) :
    ReadsBack l (int negative m) := by
  intro depth n rest hn hrest
  obtain ⟨c, r, hcons, -⟩ := render_eq_cons l depth (int negative m)
  rw [hcons, List.length_cons] at hn
  obtain _ | n := n
  · omega
  · cases negative with
    | true =>
      show readValue (n + 1) ('-' :: (Text.decimal m ++ rest)) = _
      rw [readValue_number (.inl rfl)]
      exact readMagnitude_decimal true m hrest
    | false =>
      obtain ⟨c, r, hdigits, hdigit, -⟩ := Text.decimal_eq_cons m
      have hsign : c ≠ '-' := Text.ne_of_isDigit hdigit (by decide)
      show readValue (n + 1) (Text.decimal m ++ rest) = _
      rw [hdigits, List.cons_append, readValue_number (.inr hdigit), readNumber, if_neg hsign,
        ← List.cons_append, ← hdigits]
      exact readMagnitude_decimal false m hrest

theorem readsBack_text (l : Layout) (s : String) : ReadsBack l (text s) := by
  intro depth n rest hn hrest
  obtain _ | n := n
  · cases hn
  · show readValue (n + 1) (quote s ++ rest) = _
    simp only [quote_append, readValue, skipBlank_cons (by decide : isBlank '"' = false), if_true,
      readText_quoted]

theorem readsBack_list (hl : l.Blank) : ∀ {xs : List Json}, (∀ x ∈ xs, ReadsBack l x) →
    ReadsBack l (list xs)
  | [], _, depth, n + 2, rest, hn, hrest => rfl
  | x :: xs, hxs, depth, n + 1, rest, hn, hrest => by
    simp only [render, List.length_append, List.length_cons] at hn
    obtain ⟨c, r, hcons, hblank, hbracket⟩ := render_eq_cons l (depth + 1) x
    have hitems := readItems_render hl (depth + 1) (hl.breaks depth) rest xs x n hxs
      (by simp only [List.length_append]; omega)
    have htext : render l depth (list (x :: xs)) ++ rest = '[' :: (l.breakAt (depth + 1) ++
        (render l (depth + 1) x ++
          (renderItems l (depth + 1) xs ++ (l.breakAt depth ++ ']' :: rest)))) := by
      simp only [render, List.append_assoc, List.cons_append, List.nil_append]
    rw [htext]
    simp only [hcons, List.cons_append] at hitems ⊢
    simp only [readValue, skipBlank_cons (by decide : isBlank '[' = false),
      if_neg (by decide : ¬ '[' = '"'), if_true, skipBlank_append (hl.breaks _),
      skipBlank_cons hblank, if_neg hbracket, hitems, Option.map_some]

theorem readsBack_record (hl : l.Blank) : ∀ {fs : List (String × Json)},
    (∀ f ∈ fs, ReadsBack l f.2) → ReadsBack l (record fs)
  | [], _, depth, n + 2, rest, hn, hrest => rfl
  | f :: fs, hfs, depth, n + 1, rest, hn, hrest => by
    simp only [render, List.length_append, List.length_cons] at hn
    have hfields := readFields_render hl (depth + 1) (hl.breaks depth) rest fs f n hfs
      (by simp only [List.length_append]; omega)
    obtain ⟨r, hcons⟩ : ∃ r, renderField l (depth + 1) f = '"' :: r := by
      obtain ⟨name, value⟩ := f
      exact ⟨_, by rw [renderField, List.append_assoc, quote_append]⟩
    have htext : render l depth (record (f :: fs)) ++ rest = '\x7b' :: (l.breakAt (depth + 1) ++
        (renderField l (depth + 1) f ++
          (renderFields l (depth + 1) fs ++ (l.breakAt depth ++ '\x7d' :: rest)))) := by
      simp only [render, List.append_assoc, List.cons_append, List.nil_append]
    rw [htext]
    simp only [hcons, List.cons_append] at hfields ⊢
    simp only [readValue, skipBlank_cons (by decide : isBlank '\x7b' = false),
      if_neg (by decide : ¬ '\x7b' = '"'), if_neg (by decide : ¬ '\x7b' = '['), if_true,
      skipBlank_append (hl.breaks _), skipBlank_cons (by decide : isBlank '"' = false),
      if_neg (by decide : ¬ '"' = '\x7d'), hfields, Option.map_some, ofFields_some]

theorem readsBack (hl : l.Blank) (j : Json) : ReadsBack l j := by
  induction j using Json.induct with
  | null => exact readsBack_null l
  | bool b => exact readsBack_bool l b
  | int negative n => exact readsBack_int l negative n
  | text s => exact readsBack_text l s
  | list xs ih => exact readsBack_list hl ih
  | record fs ih => exact readsBack_record hl ih
  | other => exact readsBack_other l

theorem ofChars?_render (hl : l.Blank) (j : Json) : ofChars? (render l 0 j) = some j := by
  have hread := readsBack hl j 0 (3 * (render l 0 j).length + 3) [] (by omega) .nil
  rw [List.append_nil] at hread
  rw [ofChars?, hread]
  rfl

theorem ofChars?_compact (j : Json) : ofChars? j.compact.toList = some j := by
  rw [compact, String.toList_ofList]
  exact ofChars?_render Layout.compact_blank j

theorem ofChars?_pretty (j : Json) : ofChars? j.pretty.toList = some j := by
  rw [pretty, String.toList_ofList]
  exact ofChars?_render Layout.pretty_blank j

end Json
end LiquidStaking

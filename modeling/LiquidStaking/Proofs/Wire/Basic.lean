/-
Stored forms there and back.

What is written as JSON is read as the same value.  For a record it is enough that the names of its
fields differ and that every field is read as it was written.
-/
import LiquidStaking.Proofs.Address
import LiquidStaking.Proofs.AddressMap
import LiquidStaking.Proofs.Json.RoundTrip
import LiquidStaking.Wire.Basic
import Mathlib.Data.List.Nodup

namespace LiquidStaking

/-- A type whose stored form is read as the value it was written from. -/
class LawfulWire (α : Type) [Wire α] : Prop where
  read_write (a : α) : (Wire.read (Wire.write a) : Except Misread α) = .ok a

namespace Row

variable {α : Type} {names : List String} {fields : List (String × Json)}

theorem read_record (hnames : fields.map Prod.fst = names) (hdistinct : names.Nodup) :
    Row.read names (Json.record fields) = .ok ⟨names, .named fields⟩ := by
  have hfits : fits names (Parts.named fields) = true := by
    refine List.all_eq_true.2 (fun name _ => decide_eq_true ?_)
    have hcount : (fields.filter (fun f => f.1 == name)).length = names.count name := by
      rw [← hnames, List.count, List.countP_map, List.countP_eq_length_filter]
      rfl
    rw [hcount]
    exact List.nodup_iff_count_le_one.1 hdistinct name
  show (if fits names (Parts.named fields) = true then _ else _) = _
  rw [if_pos hfits]
  rfl

/-- A record that was written is read field by field. -/
theorem read_bind (hnames : fields.map Prod.fst = names) (hdistinct : names.Nodup)
    (f : Row Json → Except Misread α) :
    (Row.read names (Json.record fields) >>= f) = f ⟨names, .named fields⟩ := by
  rw [read_record hnames hdistinct, ok_bind]

@[simp] theorem required_named (name : String) (read : Json → Except Misread α) :
    required ⟨names, .named fields⟩ name read =
      (fields.lookup name).elim (.error .malformed) read := by
  cases h : fields.lookup name <;> simp only [required, cell?, h] <;> rfl

@[simp] theorem defaulted_named (name : String) (read : Json → Except Misread α) (d : α) :
    defaulted ⟨names, .named fields⟩ name read d = (fields.lookup name).elim (.ok d) read := by
  cases h : fields.lookup name <;> simp only [defaulted, cell?, h] <;> rfl

@[simp] theorem optional_named (name : String) (read : Json → Except Misread (Option α)) :
    optional ⟨names, .named fields⟩ name read = (fields.lookup name).elim (.ok none) read := by
  cases h : fields.lookup name <;> simp only [optional, cell?, h] <;> rfl

end Row

namespace Wire

variable {α : Type}

@[simp] theorem read_write [Wire α] [LawfulWire α] (a : α) :
    (read (write a) : Except Misread α) = .ok a := LawfulWire.read_write a

instance : LawfulWire String := ⟨fun _ => rfl⟩

instance : LawfulWire Bool := ⟨fun _ => rfl⟩

instance {bits : Nat} : LawfulWire (Bounded bits) :=
  ⟨fun a => congrArg Misread.expect a.ofNat?_val⟩

@[simp] theorem readAddress_text (a : Address) : readAddress a.text = .ok a :=
  mapError_eq_ok.2 a.ofText_text

instance : LawfulWire Address where
  read_write a := by
    show (Except.ok a.text >>= readAddress) = .ok a
    rw [ok_bind, readAddress_text]

@[simp] theorem readList_writeList [Wire α] [LawfulWire α] (xs : List α) :
    readList (writeList xs) = .ok xs := mapM_map_pure read_write xs

instance [Wire α] [LawfulWire α] : LawfulWire (List α) := ⟨readList_writeList⟩

/-- Nothing is written as null, so that is what nothing but null may be written as. -/
theorem lawfulOption [Wire α] [LawfulWire α] (h : ∀ a : α, Source.isNull (write a) = false) :
    LawfulWire (Option α) where
  read_write
    | none => rfl
    | some a => by
      show (if Source.isNull (write a) = true then _ else read (write a) >>= fun a => pure (some a)) = _
      rw [h, read_write]
      rfl

instance {bits : Nat} : LawfulWire (Option (Bounded bits)) := lawfulOption (fun _ => rfl)

end Wire

theorem AddressMap.ofList_entries {α : Type} (m : AddressMap α) : ofList m.entries = m := by
  refine ext_get? (fun k => ?_)
  show (empty.insertAll m.entries).get? k = m.get? k
  rw [get?_overlay]
  exact Option.or_none

namespace Wire

variable {α : Type}

instance [Wire α] [LawfulWire α] : LawfulWire (AddressMap α) where
  read_write m := by
    have hentry : ∀ e : Address × α, readEntry (e.1.text, (write e.2 : Json)) = .ok e := by
      intro e
      simp only [readEntry, readAddress_text, read_write]
      rfl
    show ((m.entries.map (fun e => (e.1.text, write e.2))).mapM readEntry >>= fun es =>
      pure (AddressMap.ofList es)) = .ok m
    rw [mapM_map_pure hentry, pure_eq_ok.2 rfl, ok_bind, AddressMap.ofList_entries]
    rfl

@[simp] theorem readSet_writeSet (s : AddressSet) : readSet (writeSet s) = .ok s := by
  have hentries : (s.entries.map Prod.fst).map (fun a => (a, ())) = s.entries := by
    rw [List.map_map]
    exact List.map_id s.entries
  have hlist : writeSet s = writeList (s.entries.map Prod.fst) :=
    congrArg Json.list List.map_map.symm
  rw [readSet, hlist, readList_writeList, ok_bind, hentries, AddressMap.ofList_entries]
  rfl

theorem plainDigits_decimal (n : Nat) : plainDigits (Text.decimal n) = Text.decimal n := by
  have hdigits := Text.isDigit_of_mem_decimal n
  have hother : ∀ d : Char, Text.isDigit d = false → d ∉ Text.decimal n := by
    intro d hd hmem
    rw [hdigits d hmem] at hd
    cases hd
  have hfilter : (Text.decimal n).filter (· ≠ '_') = Text.decimal n := by
    refine List.filter_eq_self.2 (fun c hc => decide_eq_true ?_)
    rintro rfl
    exact hother _ (by decide) hc
  unfold plainDigits
  rw [hfilter]
  split
  · next r h => exact absurd (h ▸ List.mem_cons_self) (hother '+' (by decide))
  · rfl

@[simp] theorem readDigits_writeDigits (a : Amount) : readDigits (writeDigits a) = .ok a := by
  show Misread.expect ((Text.ofDigits? 10 (plainDigits (Text.ofNat a.val).toList)).bind
    Bounded.ofNat?) = .ok a
  rw [Text.ofNat, String.toList_ofList, plainDigits_decimal, Text.ofDigits?_decimal]
  exact congrArg Misread.expect a.ofNat?_val

theorem ofText_compact [Wire α] [LawfulWire α] (a : α) : ofText (write a).compact = .ok a := by
  rw [ofText, ofChars, Json.ofChars?_compact]
  exact read_write a

theorem ofText_pretty [Wire α] [LawfulWire α] (a : α) : ofText (write a).pretty = .ok a := by
  rw [ofText, ofChars, Json.ofChars?_pretty]
  exact read_write a

end Wire
end LiquidStaking

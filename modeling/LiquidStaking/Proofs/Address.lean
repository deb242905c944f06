/-
The texts of an address.

A text is read in pairs of characters.  Two digits in either case denote a byte, and so does one
digit after a plus sign.  Nothing else is an address, and what is one is never cut inside a
character.
-/
import LiquidStaking.Address
import LiquidStaking.Proofs.Text.Digits
import LiquidStaking.Proofs.Text.Slice
import LiquidStaking.Proofs.Traversal
import Mathlib.Data.List.Induction

namespace LiquidStaking
namespace Address

variable {a b : Address} {cs hex : List Char} {c d : Char} {i : Nat}

/-! ### Bytes -/

theorem byte_lt (a : Address) (i : Nat) : a.byte i < 256 := Nat.mod_lt _ (by decide)

theorem shiftRight_byte (n k : Nat) : n >>> (8 * (k + 1)) = (n / 256) >>> (8 * k) := by
  have hbyte : n >>> 8 = n / 256 := Nat.shiftRight_eq_div_pow n 8
  rw [Nat.mul_succ, Nat.add_comm, Nat.shiftRight_add, hbyte]

theorem bound_bytes_succ (n : Nat) :
    Bounded.bound (8 * (n + 1)) = Bounded.bound (8 * n) * 256 :=
  Nat.pow_add 2 (8 * n) 8

/-- A number is known by its bytes. -/
theorem eq_of_places {n x y : Nat} (hx : x < Bounded.bound (8 * n)) (hy : y < Bounded.bound (8 * n))
    (h : ∀ k < n, x >>> (8 * k) % 256 = y >>> (8 * k) % 256) : x = y := by
  induction n generalizing x y with
  | zero => exact (Nat.lt_one_iff.1 hx).trans (Nat.lt_one_iff.1 hy).symm
  | succ n ih =>
    rw [bound_bytes_succ] at hx hy
    have hones : x % 256 = y % 256 := h 0 (Nat.succ_pos n)
    have hrest : x / 256 = y / 256 := by
      refine ih (by omega) (by omega) fun k hk => ?_
      rw [← shiftRight_byte, ← shiftRight_byte]
      exact h (k + 1) (Nat.succ_lt_succ hk)
    omega

theorem ext_bytes (h : ∀ i < 20, a.byte i = b.byte i) : a = b := by
  have hnumber : a.number.val = b.number.val := by
    refine eq_of_places (n := 20) a.number.isLt b.number.isLt fun k hk => ?_
    have hplace := h (19 - k) (by omega)
    rwa [byte, byte, Nat.sub_sub_self (Nat.le_of_lt_succ hk)] at hplace
  obtain ⟨x⟩ := a
  obtain ⟨y⟩ := b
  exact congrArg _ (Bounded.ext hnumber)

theorem joined_concat (bs : List (Bounded 8)) (b : Bounded 8) :
    joined (bs ++ [b]) = joined bs * 256 + b.val :=
  List.foldl_append

theorem joined_lt (bs : List (Bounded 8)) : joined bs < Bounded.bound (8 * bs.length) := by
  induction bs using List.reverseRecOn with
  | nil => exact Nat.one_pos
  | append_singleton bs b ih =>
    have hb : b.val < 256 := b.isLt
    rw [joined_concat, List.length_append, List.length_singleton, bound_bytes_succ]
    omega

theorem joined_place {bs : List (Bounded 8)} {x : Bounded 8} (h : bs[i]? = some x) :
    joined bs >>> (8 * (bs.length - 1 - i)) % 256 = x.val := by
  induction bs using List.reverseRecOn with
  | nil => exact absurd h (by simp)
  | append_singleton bs b ih =>
    have hb : b.val < 256 := b.isLt
    have hi := (List.getElem?_eq_some_iff.1 h).1
    rw [List.length_append, List.length_singleton] at hi
    rw [joined_concat, List.length_append, List.length_singleton, Nat.add_sub_cancel]
    by_cases hlast : i < bs.length
    · have hplace : bs.length - i = bs.length - 1 - i + 1 := by omega
      have hrest : (joined bs * 256 + b.val) / 256 = joined bs := by omega
      rw [List.getElem?_append_left hlast] at h
      rw [hplace, shiftRight_byte, hrest, ih h]
    · obtain rfl : i = bs.length := by omega
      rw [List.getElem?_append_right (Nat.le_refl _), Nat.sub_self] at h
      cases h
      rw [Nat.sub_self]
      show (joined bs * 256 + x.val) % 256 = x.val
      omega

theorem byte_ofBytes {bs : List (Bounded 8)} {x : Bounded 8} (hlength : bs.length = 20)
    (h : bs[i]? = some x) : (ofBytes bs).byte i = x.val := by
  have hlt := joined_lt bs
  have hplace := joined_place h
  rw [hlength] at hlt hplace
  have hnumber : (ofBytes bs).number.val = joined bs := Nat.min_eq_left (Nat.le_sub_one_of_lt hlt)
  rw [byte, hnumber]
  exact hplace

def bytes (a : Address) : List (Bounded 8) := (List.range 20).map fun i => ⟨a.byte i, a.byte_lt i⟩

theorem length_bytes (a : Address) : a.bytes.length = 20 := by
  rw [bytes, List.length_map, List.length_range]

theorem getElem?_bytes (a : Address) (hi : i < 20) :
    a.bytes[i]? = some ⟨a.byte i, a.byte_lt i⟩ := by
  rw [bytes, List.getElem?_map, List.getElem?_range hi]
  rfl

theorem ofBytes_bytes (a : Address) : ofBytes a.bytes = a :=
  ext_bytes fun _ hi => byte_ofBytes a.length_bytes (a.getElem?_bytes hi)

/-! ### Pairs -/

/-- Two digits that denote a byte. -/
def DigitPair (c d : Char) (byte : Nat) : Prop :=
  ∃ high low, Text.hexValue? c = some high ∧ Text.hexValue? d = some low ∧ byte = high * 16 + low

/-- Two characters that are read as a byte: a plus sign stands for a zero. -/
def Spells (c d : Char) (byte : Nat) : Prop :=
  DigitPair c d byte ∨ c = '+' ∧ Text.hexValue? d = some byte

theorem hexValue?_plus : Text.hexValue? '+' = none := by decide

theorem dropPlus_of_ne (h : c ≠ '+') (cs : List Char) : dropPlus (c :: cs) = c :: cs := by
  unfold dropPlus
  split
  · next heq => exact absurd (List.cons.inj heq).1 h
  · rfl

theorem byte?_pair_iff {x : Bounded 8} : byte? [c, d] = some x ↔ Spells c d x.val := by
  unfold Spells DigitPair byte?
  by_cases hplus : c = '+'
  · subst hplus
    have hread : Text.ofDigits? 16 (dropPlus ['+', d]) = Text.hexValue? d := by
      simp only [dropPlus, Text.ofDigits?, Text.foldDigits?, Text.digitValue?_sixteen]
      cases Text.hexValue? d <;> simp
    rw [hread, Option.bind_eq_some_iff]
    simp [hexValue?_plus, Bounded.ofNat?_eq_some_iff]
  · have hread : Text.ofDigits? 16 (dropPlus [c, d]) = (Text.hexValue? c).bind fun high =>
        (Text.hexValue? d).map fun low => high * 16 + low := by
      simp only [dropPlus_of_ne hplus, Text.ofDigits?, Text.foldDigits?, Text.digitValue?_sixteen]
      cases Text.hexValue? c with
      | none => rfl
      | some high => cases Text.hexValue? d <;> simp
    rw [hread]
    cases Text.hexValue? c with
    | none => simp [hplus]
    | some high =>
      cases Text.hexValue? d with
      | none => simp [hplus]
      | some low =>
        show Bounded.ofNat? (high * 16 + low) = some x ↔ _
        rw [Bounded.ofNat?_eq_some_iff]
        simp [hplus, eq_comm]

theorem Spells.ascii {byte : Nat} (h : Spells c d byte) :
    Text.isAscii c = true ∧ Text.isAscii d = true := by
  rcases h with ⟨high, low, hc, hd, -⟩ | ⟨rfl, hd⟩
  · exact ⟨decide_eq_true (Text.bounds_of_hexValue? hc).1,
      decide_eq_true (Text.bounds_of_hexValue? hd).1⟩
  · exact ⟨by decide, decide_eq_true (Text.bounds_of_hexValue? hd).1⟩

theorem digits_pair (a : Address) (hi : i < 20) :
    a.digits[2 * i]? = some (Text.hexDigit (a.byte i / 16)) ∧
      a.digits[2 * i + 1]? = some (Text.hexDigit (a.byte i % 16)) := by
  have hhigh : 4 * (40 - 1 - 2 * i) = 8 * (19 - i) + 4 := by omega
  have hlow : 4 * (40 - 1 - (2 * i + 1)) = 8 * (19 - i) := by omega
  unfold digits byte
  rw [Text.getElem?_hexDigits _ (by omega), Text.getElem?_hexDigits _ (by omega), hhigh, hlow,
    Nat.shiftRight_add]
  generalize a.number.val >>> (8 * (19 - i)) = place
  have hdigit : place >>> 4 = place / 16 := Nat.shiftRight_eq_div_pow place 4
  have hhighPlace : place / 16 % 16 = place % 256 / 16 := by omega
  have hlowPlace : place % 16 = place % 256 % 16 := by omega
  rw [hdigit, hhighPlace, hlowPlace]
  exact ⟨rfl, rfl⟩

theorem digitPair_digits {byte : Nat} (h : byte < 256) :
    DigitPair (Text.hexDigit (byte / 16)) (Text.hexDigit (byte % 16)) byte :=
  ⟨byte / 16, byte % 16, Text.hexValue?_hexDigit (by omega), Text.hexValue?_hexDigit (by omega),
    by omega⟩

/-! ### Reading -/

/-- Whether a text is forty characters after an optional `0x`, and each pair of them denotes the
byte of an address in its place. -/
def Denotes (pair : Char → Char → Nat → Prop) (cs : List Char) (a : Address) : Prop :=
  ∃ hex, (cs = hex ∨ cs = '0' :: 'x' :: hex) ∧ hex.length = 40 ∧
    ∀ i < 20, ∃ c d, hex[2 * i]? = some c ∧ hex[2 * i + 1]? = some d ∧ pair c d (a.byte i)

theorem dropMark_cases (cs : List Char) : cs = dropMark cs ∨ cs = '0' :: 'x' :: dropMark cs := by
  unfold dropMark
  split
  · exact .inr rfl
  · exact .inl rfl

theorem dropMark_of_spells {byte : Nat} (hc : hex[0]? = some c) (hd : hex[1]? = some d)
    (h : Spells c d byte) : dropMark hex = hex := by
  unfold dropMark
  split
  · cases hd
    have hx : Text.hexValue? 'x' = none := by decide
    rcases h with ⟨_, _, -, hd, -⟩ | ⟨-, hd⟩
    · rw [hx] at hd
      cases hd
    · rw [hx] at hd
      cases hd
  · rfl

theorem byteAt_eq (hascii : hex.all Text.isAscii = true) (hc : hex[2 * i]? = some c)
    (hd : hex[2 * i + 1]? = some d) : byteAt cs hex i = match byte? [c, d] with
      | some b => .ok b
      | none => .error (.refused (malformed cs)) := by
  obtain ⟨hlength, hd⟩ := List.getElem?_eq_some_iff.1 hd
  obtain ⟨hlow, hc⟩ := List.getElem?_eq_some_iff.1 hc
  have hpart : (hex.drop (2 * i)).take (2 * i + 2 - 2 * i) = [c, d] := by
    rw [Nat.add_sub_cancel_left, List.drop_eq_getElem_cons hlow, List.drop_eq_getElem_cons hlength,
      hc, hd]
    rfl
  unfold byteAt
  rw [Text.slice_of_ascii hascii (Nat.le_add_right _ _) hlength, hpart, ok_bind]
  cases byte? [c, d] with
  | none => rfl
  | some b => rfl

theorem exists_pair (hlength : hex.length = 40) (hi : i < 20) :
    ∃ c d, hex[2 * i]? = some c ∧ hex[2 * i + 1]? = some d :=
  ⟨_, _, List.getElem?_eq_getElem (by omega), List.getElem?_eq_getElem (by omega)⟩

theorem parse_eq (cs : List Char) :
    parse cs = if (dropMark cs).length = 40 ∧ (dropMark cs).all Text.isAscii = true then
        (List.range 20).mapM (byteAt cs (dropMark cs)) >>= fun bs => pure (ofBytes bs)
      else .error (.refused (malformed cs)) := by
  have hbytes : Text.byteLength (dropMark cs) = 40 ∧ (dropMark cs).all Text.isAscii = true ↔
      (dropMark cs).length = 40 ∧ (dropMark cs).all Text.isAscii = true :=
    and_congr_left fun hascii => by rw [Text.byteLength_of_ascii hascii]
  exact if_congr hbytes rfl rfl

/-- Nothing that is read is cut inside a character. -/
theorem parse_fails (cs : List Char) :
    FailsOnly (fun e => e = .refused (malformed cs)) (parse cs) := by
  rw [parse_eq]
  split
  · next h =>
    refine (FailsOnly.mapM fun i hi => ?_).bind fun bs _ => .pure _
    obtain ⟨c, d, hc, hd⟩ := exists_pair h.1 (List.mem_range.1 hi)
    rw [byteAt_eq h.2 hc hd]
    cases byte? [c, d] with
    | none => exact .error rfl
    | some b => exact .ok b
  · exact .error rfl

theorem forall_of_pairs {P : Char → Prop} (hlength : hex.length = 40)
    (h : ∀ i < 20, ∃ c d, hex[2 * i]? = some c ∧ hex[2 * i + 1]? = some d ∧ P c ∧ P d) :
    ∀ x ∈ hex, P x := by
  intro x hx
  obtain ⟨j, hj⟩ := List.mem_iff_getElem?.1 hx
  have hlt := (List.getElem?_eq_some_iff.1 hj).1
  obtain ⟨c, d, hc, hd, hfirst, hsecond⟩ := h (j / 2) (by omega)
  obtain hplace | hplace : j = 2 * (j / 2) ∨ j = 2 * (j / 2) + 1 := by omega
  · rw [← hplace, hj] at hc
    cases hc
    exact hfirst
  · rw [← hplace, hj] at hd
    cases hd
    exact hsecond

/-- The characters that denote an address are those without the mark. -/
theorem denotes_spells_iff : Denotes Spells cs a ↔ (dropMark cs).length = 40 ∧ ∀ i < 20, ∃ c d,
    (dropMark cs)[2 * i]? = some c ∧ (dropMark cs)[2 * i + 1]? = some d ∧
      Spells c d (a.byte i) := by
  constructor
  · rintro ⟨hex, hcs, hlength, hpairs⟩
    have hmark : dropMark cs = hex := by
      rcases hcs with rfl | rfl
      · obtain ⟨c, d, hc, hd, hpair⟩ := hpairs 0 (by decide)
        exact dropMark_of_spells hc hd hpair
      · rfl
    rw [hmark]
    exact ⟨hlength, hpairs⟩
  · rintro ⟨hlength, hpairs⟩
    exact ⟨dropMark cs, dropMark_cases cs, hlength, hpairs⟩

theorem parse_eq_ok_iff : parse cs = .ok a ↔ Denotes Spells cs a := by
  rw [parse_eq, denotes_spells_iff]
  constructor
  · intro h
    split at h
    · next hguard =>
      obtain ⟨hlength, hascii⟩ := hguard
      obtain ⟨bs, hbs, h⟩ := bind_eq_ok.1 h
      obtain rfl := pure_eq_ok.1 h
      obtain ⟨hcount, hbyte⟩ := mapM_range_eq_ok_iff.1 hbs
      refine ⟨hlength, fun i hi => ?_⟩
      obtain ⟨c, d, hc, hd⟩ := exists_pair hlength hi
      obtain ⟨x, hx, hread⟩ := hbyte i hi
      rw [byteAt_eq hascii hc hd] at hread
      refine ⟨c, d, hc, hd, ?_⟩
      rw [byte_ofBytes hcount hx]
      split at hread
      · next b hb =>
        cases hread
        exact byte?_pair_iff.1 hb
      · cases hread
    · cases h
  · rintro ⟨hlength, hpairs⟩
    have hascii : (dropMark cs).all Text.isAscii = true :=
      List.all_eq_true.2 <| forall_of_pairs hlength fun i hi => by
        obtain ⟨c, d, hc, hd, hpair⟩ := hpairs i hi
        exact ⟨c, d, hc, hd, hpair.ascii⟩
    have hbytes : (List.range 20).mapM (byteAt cs (dropMark cs)) = .ok a.bytes := by
      refine mapM_range_eq_ok_iff.2 ⟨a.length_bytes, fun i hi => ⟨_, a.getElem?_bytes hi, ?_⟩⟩
      obtain ⟨c, d, hc, hd, hpair⟩ := hpairs i hi
      have hread : byte? [c, d] = some ⟨a.byte i, a.byte_lt i⟩ := byte?_pair_iff.2 hpair
      rw [byteAt_eq hascii hc hd, hread]
    rw [if_pos ⟨hlength, hascii⟩, hbytes, ok_bind, ofBytes_bytes]
    rfl

theorem ofText_eq_ok_iff {s : String} : ofText s = .ok a ↔ Denotes Spells s.toList a :=
  parse_eq_ok_iff

/-- Reading an address halts on no text, and refuses each that is none by showing it. -/
theorem ofText_fails (s : String) :
    FailsOnly (· = .refused (.invalidSetting "address" s "40 hex digits")) (ofText s) := by
  have hfails := parse_fails s.toList
  rw [malformed, String.ofList_toList] at hfails
  exact hfails

/-! ### The canonical text -/

theorem denotes_text (a : Address) : Denotes DigitPair a.text.toList a := by
  refine ⟨a.digits, .inr ?_, Text.length_hexDigits 40 _, fun i hi => ?_⟩
  · rw [text, String.toList_ofList]
  · obtain ⟨hhigh, hlow⟩ := a.digits_pair hi
    exact ⟨_, _, hhigh, hlow, digitPair_digits (a.byte_lt i)⟩

theorem Denotes.spells (h : Denotes DigitPair cs a) : Denotes Spells cs a := by
  obtain ⟨hex, hcs, hlength, hpairs⟩ := h
  refine ⟨hex, hcs, hlength, fun i hi => ?_⟩
  obtain ⟨c, d, hc, hd, hpair⟩ := hpairs i hi
  exact ⟨c, d, hc, hd, .inl hpair⟩

theorem ofText_text (a : Address) : ofText a.text = .ok a :=
  ofText_eq_ok_iff.2 a.denotes_text.spells

end Address
end LiquidStaking

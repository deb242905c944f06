/-
Which texts are addresses, and which of them the same one.

Forty digits in either case are, with or without a mark.  So are texts with a plus sign in place of
a zero, which makes more than one text of an address that differ in more than their case.
-/
import LiquidStaking.Proofs.Address
import Mathlib.Data.List.Basic

namespace LiquidStaking
namespace Address

variable {a b : Address} {cs : List Char} {c d : Char}

/-- The character of the canonical text that stands for one that is read. -/
def canonical (c : Char) : Char := if c = '+' then '0' else c.toLower

theorem canonical_of_hexValue? {n : Nat} (h : Text.hexValue? c = some n) :
    canonical c = Text.hexDigit n := by
  have hall : ∀ k < 128, ∀ n < 16, Text.hexValue? (Char.ofNat k) = some n →
      canonical (Char.ofNat k) = Text.hexDigit n := by decide +kernel
  obtain ⟨hascii, hlt⟩ := Text.bounds_of_hexValue? h
  have hc := hall c.toNat hascii n hlt
  rw [Char.ofNat_toNat] at hc
  exact hc h

theorem Spells.canonical {byte : Nat} (h : Spells c d byte) :
    canonical c = Text.hexDigit (byte / 16) ∧ canonical d = Text.hexDigit (byte % 16) := by
  rcases h with ⟨high, low, hc, hd, rfl⟩ | ⟨rfl, hd⟩
  · have hlow := (Text.bounds_of_hexValue? hd).2
    have hhighPlace : (high * 16 + low) / 16 = high := by omega
    have hlowPlace : (high * 16 + low) % 16 = low := by omega
    rw [hhighPlace, hlowPlace]
    exact ⟨canonical_of_hexValue? hc, canonical_of_hexValue? hd⟩
  · have hlow := (Text.bounds_of_hexValue? hd).2
    rw [Nat.div_eq_of_lt hlow, Nat.mod_eq_of_lt hlow]
    exact ⟨by decide, canonical_of_hexValue? hd⟩

/-- What is read is of digits only exactly if it has no plus sign. -/
theorem denotes_digitPair_iff : Denotes DigitPair cs a ↔ Denotes Spells cs a ∧ '+' ∉ cs := by
  constructor
  · intro h
    refine ⟨h.spells, fun hmem => ?_⟩
    obtain ⟨hex, hcs, hlength, hpairs⟩ := h
    have hnone : ∀ x ∈ hex, x ≠ '+' := forall_of_pairs hlength fun i hi => by
      obtain ⟨c, d, hc, hd, _, _, hhigh, hlow, -⟩ := hpairs i hi
      refine ⟨c, d, hc, hd, ?_, ?_⟩
      · rintro rfl
        cases hexValue?_plus.symm.trans hhigh
      · rintro rfl
        cases hexValue?_plus.symm.trans hlow
    rcases hcs with rfl | rfl
    · exact hnone _ hmem rfl
    · simp only [List.mem_cons, Char.reduceEq, false_or] at hmem
      exact hnone _ hmem rfl
  · rintro ⟨⟨hex, hcs, hlength, hpairs⟩, hplus⟩
    refine ⟨hex, hcs, hlength, fun i hi => ?_⟩
    obtain ⟨c, d, hc, hd, hpair | ⟨rfl, -⟩⟩ := hpairs i hi
    · exact ⟨c, d, hc, hd, hpair⟩
    · have hmem := List.mem_of_getElem? hc
      rcases hcs with rfl | rfl
      · exact absurd hmem hplus
      · exact absurd (List.mem_cons_of_mem _ (List.mem_cons_of_mem _ hmem)) hplus

theorem digits_of_denotes (h : Denotes Spells cs a) : a.digits = (dropMark cs).map canonical := by
  obtain ⟨hlength, hpairs⟩ := denotes_spells_iff.1 h
  have hdigits : a.digits.length = 40 := Text.length_hexDigits 40 _
  refine List.ext_getElem? fun j => ?_
  by_cases hj : j < 40
  · obtain ⟨c, d, hc, hd, hpair⟩ := hpairs (j / 2) (by omega)
    obtain ⟨hhigh, hlow⟩ := a.digits_pair (i := j / 2) (by omega)
    obtain hplace | hplace : j = 2 * (j / 2) ∨ j = 2 * (j / 2) + 1 := by omega
    · rw [← hplace] at hc hhigh
      rw [hhigh, List.getElem?_map, hc, Option.map_some, hpair.canonical.1]
    · rw [← hplace] at hd hlow
      rw [hlow, List.getElem?_map, hd, Option.map_some, hpair.canonical.2]
  · rw [List.getElem?_eq_none (by omega), List.getElem?_eq_none (by rw [List.length_map]; omega)]

theorem text_eq_iff : a.text = b.text ↔ a = b := by
  refine ⟨fun h => ?_, fun h => h ▸ rfl⟩
  have hread := a.ofText_text
  rw [h, ofText_text] at hread
  exact (Except.ok.inj hread).symm

/-- Whatever characters a text holds, reading it does not halt.  It is an address exactly if it is
twenty pairs after an optional `0x`, each of two digits or of a plus sign and a digit, and each the
byte in its place; every other text is refused.  Those without a plus sign are the texts of forty
digits.  The canonical text has the same pairs in lower case, with a zero in place of each plus
sign, and two texts are read as the same address exactly if these are the same. -/
theorem ofText_reads (s : String) :
    (ofText s ≠ .error .halted ∧
      (∀ a, ofText s = .ok a ↔ Denotes Spells s.toList a) ∧
      ((∀ a, ¬ Denotes Spells s.toList a) →
        ofText s = .error (.refused (.invalidSetting "address" s "40 hex digits")))) ∧
    (∀ a, Denotes DigitPair s.toList a ↔ ofText s = .ok a ∧ '+' ∉ s.toList) ∧
    (∀ a, ofText s = .ok a →
      a.text = String.ofList ('0' :: 'x' :: (dropMark s.toList).map canonical)) ∧
    ∀ s' a a', ofText s = .ok a → ofText s' = .ok a' →
      (a = a' ↔ (dropMark s.toList).map canonical = (dropMark s'.toList).map canonical) := by
  refine ⟨⟨fun h => ?_, fun a => ofText_eq_ok_iff, fun h => ?_⟩,
    fun a => ?_, fun a ha => ?_, fun s' a a' ha ha' => ?_⟩
  · cases ofText_fails s _ h
  · cases hread : ofText s with
    | ok a => exact absurd (ofText_eq_ok_iff.1 hread) (h a)
    | error e => rw [ofText_fails s e hread]
  · rw [ofText_eq_ok_iff]
    exact denotes_digitPair_iff
  · rw [text, digits_of_denotes (ofText_eq_ok_iff.1 ha)]
  · rw [← digits_of_denotes (ofText_eq_ok_iff.1 ha), ← digits_of_denotes (ofText_eq_ok_iff.1 ha')]
    refine ⟨fun h => h ▸ rfl, fun h => text_eq_iff.1 ?_⟩
    rw [text, text, h]

/-- Digits in upper case after a mark and in lower case without one, and too few of them. -/
theorem ofText_reads_digits :
    ofText "0xABABABABABABABABABABABABABABABABABABABAB" = .ok (.repeatByte ⟨0xab, by decide⟩) ∧
      Denotes DigitPair "0xABABABABABABABABABABABABABABABABABABABAB".toList
        (.repeatByte ⟨0xab, by decide⟩) ∧
      ofText "abababababababababababababababababababab" = .ok (.repeatByte ⟨0xab, by decide⟩) ∧
      (dropMark "0xABABABABABABABABABABABABABABABABABABABAB".toList).map canonical =
        (dropMark "abababababababababababababababababababab".toList).map canonical ∧
      ofText "0x1234" = .error (.refused
        (.invalidSetting "address" "0x1234" "40 hex digits")) := by
  have hupper : ofText "0xABABABABABABABABABABABABABABABABABABABAB" =
      .ok (.repeatByte ⟨0xab, by decide⟩) := by decide +kernel
  have hlower : ofText "abababababababababababababababababababab" =
      .ok (.repeatByte ⟨0xab, by decide⟩) := by decide +kernel
  have hlength : (dropMark "0x1234".toList).length = 4 := by decide +kernel
  obtain ⟨-, hdigits, -, hsame⟩ := ofText_reads "0xABABABABABABABABABABABABABABABABABABABAB"
  obtain ⟨⟨-, -, hrefused⟩, -⟩ := ofText_reads "0x1234"
  refine ⟨hupper, (hdigits _).2 ⟨hupper, by decide +kernel⟩, hlower,
    (hsame _ _ _ hupper hlower).1 rfl, hrefused fun a h => ?_⟩
  have hforty := (denotes_spells_iff.1 h).1
  rw [hlength] at hforty
  cases hforty

/-- Plus signs are read as zeros, though they are no digits, and make another text of an address. -/
theorem ofText_reads_plus :
    ofText "0x+f+f+f+f+f+f+f+f+f+f+f+f+f+f+f+f+f+f+f+f" = .ok (.repeatByte ⟨0x0f, by decide⟩) ∧
      (∀ a, ¬ Denotes DigitPair "0x+f+f+f+f+f+f+f+f+f+f+f+f+f+f+f+f+f+f+f+f".toList a) ∧
      ofText "0x0f0f0f0f0f0f0f0f0f0f0f0f0f0f0f0f0f0f0f0f" = .ok (.repeatByte ⟨0x0f, by decide⟩) ∧
      (dropMark "0x+f+f+f+f+f+f+f+f+f+f+f+f+f+f+f+f+f+f+f+f".toList).map Char.toLower ≠
        (dropMark "0x0f0f0f0f0f0f0f0f0f0f0f0f0f0f0f0f0f0f0f0f".toList).map Char.toLower := by
  refine ⟨by decide +kernel, fun a h => ?_, by decide +kernel, by decide +kernel⟩
  exact (denotes_digitPair_iff.1 h).2 (by decide +kernel)

end Address
end LiquidStaking

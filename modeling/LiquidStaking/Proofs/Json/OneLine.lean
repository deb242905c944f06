/-
A compact text stays on one line.

Whatever texts a value holds, their control characters are escaped, and the compact layout puts
nothing between the parts.  So what is written has no control character, a line feed least of all.
-/
import LiquidStaking.Proofs.Json.RoundTrip

namespace LiquidStaking
namespace Text

/-- Whether a text has no characters below the space. -/
def Printable (cs : List Char) : Prop := ∀ c ∈ cs, 32 ≤ c.toNat

namespace Printable

variable {cs ds : List Char}

theorem nil : Printable [] := fun _ h => absurd h List.not_mem_nil

theorem cons {c : Char} (hc : 32 ≤ c.toNat) (h : Printable cs) : Printable (c :: cs) := by
  intro d hd
  rcases List.mem_cons.1 hd with rfl | hd
  · exact hc
  · exact h d hd

theorem append (h : Printable cs) (h' : Printable ds) : Printable (cs ++ ds) := by
  intro c hc
  rcases List.mem_append.1 hc with hc | hc
  · exact h c hc
  · exact h' c hc

theorem of_all (h : cs.all (fun c => 32 ≤ c.toNat) = true) : Printable cs :=
  fun c hc => of_decide_eq_true (List.all_eq_true.1 h c hc)

theorem flatMap {α : Type} {f : α → List Char} (h : ∀ x, Printable (f x)) (xs : List α) :
    Printable (xs.flatMap f) := by
  intro c hc
  obtain ⟨x, -, hc⟩ := List.mem_flatMap.1 hc
  exact h x c hc

theorem unbroken (h : Printable cs) : '\n' ∉ cs := fun hc => absurd (h _ hc) (by decide)

end Printable

theorem printable_hexDigit {n : Nat} (h : n < 16) : 32 ≤ (hexDigit n).toNat := by
  have hall : ∀ n, n < 16 → 32 ≤ (hexDigit n).toNat := by decide
  exact hall n h

theorem printable_hexDigits (width n : Nat) : Printable (hexDigits width n) := by
  induction width generalizing n with
  | zero => exact .nil
  | succ width ih =>
    exact .append (ih _) (.cons (printable_hexDigit (Nat.mod_lt n (by decide))) .nil)

theorem printable_decimal (n : Nat) : Printable (decimal n) := by
  induction n using decimal.induct with
  | case1 n h =>
    rw [decimal, if_pos h]
    exact .cons (printable_hexDigit (by omega)) .nil
  | case2 n h ih =>
    rw [decimal, if_neg h]
    exact .append ih (.cons (printable_hexDigit (by omega)) .nil)

end Text

namespace Json

open Text (Printable)

theorem printable_escape (c : Char) : Printable (escape c) := by
  have hpair : ∀ d : Char, 32 ≤ d.toNat → Printable ['\\', d] := fun d hd =>
    .cons (by decide) (.cons hd .nil)
  unfold escape
  split
  · exact hpair '"' (by decide)
  split
  · exact hpair '\\' (by decide)
  split
  · exact hpair 'n' (by decide)
  split
  · exact hpair 'r' (by decide)
  split
  · exact hpair 't' (by decide)
  split
  · exact hpair 'b' (by decide)
  split
  · exact hpair 'f' (by decide)
  split
  · exact .cons (by decide) (.cons (by decide) (Text.printable_hexDigits 4 _))
  · next h => exact .cons (Nat.not_lt.1 h) .nil

theorem printable_quote (s : String) : Printable (quote s) :=
  .append (.cons (by decide) (.flatMap printable_escape s.toList)) (.cons (by decide) .nil)

/-- A value whose compact text is printable, at any depth. -/
def StaysOnLine (j : Json) : Prop := ∀ depth, Printable (render .compact depth j)

theorem printable_items {xs : List Json} (h : ∀ x ∈ xs, StaysOnLine x) (depth : Nat) :
    Printable (renderItems .compact depth xs) := by
  induction xs with
  | nil => exact .nil
  | cons x xs ih =>
    rw [renderItems]
    exact .append (.cons (by decide) (h x List.mem_cons_self depth))
      (ih (fun y hy => h y (List.mem_cons_of_mem _ hy)))

theorem printable_field {f : String × Json} (h : StaysOnLine f.2) (depth : Nat) :
    Printable (renderField .compact depth f) := by
  rw [renderField]
  exact .append (.append (printable_quote f.1) (.cons (by decide) .nil)) (h depth)

theorem printable_fields {fs : List (String × Json)} (h : ∀ f ∈ fs, StaysOnLine f.2)
    (depth : Nat) : Printable (renderFields .compact depth fs) := by
  induction fs with
  | nil => exact .nil
  | cons f fs ih =>
    rw [renderFields]
    exact .append (.cons (by decide) (printable_field (h f List.mem_cons_self) depth))
      (ih (fun y hy => h y (List.mem_cons_of_mem _ hy)))

theorem staysOnLine_list {xs : List Json} (h : ∀ x ∈ xs, StaysOnLine x) :
    StaysOnLine (list xs) := by
  intro depth
  cases xs with
  | nil => exact .cons (by decide) (.cons (by decide) .nil)
  | cons x xs =>
    rw [render]
    have hfirst : Printable ('[' :: Layout.compact.breakAt (depth + 1) ++
        render .compact (depth + 1) x) := .cons (by decide) (h x List.mem_cons_self _)
    have hrest := printable_items (fun y hy => h y (List.mem_cons_of_mem _ hy)) (depth + 1)
    exact .append (.append (.append hfirst hrest) .nil) (.cons (by decide) .nil)

theorem staysOnLine_record {fs : List (String × Json)} (h : ∀ f ∈ fs, StaysOnLine f.2) :
    StaysOnLine (record fs) := by
  intro depth
  cases fs with
  | nil => exact .cons (by decide) (.cons (by decide) .nil)
  | cons f fs =>
    rw [render]
    have hfirst : Printable ('\x7b' :: Layout.compact.breakAt (depth + 1) ++
        renderField .compact (depth + 1) f) :=
      .cons (by decide) (printable_field (h f List.mem_cons_self) _)
    have hrest := printable_fields (fun y hy => h y (List.mem_cons_of_mem _ hy)) (depth + 1)
    exact .append (.append (.append hfirst hrest) .nil) (.cons (by decide) .nil)

theorem staysOnLine_int (negative : Bool) (n : Nat) : StaysOnLine (int negative n) := by
  intro depth
  cases negative with
  | true =>
    rw [render]
    exact .cons (by decide) (Text.printable_decimal n)
  | false =>
    rw [render]
    exact Text.printable_decimal n

/-- No value has a control character in its compact text. -/
theorem staysOnLine (j : Json) : StaysOnLine j := by
  induction j using Json.induct with
  | null => exact fun _ => .of_all rfl
  | bool b => cases b <;> exact fun _ => .of_all rfl
  | int negative n => exact staysOnLine_int negative n
  | text s => exact fun _ => printable_quote s
  | list xs ih => exact staysOnLine_list ih
  | record fs ih => exact staysOnLine_record ih
  | other => exact fun _ => .of_all rfl

end Json
end LiquidStaking

/-
Readers that answer or refuse.

A text is cut into parts only where it may be, so reading an address halts on no text, and nothing
else that is read can halt.  Whatever the notation and whatever a line of the journal holds, reading
an event gives the event or says that the line is malformed.
-/
import LiquidStaking.Keeper.Journal
import LiquidStaking.Proofs.Address

namespace LiquidStaking

/-- A type whose values are read or refused: reading halts on nothing. -/
class TotalWire (α : Type) [Wire α] : Prop where
  read_fails {σ : Type} [Source σ] (v : σ) :
    FailsOnly (· = .malformed) (Wire.read v : Except Misread α)

theorem Misread.expect_fails {α : Type} (a : Option α) :
    FailsOnly (· = .malformed) (Misread.expect a) := by
  cases a with
  | none => exact .error rfl
  | some a => exact .ok a

namespace Row

variable {σ α β : Type} {read : σ → Except Misread α} {f : α → Except Misread β}

theorem read_bind_fails [Source σ] (names : List String) (v : σ) {f : Row σ → Except Misread β}
    (hf : ∀ row, FailsOnly (· = .malformed) (f row)) :
    FailsOnly (· = .malformed) (Row.read names v >>= f) := by
  refine FailsOnly.bind ?_ fun row _ => hf row
  refine (Misread.expect_fails _).bind fun parts _ => ?_
  split
  · exact .pure _
  · exact .error rfl

theorem required_bind_fails (row : Row σ) (name : String)
    (h : ∀ v, FailsOnly (· = .malformed) (read v)) (hf : ∀ a, FailsOnly (· = .malformed) (f a)) :
    FailsOnly (· = .malformed) (row.required name read >>= f) := by
  refine FailsOnly.bind ?_ fun a _ => hf a
  unfold required
  split
  · exact h _
  · exact .error rfl

theorem defaulted_bind_fails (row : Row σ) (name : String) (d : α)
    (h : ∀ v, FailsOnly (· = .malformed) (read v)) (hf : ∀ a, FailsOnly (· = .malformed) (f a)) :
    FailsOnly (· = .malformed) (row.defaulted name read d >>= f) := by
  refine FailsOnly.bind ?_ fun a _ => hf a
  unfold defaulted
  split
  · exact h _
  · exact .ok d

end Row

namespace Wire

variable {σ α : Type} [Source σ]

theorem read_fails [Wire α] [TotalWire α] (v : σ) :
    FailsOnly (· = .malformed) (read v : Except Misread α) := TotalWire.read_fails v

instance : TotalWire String := ⟨fun _ => Misread.expect_fails _⟩

instance {bits : Nat} : TotalWire (Bounded bits) := ⟨fun _ => Misread.expect_fails _⟩

instance : TotalWire Delta := ⟨fun _ => Misread.expect_fails _⟩

instance : TotalWire ModuleStatus := ⟨fun _ => Misread.expect_fails _⟩

theorem readAddress_fails (s : String) : FailsOnly (· = .malformed) (readAddress s) := by
  intro e he
  unfold readAddress at he
  cases hread : Address.ofText s with
  | ok a =>
    rw [hread] at he
    cases he
  | error failure =>
    rw [hread, Address.ofText_fails s failure hread] at he
    cases he
    rfl

instance : TotalWire Address :=
  ⟨fun _ => (Misread.expect_fails _).bind fun s _ => readAddress_fails s⟩

theorem readDigits_fails (v : σ) : FailsOnly (· = .malformed) (readDigits v) :=
  (Misread.expect_fails _).bind fun _ _ => Misread.expect_fails _

instance [Wire α] [TotalWire α] : TotalWire (List α) :=
  ⟨fun _ => (Misread.expect_fails _).bind fun _ _ => .mapM fun x _ => read_fails x⟩

instance [Wire α] [TotalWire α] : TotalWire (Option α) where
  read_fails v := by
    show FailsOnly _ (if Source.isNull v = true then _ else _)
    split
    · exact .pure none
    · exact (read_fails v).bind fun a _ => .pure (some a)

instance : TotalWire StakingModule where
  read_fails v := by
    refine Row.read_bind_fails _ v fun row => ?_
    iterate 10 refine row.required_bind_fails _ read_fails fun _ => ?_
    exact .pure _

instance : TotalWire KeyUpdate where
  read_fails v := by
    refine Row.read_bind_fails _ v fun row => ?_
    iterate 2 refine row.required_bind_fails _ read_fails fun _ => ?_
    exact .pure _

instance : TotalWire OracleReport where
  read_fails v := by
    refine Row.read_bind_fails _ v fun row => ?_
    iterate 3 refine row.required_bind_fails _ read_fails fun _ => ?_
    iterate 2 refine row.defaulted_bind_fails _ _ read_fails fun _ => ?_
    exact .pure _

end Wire

namespace PoolEvent

open Wire (read_fails readDigits_fails)

variable {σ : Type} [Source σ]

theorem readContent_fails (label : String) (v : σ) :
    FailsOnly (· = .malformed) (readContent label v) := by
  unfold readContent
  split
  · refine Row.read_bind_fails _ v fun row => ?_
    refine row.required_bind_fails _ read_fails fun _ => ?_
    exact row.required_bind_fails _ readDigits_fails fun _ => .pure _
  · refine Row.read_bind_fails _ v fun row => ?_
    refine row.required_bind_fails _ read_fails fun _ => ?_
    refine row.required_bind_fails _ readDigits_fails fun _ => ?_
    exact row.required_bind_fails _ read_fails fun _ => .pure _
  · refine Row.read_bind_fails _ v fun row => ?_
    refine row.required_bind_fails _ read_fails fun _ => ?_
    exact row.defaulted_bind_fails _ _ read_fails fun _ => .pure _
  · refine Row.read_bind_fails _ v fun row => ?_
    iterate 3 refine row.required_bind_fails _ read_fails fun _ => ?_
    exact .pure _
  · refine Row.read_bind_fails _ v fun row => ?_
    iterate 2 refine row.required_bind_fails _ read_fails fun _ => ?_
    exact .pure _
  · refine Row.read_bind_fails _ v fun row => ?_
    iterate 2 refine row.required_bind_fails _ read_fails fun _ => ?_
    exact .pure _
  · refine Row.read_bind_fails _ v fun row => ?_
    iterate 3 refine row.required_bind_fails _ read_fails fun _ => ?_
    exact .pure _
  · refine Row.read_bind_fails _ v fun row => ?_
    iterate 4 refine row.required_bind_fails _ read_fails fun _ => ?_
    exact .pure _
  · refine Row.read_bind_fails _ v fun row => ?_
    iterate 4 refine row.required_bind_fails _ read_fails fun _ => ?_
    exact .pure _
  · refine Row.read_bind_fails _ v fun row => ?_
    iterate 3 refine row.required_bind_fails _ read_fails fun _ => ?_
    exact .pure _
  · exact .error rfl

instance : TotalWire PoolEvent :=
  ⟨fun _ => (Misread.expect_fails _).bind fun choice _ => readContent_fails choice.1 choice.2⟩

end PoolEvent

/-- A line of the journal gives an event, or is named as one that holds none. -/
theorem Journal.readEntry_fails (l : List Char × Nat) :
    FailsOnly (· = .journal l.2) (readEntry l) := by
  have hread : FailsOnly (· = .malformed) (Wire.ofChars l.1 : Except Misread PoolEvent) :=
    (Misread.expect_fails _).bind fun stored _ => Wire.read_fails stored
  unfold readEntry
  cases h : (Wire.ofChars l.1 : Except Misread PoolEvent) with
  | ok event => exact .ok _
  | error e =>
    rw [hread e h]
    exact .error rfl

theorem Journal.read_fails (journal : String) (skip : Nat) :
    FailsOnly (fun e => ∃ line, e = .journal line) (read journal skip) :=
  .mapM fun l _ => (readEntry_fails l).mono fun _ he => ⟨l.2, he⟩

end LiquidStaking

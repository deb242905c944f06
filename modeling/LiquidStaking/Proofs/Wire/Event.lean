/-
The stored form of an event there and back.

An event is stored under its label, which says what content to read.
-/
import LiquidStaking.Keeper.Event
import LiquidStaking.Proofs.Wire.Pool

namespace LiquidStaking

theorem Json.integer?_ofInt (i : Int) : Source.integer? (Json.ofInt i) = some i := by
  by_cases h : i < 0
  · rw [ofInt, decide_eq_true h]
    show some (-(i.natAbs : Int)) = some i
    rw [Int.ofNat_natAbs_of_nonpos (Int.le_of_lt h), Int.neg_neg]
  · rw [ofInt, decide_eq_false h]
    show some (i.natAbs : Int) = some i
    rw [Int.natAbs_of_nonneg (Int.not_lt.1 h)]

namespace Wire

instance : LawfulWire Delta where
  read_write d := by
    show Misread.expect ((Source.integer? (Json.ofInt d.val)).bind Delta.ofInt?) = .ok d
    rw [Json.integer?_ofInt]
    exact congrArg Misread.expect d.ofInt?_val

instance : LawfulWire KeyUpdate where
  read_write u := by
    refine (Row.read_bind (by rfl) (by simp) _).trans ?_
    simp [List.lookup_cons, ok_bind]

instance : LawfulWire OracleReport where
  read_write r := by
    refine (Row.read_bind (by rfl) (by simp) _).trans ?_
    simp [List.lookup_cons, ok_bind]

end Wire

namespace PoolEvent

theorem readContent_content (e : PoolEvent) : readContent e.label e.content = .ok e := by
  cases e
  all_goals
    refine (Row.read_bind (by rfl) (by simp) _).trans ?_
    simp [List.lookup_cons, ok_bind]

instance : LawfulWire PoolEvent := ⟨readContent_content⟩

end PoolEvent
end LiquidStaking

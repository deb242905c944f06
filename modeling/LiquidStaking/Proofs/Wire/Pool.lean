/-
The stored form of a pool there and back.

Every record is read as it was written: its names differ, and each of its fields is read as it was
written.
-/
import LiquidStaking.Proofs.Wire.Basic
import LiquidStaking.Wire.Pool

namespace LiquidStaking
namespace Wire

instance : LawfulWire ModuleStatus := ⟨fun status => by cases status <;> rfl⟩

instance : LawfulWire StakingModule where
  read_write m := by
    refine (Row.read_bind (by rfl) (by simp) _).trans ?_
    simp [List.lookup_cons, ok_bind]

instance : LawfulWire PoolPolicy where
  read_write p := by
    refine (Row.read_bind (by rfl) (by simp) _).trans ?_
    simp [List.lookup_cons, ok_bind]

instance : LawfulWire WithdrawalRequest where
  read_write r := by
    refine (Row.read_bind (by rfl) (by simp) _).trans ?_
    simp [List.lookup_cons, ok_bind]

instance : LawfulWire PriceRun where
  read_write r := by
    refine (Row.read_bind (by rfl) (by simp) _).trans ?_
    simp [List.lookup_cons, ok_bind]

instance : LawfulWire PriceHistory where
  read_write h := by
    show (readList (writeList h.runs) >>= fun runs => pure (PriceHistory.mk runs)) = .ok h
    rw [readList_writeList]
    rfl

instance : LawfulWire WithdrawalLimits where
  read_write l := by
    refine (Row.read_bind (by rfl) (by simp) _).trans ?_
    simp [List.lookup_cons, ok_bind]

instance : LawfulWire WithdrawalQueue where
  read_write q := by
    refine (Row.read_bind (by rfl) (by simp) _).trans ?_
    simp [List.lookup_cons, ok_bind]

instance : LawfulWire Escrow where
  read_write e := by
    refine (Row.read_bind (by rfl) (by simp) _).trans ?_
    simp [List.lookup_cons, ok_bind]

instance : LawfulWire PoolSnapshot where
  read_write s := by
    refine (Row.read_bind (by rfl) (by simp) _).trans ?_
    simp [List.lookup_cons, ok_bind]

end Wire
end LiquidStaking

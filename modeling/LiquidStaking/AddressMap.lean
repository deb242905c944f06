/-
Values kept per address.

The entries are in strict order of their addresses, so that two maps with the same
contents are equal.
-/
import LiquidStaking.Address

namespace LiquidStaking

/-- A finite map from addresses, its entries in order. -/
structure AddressMap (α : Type) where
  entries : List (Address × α)
  sorted : entries.Pairwise (fun a b => a.1 < b.1)
deriving DecidableEq

namespace AddressMap

variable {α : Type}

def empty : AddressMap α := ⟨[], List.Pairwise.nil⟩

instance : Inhabited (AddressMap α) := ⟨empty⟩

def get? (m : AddressMap α) (k : Address) : Option α := m.entries.lookup k

def contains (m : AddressMap α) (k : Address) : Bool := (m.get? k).isSome

def values (m : AddressMap α) : List α := m.entries.map (·.2)

def insertEntry (k : Address) (v : α) : List (Address × α) → List (Address × α)
  | [] => [(k, v)]
  | e :: r =>
    if k < e.1 then (k, v) :: e :: r
    else if k = e.1 then (k, v) :: r
    else e :: insertEntry k v r

theorem mem_insertEntry {k : Address} {v : α} {es : List (Address × α)} {x : Address × α}
    (h : x ∈ insertEntry k v es) : x = (k, v) ∨ x ∈ es := by
  induction es with
  | nil => exact .inl (List.mem_singleton.1 h)
  | cons e r ih =>
    unfold insertEntry at h
    split at h
    · exact (List.mem_cons.1 h)
    · split at h
      · exact (List.mem_cons.1 h).imp id (List.mem_cons_of_mem _)
      · rcases List.mem_cons.1 h with rfl | h
        · exact .inr List.mem_cons_self
        · exact (ih h).imp id (List.mem_cons_of_mem _)

theorem pairwise_insertEntry (k : Address) (v : α) {es : List (Address × α)}
    (h : es.Pairwise (fun a b => a.1 < b.1)) :
    (insertEntry k v es).Pairwise (fun a b => a.1 < b.1) := by
  induction es with
  | nil => exact List.pairwise_singleton _ _
  | cons e r ih =>
    have hr := List.pairwise_cons.1 h
    unfold insertEntry
    split
    · next hlt =>
      refine List.pairwise_cons.2 ⟨fun x hx => ?_, h⟩
      rcases List.mem_cons.1 hx with rfl | hx
      · exact hlt
      · exact Address.lt_trans hlt (hr.1 x hx)
    · next hnlt =>
      split
      · next heq =>
        refine List.pairwise_cons.2 ⟨fun x hx => ?_, hr.2⟩
        exact heq ▸ hr.1 x hx
      · next hne =>
        refine List.pairwise_cons.2 ⟨fun x hx => ?_, ih hr.2⟩
        rcases mem_insertEntry hx with rfl | hx
        · exact Address.lt_of_not_lt_of_ne hnlt hne
        · exact hr.1 x hx

def insert (m : AddressMap α) (k : Address) (v : α) : AddressMap α :=
  ⟨insertEntry k v m.entries, pairwise_insertEntry k v m.sorted⟩

def erase (m : AddressMap α) (k : Address) : AddressMap α :=
  ⟨m.entries.filter (fun e => e.1 != k), m.sorted.filter _⟩

def insertAll (m : AddressMap α) (es : List (Address × α)) : AddressMap α :=
  es.foldl (fun m e => m.insert e.1 e.2) m

/-- The map of a list of entries; a later one replaces an earlier one. -/
def ofList (es : List (Address × α)) : AddressMap α := empty.insertAll es

end AddressMap

abbrev AddressSet := AddressMap Unit

end LiquidStaking

/-
Looking up in maps, and adding up their amounts.

Two maps that answer every look-up alike are equal, because their entries are in order.  A
change of one entry moves the total of a map of amounts by exactly what the entry changes.
-/
import LiquidStaking.AddressMap
import LiquidStaking.Proofs.Arithmetic

namespace LiquidStaking
namespace AddressMap

variable {α : Type}

/-! ### Look-ups -/

theorem lookup_cons_eq (i : Address) (w : α) (r : List (Address × α)) (j : Address) :
    ((i, w) :: r).lookup j = if j = i then some w else r.lookup j := by
  by_cases h : j = i
  · subst h
    simp
  · have hb : (j == i) = false := beq_eq_false_iff_ne.2 h
    simp only [List.lookup_cons, hb, if_neg h]

theorem lookup_insertEntry (k : Address) (v : α) (j : Address) (es : List (Address × α)) :
    (insertEntry k v es).lookup j = if j = k then some v else es.lookup j := by
  induction es with
  | nil => exact lookup_cons_eq k v [] j
  | cons e r ih =>
    obtain ⟨i, w⟩ := e
    unfold insertEntry
    split
    · exact lookup_cons_eq k v _ j
    · split
      · next _ heq =>
        have hik : k = i := heq
        subst hik
        rw [lookup_cons_eq, lookup_cons_eq]
        by_cases h : j = k
        · rw [if_pos h, if_pos h]
        · rw [if_neg h, if_neg h, if_neg h]
      · next _ hne =>
        rw [lookup_cons_eq, lookup_cons_eq, ih]
        by_cases h : j = i
        · have hk : j ≠ k := fun e => hne (e.symm.trans h)
          rw [if_pos h, if_neg hk, if_pos h]
        · rw [if_neg h, if_neg h]

theorem lookup_filter_ne (k j : Address) (es : List (Address × α)) :
    (es.filter (fun e => e.1 != k)).lookup j = if j = k then none else es.lookup j := by
  induction es with
  | nil => by_cases h : j = k <;> simp [h]
  | cons e r ih =>
    obtain ⟨i, w⟩ := e
    by_cases hi : i = k
    · have hf : ((i, w) :: r).filter (fun e => e.1 != k) = r.filter (fun e => e.1 != k) := by
        simp [hi]
      rw [hf, ih, lookup_cons_eq, hi]
      by_cases h : j = k
      · rw [if_pos h, if_pos h]
      · rw [if_neg h, if_neg h, if_neg h]
    · have hf : ((i, w) :: r).filter (fun e => e.1 != k) =
          (i, w) :: r.filter (fun e => e.1 != k) := by simp [hi]
      rw [hf, lookup_cons_eq, ih, lookup_cons_eq]
      by_cases h : j = i
      · have hk : j ≠ k := fun e => hi (h.symm.trans e)
        rw [if_pos h, if_neg hk, if_pos h]
      · rw [if_neg h, if_neg h]

theorem lookup_eq_none_of_lt {k : Address} {es : List (Address × α)}
    (h : ∀ e ∈ es, k < e.1) : es.lookup k = none := by
  rw [List.lookup_eq_none_iff]
  intro e he
  have hlt := h e he
  by_cases heq : k = e.1
  · rw [← heq] at hlt
    exact absurd hlt (Address.lt_irrefl k)
  · simp [heq]

theorem get?_insert (m : AddressMap α) (k : Address) (v : α) (j : Address) :
    (m.insert k v).get? j = if j = k then some v else m.get? j :=
  lookup_insertEntry k v j m.entries

theorem get?_erase (m : AddressMap α) (k j : Address) :
    (m.erase k).get? j = if j = k then none else m.get? j :=
  lookup_filter_ne k j m.entries

/-- Entries in order that answer every look-up alike are the same. -/
theorem entries_ext : ∀ {es fs : List (Address × α)},
    es.Pairwise (fun a b => a.1 < b.1) → fs.Pairwise (fun a b => a.1 < b.1) →
      (∀ k, es.lookup k = fs.lookup k) → es = fs
  | [], [], _, _, _ => rfl
  | [], (k, v) :: _, _, _, h => by simpa using h k
  | (k, v) :: _, [], _, _, h => by simpa using h k
  | (i, v) :: r, (j, w) :: s, hr, hs, h => by
    obtain ⟨hir, hrest⟩ := List.pairwise_cons.1 hr
    obtain ⟨hjs, hsrest⟩ := List.pairwise_cons.1 hs
    have hij : i = j := by
      -- the lesser of two different first keys would be missing on the other side
      by_cases hne : i = j
      · exact hne
      exfalso
      by_cases hlt : i < j
      · have hi := h i
        rw [List.lookup_cons_self, lookup_eq_none_of_lt (fun e he => ?_)] at hi
        · cases hi
        · rcases List.mem_cons.1 he with rfl | he
          · exact hlt
          · exact Address.lt_trans hlt (hjs e he)
      · have hgt := Address.lt_of_not_lt_of_ne hlt hne
        have hj := h j
        rw [List.lookup_cons_self, lookup_eq_none_of_lt (fun e he => ?_)] at hj
        · cases hj
        · rcases List.mem_cons.1 he with rfl | he
          · exact hgt
          · exact Address.lt_trans hgt (hir e he)
    subst hij
    have hvw : v = w := by simpa using h i
    subst hvw
    have htail : r = s := by
      refine entries_ext hrest hsrest (fun k => ?_)
      by_cases hk : k = i
      · rw [hk, lookup_eq_none_of_lt hir, lookup_eq_none_of_lt hjs]
      · have hkey := h k
        rwa [lookup_cons_eq, lookup_cons_eq, if_neg hk, if_neg hk] at hkey
    rw [htail]

theorem ext_get? {m n : AddressMap α} (h : ∀ k, m.get? k = n.get? k) : m = n := by
  cases m with
  | mk es hes =>
    cases n with
    | mk fs hfs =>
      have := entries_ext hes hfs h
      subst this
      rfl

theorem insert_insert (m : AddressMap α) (k : Address) (v w : α) :
    (m.insert k v).insert k w = m.insert k w := by
  refine ext_get? (fun j => ?_)
  rw [get?_insert, get?_insert, get?_insert]
  by_cases h : j = k
  · rw [if_pos h, if_pos h]
  · rw [if_neg h, if_neg h, if_neg h]

theorem insert_comm (m : AddressMap α) {j k : Address} (h : j ≠ k) (v w : α) :
    (m.insert j v).insert k w = (m.insert k w).insert j v := by
  refine ext_get? (fun i => ?_)
  rw [get?_insert, get?_insert, get?_insert, get?_insert]
  by_cases hi : i = k
  · rw [if_pos hi, if_neg (hi ▸ Ne.symm h), if_pos hi]
  · rw [if_neg hi, if_neg hi]

theorem get?_insertAll (es : List (Address × α)) :
    ∀ (m : AddressMap α), es.Pairwise (fun a b => a.1 < b.1) → ∀ k,
      (m.insertAll es).get? k = (es.lookup k).or (m.get? k) := by
  induction es with
  | nil =>
    intro m _ k
    rfl
  | cons e r ih =>
    intro m h k
    obtain ⟨i, v⟩ := e
    obtain ⟨hir, hr⟩ := List.pairwise_cons.1 h
    show ((m.insert i v).insertAll r).get? k = _
    rw [ih (m.insert i v) hr, get?_insert, lookup_cons_eq]
    by_cases hk : k = i
    · rw [if_pos hk, if_pos hk, hk, lookup_eq_none_of_lt hir]
      rfl
    · rw [if_neg hk, if_neg hk]

theorem get?_overlay (m n : AddressMap α) (k : Address) :
    (m.insertAll n.entries).get? k = (n.get? k).or (m.get? k) :=
  get?_insertAll n.entries m n.sorted k

theorem overlay_insert (m n : AddressMap α) (k : Address) (v : α) :
    m.insertAll (n.insert k v).entries = (m.insertAll n.entries).insert k v := by
  refine ext_get? (fun j => ?_)
  rw [get?_overlay, get?_insert, get?_insert, get?_overlay]
  by_cases h : j = k <;> simp [h]

/-! ### Totals -/

/-- The amount kept for an address, zero if there is none. -/
def amountAt (m : AddressMap Amount) (k : Address) : Nat :=
  ((m.get? k).getD Bounded.zero).val

theorem amountAt_insert (m : AddressMap Amount) (k : Address) (v : Amount) (j : Address) :
    (m.insert k v).amountAt j = if j = k then v.val else m.amountAt j := by
  rw [amountAt, get?_insert]
  by_cases h : j = k
  · rw [if_pos h, if_pos h, Option.getD_some]
  · rw [if_neg h, if_neg h, amountAt]

theorem amountAt_erase (m : AddressMap Amount) (k j : Address) :
    (m.erase k).amountAt j = if j = k then 0 else m.amountAt j := by
  rw [amountAt, get?_erase]
  by_cases h : j = k
  · rw [if_pos h, if_pos h]
    rfl
  · rw [if_neg h, if_neg h, amountAt]

theorem total_insertEntry (k : Address) (v : Amount) {es : List (Address × Amount)}
    (h : es.Pairwise (fun a b => a.1 < b.1)) :
    Bounded.total ((insertEntry k v es).map (·.2)) + ((es.lookup k).getD Bounded.zero).val =
      Bounded.total (es.map (·.2)) + v.val := by
  induction es with
  | nil => simp [insertEntry]
  | cons e r ih =>
    obtain ⟨i, w⟩ := e
    obtain ⟨hir, hr⟩ := List.pairwise_cons.1 h
    unfold insertEntry
    split
    · next hlt =>
      have hnone : ((i, w) :: r).lookup k = none := by
        refine lookup_eq_none_of_lt (fun e he => ?_)
        rcases List.mem_cons.1 he with rfl | he
        · exact hlt
        · exact Address.lt_trans hlt (hir e he)
      rw [hnone]
      simp only [List.map_cons, Bounded.total_cons, Option.getD_none, Bounded.val_zero]
      omega
    · split
      · next _ heq =>
        subst heq
        simp only [List.map_cons, Bounded.total_cons, List.lookup_cons_self, Option.getD_some]
        omega
      · next _ hne =>
        have := ih hr
        rw [lookup_cons_eq, if_neg hne]
        simp only [List.map_cons, Bounded.total_cons]
        omega

theorem total_filter_ne (k : Address) {es : List (Address × Amount)}
    (h : es.Pairwise (fun a b => a.1 < b.1)) :
    Bounded.total ((es.filter (fun e => e.1 != k)).map (·.2)) +
        ((es.lookup k).getD Bounded.zero).val =
      Bounded.total (es.map (·.2)) := by
  induction es with
  | nil => rfl
  | cons e r ih =>
    obtain ⟨i, w⟩ := e
    obtain ⟨hir, hr⟩ := List.pairwise_cons.1 h
    have := ih hr
    rw [lookup_cons_eq]
    by_cases hi : i = k
    · subst hi
      rw [lookup_eq_none_of_lt hir] at this
      have hf : ((i, w) :: r).filter (fun e => e.1 != i) = r.filter (fun e => e.1 != i) := by
        simp
      rw [hf, if_pos rfl, List.map_cons, Bounded.total_cons, ← this, Nat.add_comm]
      rfl
    · have hf : ((i, w) :: r).filter (fun e => e.1 != k) =
          (i, w) :: r.filter (fun e => e.1 != k) := by simp [hi]
      rw [hf, if_neg (fun e => hi e.symm)]
      simp only [List.map_cons, Bounded.total_cons]
      omega

theorem total_insert (m : AddressMap Amount) (k : Address) (v : Amount) :
    Bounded.total (m.insert k v).values + m.amountAt k = Bounded.total m.values + v.val :=
  total_insertEntry k v m.sorted

theorem total_erase (m : AddressMap Amount) (k : Address) :
    Bounded.total (m.erase k).values + m.amountAt k = Bounded.total m.values :=
  total_filter_ne k m.sorted

end AddressMap
end LiquidStaking

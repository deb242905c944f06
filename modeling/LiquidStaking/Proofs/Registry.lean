/-
What every change of a registry keeps.

Modules stay within the bound, have identifiers of their own and settings that make sense, and what
readers see is what is recorded.  That is also all a list of modules needs to be registered again,
one after the other, in the same order.
-/
import LiquidStaking.Proofs.Arithmetic
import LiquidStaking.Registry

namespace LiquidStaking

namespace StakingModule

variable {m m' : StakingModule}

theorem validate_eq_ok_iff :
    m.validate = .ok () ↔
      m.target.val ≤ basisPointsBase ∧ m.fee.val + m.treasuryFee.val ≤ basisPointsBase := by
  unfold validate
  by_cases htarget : basisPointsBase < m.target.val
  · simp [if_pos htarget, Nat.not_le.2 htarget]
  · rw [if_neg htarget]
    by_cases hfees : basisPointsBase < m.fee.val + m.treasuryFee.val
    · simp [if_pos hfees, Nat.not_le.2 hfees]
    · simp [if_neg hfees, Nat.not_lt.1 htarget, Nat.not_lt.1 hfees]

theorem checked_eq_ok_iff : m.checked = .ok m' ↔ m.validate = .ok () ∧ m' = m := by
  simp only [checked, bind_eq_ok, pure_eq_ok]
  exact ⟨fun ⟨_, hm, h⟩ => ⟨hm, h.symm⟩, fun ⟨hm, h⟩ => ⟨(), hm, h.symm⟩⟩

theorem deposited_eq_ok_iff {count : Nat} {block : Count} :
    m.deposited count block = .ok m' ↔
      m'.availableKeys.val + count = m.availableKeys.val ∧
        m'.activeKeys.val = m.activeKeys.val + count ∧
        m' = { m with
          availableKeys := m'.availableKeys
          activeKeys := m'.activeKeys
          lastDepositBlock := block } := by
  unfold deposited
  by_cases hkeys : count ≤ m.availableKeys.val
  · rw [if_pos hkeys]
    simp only [bind_eq_ok, pure_eq_ok, Bounded.fit_eq_ok_iff]
    constructor
    · rintro ⟨activeKeys, hactive, rfl⟩
      exact ⟨Nat.sub_add_cancel hkeys, hactive.symm, rfl⟩
    · rintro ⟨havailable, hactive, hm⟩
      refine ⟨m'.activeKeys, hactive.symm, ?_⟩
      have hleft : m'.availableKeys =
          ⟨m.availableKeys.val - count, Nat.lt_of_le_of_lt (Nat.sub_le ..) m.availableKeys.isLt⟩ :=
        Bounded.ext (Nat.eq_sub_of_add_eq havailable)
      rw [← hleft]
      exact hm.symm
  · rw [if_neg hkeys]
    constructor
    · intro h
      cases h
    · rintro ⟨havailable, -, -⟩
      exact absurd (havailable ▸ Nat.le_add_left _ _) hkeys

theorem exists_checked_iff : (∃ m', m.checked = .ok m') ↔ m.validate = .ok () := by
  simp only [checked_eq_ok_iff]
  exact ⟨fun ⟨_, hm, _⟩ => hm, fun hm => ⟨m, hm, rfl⟩⟩

theorem exists_deposited_iff {count : Nat} {block : Count} :
    (∃ m', m.deposited count block = .ok m') ↔
      count ≤ m.availableKeys.val ∧ m.activeKeys.val + count < Bounded.bound 64 := by
  simp only [deposited_eq_ok_iff]
  constructor
  · rintro ⟨m', havailable, hactive, -⟩
    exact ⟨havailable ▸ Nat.le_add_left _ _, hactive ▸ m'.activeKeys.isLt⟩
  · rintro ⟨hkeys, hfit⟩
    obtain ⟨available, havailable⟩ := Bounded.exists_val
      (Nat.lt_of_le_of_lt (Nat.sub_le m.availableKeys.val count) m.availableKeys.isLt)
    obtain ⟨active, hactive⟩ := Bounded.exists_val hfit
    refine ⟨{ m with
      availableKeys := available
      activeKeys := active
      lastDepositBlock := block }, ?_, hactive, rfl⟩
    show available.val + count = _
    omega

end StakingModule

namespace Registry

/-! ### Changes in place -/

namespace InPlace

variable {α β : Type} {r : Registry}

theorem on_bind (change : InPlace α) (next : α → InPlace β) (r : Registry) :
    (change >>= next).on r = match change.on r with
      | (.ok a, r') => (next a).on r'
      | (.error cause, r') => (.error cause, r') := by
  have hrun : (change >>= next).on r =
      (ExceptT.bindCont next (change.on r).1).run (change.on r).2 := rfl
  rw [hrun]
  rcases change.on r with ⟨_ | a, r'⟩
  · rfl
  · rfl

theorem on_ask (look : Registry → Except Fault α) (r : Registry) :
    (ask look).on r = (look r, r) := rfl

/-- A module that is admitted is recorded after the others, and published with them. -/
theorem on_register (m : StakingModule) (r : Registry) :
    (register m).on r = match r.checkNew m with
      | .ok _ => (.ok (), holding r.capacity (r.records ++ [m]))
      | .error cause => (.error cause, r) := by
  unfold register
  rw [on_bind, on_ask]
  cases r.checkNew m with
  | error cause => rfl
  | ok _ => rfl

/-- A module that is found and whose rule does not refuse is replaced, and all are published. -/
theorem on_update (id : ModuleId) (rule : StakingModule → Except Fault StakingModule)
    (r : Registry) :
    (update id rule).on r = match r.get id >>= rule with
      | .ok m => (.ok (), holding r.capacity (replace id m r.records))
      | .error cause => (.error cause, r) := by
  unfold update
  rw [on_bind, on_ask]
  cases r.get id with
  | error cause => rfl
  | ok m =>
    rw [ok_bind]
    show ((ask fun _ => rule m) >>= _).on r = _
    rw [on_bind, on_ask]
    cases rule m with
    | error cause => rfl
    | ok m => rfl

end InPlace

variable {r r' : Registry} {id : ModuleId} {m m' : StakingModule} {capacity : Count}
  {before rest : List StakingModule}

theorem add_eq (r : Registry) (m : StakingModule) :
    r.add m = (do r.checkNew m; return holding r.capacity (r.records ++ [m])) := by
  unfold add apply Change.steps
  rw [InPlace.on_register]
  cases r.checkNew m with
  | error cause => rfl
  | ok _ => rfl

theorem apply_update {c : Change} {rule : StakingModule → Except Fault StakingModule}
    (hc : c.steps = .update id rule) (r : Registry) :
    r.apply c = (do
      let m ← r.get id
      let m ← rule m
      return holding r.capacity (replace id m r.records)) := by
  unfold apply
  rw [hc, InPlace.on_update]
  cases r.get id with
  | error cause => rfl
  | ok m =>
    rw [ok_bind, ok_bind]
    cases rule m with
    | error cause => rfl
    | ok m => rfl

/-! ### Look-ups -/

theorem create_eq_ok_iff : create capacity = .ok r ↔ capacity.val ≠ 0 ∧ r = holding capacity [] := by
  unfold create
  split
  · next h => simp [h]
  · next h => simp [h, eq_comm]

/-- A module that is found is the first of its identifier. -/
theorem get_eq_ok (h : r.get id = .ok m) :
    m.id = id ∧ ∃ before rest, r.records = before ++ m :: rest ∧ ∀ x ∈ before, x.id ≠ id := by
  unfold get at h
  split at h
  · next m' hfind =>
    cases h
    obtain ⟨hid, before, rest, hsplit, hbefore⟩ := List.find?_eq_some_iff_append.1 hfind
    refine ⟨eq_of_beq hid, before, rest, hsplit, fun x hx heq => ?_⟩
    have hno := hbefore x hx
    rw [heq, beq_self_eq_true] at hno
    cases hno
  · cases h

theorem get_of_distinct
    (hdistinct : (before ++ m :: rest).Pairwise (fun a b => a.id ≠ b.id)) :
    (holding capacity (before ++ m :: rest)).get m.id = .ok m := by
  have hbefore : before.find? (fun x => x.id == m.id) = none := by
    rw [List.find?_eq_none]
    intro x hx
    have hne := (List.pairwise_append.1 hdistinct).2.2 x hx m List.mem_cons_self
    simpa using hne
  have hfind : (before ++ m :: rest).find? (fun x => x.id == m.id) = some m := by
    rw [List.find?_append, hbefore, List.find?_cons, beq_self_eq_true]
    rfl
  unfold get find? holding
  rw [hfind]

theorem find?_isSome_iff : (r.find? id).isSome = true ↔ ∃ m ∈ r.records, m.id = id := by
  rw [find?, List.find?_isSome]
  simp only [beq_iff_eq]

theorem checkNew_eq_ok_iff : r.checkNew m = .ok () ↔
    r.size < r.capacity.val ∧ (∀ x ∈ r.records, x.id ≠ m.id) ∧ m.validate = .ok () := by
  have hfind : (r.find? m.id).isSome = true ↔ ¬ ∀ x ∈ r.records, x.id ≠ m.id := by
    rw [find?_isSome_iff]
    simp
  unfold checkNew
  by_cases hfull : r.capacity.val ≤ r.size
  · simp [if_pos hfull, Nat.not_lt.2 hfull]
  · rw [if_neg hfull]
    by_cases hknown : (r.find? m.id).isSome = true
    · simp [if_pos hknown, hfind.1 hknown]
    · rw [if_neg hknown]
      have hnew := Classical.not_not.1 (mt hfind.2 hknown)
      exact ⟨fun hm => ⟨Nat.lt_of_not_le hfull, hnew, hm⟩, fun h => h.2.2⟩

theorem add_eq_ok_iff : r.add m = .ok r' ↔
    r.checkNew m = .ok () ∧ r' = holding r.capacity (r.records ++ [m]) := by
  simp only [add_eq, bind_eq_ok, pure_eq_ok]
  exact ⟨fun ⟨_, hm, h⟩ => ⟨hm, h.symm⟩, fun ⟨hm, h⟩ => ⟨(), hm, h.symm⟩⟩

theorem replace_append (hbefore : ∀ x ∈ before, x.id ≠ id) (hm : m.id = id) :
    replace id m' (before ++ m :: rest) = before ++ m' :: rest := by
  induction before with
  | nil =>
    rw [List.nil_append, replace, if_pos hm]
    rfl
  | cons x before ih =>
    rw [List.cons_append, replace, if_neg (hbefore x List.mem_cons_self),
      ih (fun y hy => hbefore y (List.mem_cons_of_mem _ hy))]
    rfl

/-! ### What is kept -/

/-- A registry that changes can leave. -/
structure Valid (r : Registry) : Prop where
  published : r.modules = r.records
  capacity : r.capacity.val ≠ 0
  within : r.size ≤ r.capacity.val
  distinct : r.modules.Pairwise (fun a b => a.id ≠ b.id)
  checked : ∀ m ∈ r.modules, m.validate = .ok ()

theorem holding_valid_iff {ms : List StakingModule} : (holding capacity ms).Valid ↔
    capacity.val ≠ 0 ∧ ms.length ≤ capacity.val ∧ ms.Pairwise (fun a b => a.id ≠ b.id) ∧
      ∀ m ∈ ms, m.validate = .ok () :=
  ⟨fun h => ⟨h.capacity, h.within, h.distinct, h.checked⟩,
    fun ⟨hcapacity, hwithin, hdistinct, hchecked⟩ =>
      ⟨rfl, hcapacity, hwithin, hdistinct, hchecked⟩⟩

theorem Valid.eq_holding (hr : r.Valid) : r = holding r.capacity r.modules := by
  obtain ⟨capacity, records, modules⟩ := r
  obtain rfl : modules = records := hr.published
  rfl

theorem create_valid (h : create capacity = .ok r) : r.Valid ∧ r.capacity = capacity := by
  obtain ⟨hcapacity, rfl⟩ := create_eq_ok_iff.1 h
  exact ⟨holding_valid_iff.2 ⟨hcapacity, Nat.zero_le _, List.Pairwise.nil,
    fun _ h => absurd h List.not_mem_nil⟩, rfl⟩

theorem distinct_of_ids {xs ys : List StakingModule} (h : xs.map (·.id) = ys.map (·.id))
    (hx : xs.Pairwise (fun a b => a.id ≠ b.id)) : ys.Pairwise (fun a b => a.id ≠ b.id) := by
  have hids : (xs.map (·.id)).Pairwise (fun a b => a ≠ b) := List.pairwise_map.2 hx
  rw [h] at hids
  exact List.pairwise_map.1 hids

theorem Valid.set (h : (holding capacity (before ++ m :: rest)).Valid) (hid : m'.id = m.id)
    (hm : m'.validate = .ok ()) : (holding capacity (before ++ m' :: rest)).Valid := by
  obtain ⟨hcapacity, hwithin, hdistinct, hchecked⟩ := holding_valid_iff.1 h
  refine holding_valid_iff.2 ⟨hcapacity, ?_, distinct_of_ids ?_ hdistinct, fun x hx => ?_⟩
  · rwa [List.length_append, List.length_cons] at hwithin ⊢
  · rw [List.map_append, List.map_append, List.map_cons, List.map_cons, hid]
  · rcases List.mem_append.1 hx with hx | hx
    · exact hchecked x (List.mem_append_left _ hx)
    · rcases List.mem_cons.1 hx with rfl | hx
      · exact hm
      · exact hchecked x (List.mem_append_right _ (List.mem_cons_of_mem _ hx))

/-- Whether a rule leaves a module its identifier and settings that make sense. -/
def KeepsSense (rule : StakingModule → Except Fault StakingModule) : Prop :=
  ∀ m m', m.validate = .ok () → rule m = .ok m' → m'.id = m.id ∧ m'.validate = .ok ()

theorem keepsSense_ok {f : StakingModule → StakingModule} (hid : ∀ m, (f m).id = m.id)
    (hvalid : ∀ m, (f m).validate = m.validate) : KeepsSense (fun m => .ok (f m)) := by
  intro m m' hm h
  cases h
  exact ⟨hid m, (hvalid m).trans hm⟩

theorem keepsSense_checked {f : StakingModule → StakingModule} (hid : ∀ m, (f m).id = m.id) :
    KeepsSense (fun m => (f m).checked) := by
  intro m m' _ h
  obtain ⟨hm, rfl⟩ := StakingModule.checked_eq_ok_iff.1 h
  exact ⟨hid m, hm⟩

theorem keepsSense_deposited (count : Nat) (block : Count) :
    KeepsSense (·.deposited count block) := by
  intro m m' hm h
  obtain ⟨-, -, hm'⟩ := StakingModule.deposited_eq_ok_iff.1 h
  rw [hm']
  exact ⟨rfl, hm⟩

namespace Valid

theorem add (hr : r.Valid) (h : r.add m = .ok r') : r'.Valid ∧ r'.capacity = r.capacity := by
  obtain ⟨hcheck, rfl⟩ := add_eq_ok_iff.1 h
  obtain ⟨hroom, hnew, hchecked⟩ := checkNew_eq_ok_iff.1 hcheck
  rw [← hr.published] at hnew ⊢
  have hlength : r.modules.length < r.capacity.val := hr.published ▸ hroom
  refine ⟨holding_valid_iff.2 ⟨hr.capacity, ?_, ?_, fun x hx => ?_⟩, rfl⟩
  · rw [List.length_append]
    exact hlength
  · refine List.pairwise_append.2 ⟨hr.distinct, List.pairwise_singleton _ _, fun a ha b hb => ?_⟩
    rw [List.mem_singleton.1 hb]
    exact hnew a ha
  · rcases List.mem_append.1 hx with hx | hx
    · exact hr.checked x hx
    · exact List.mem_singleton.1 hx ▸ hchecked

theorem exists_of_update (hr : r.Valid) {c : Change}
    {rule : StakingModule → Except Fault StakingModule} (hc : c.steps = .update id rule)
    (h : r.apply c = .ok r') :
    ∃ before m m' rest, r.modules = before ++ m :: rest ∧ m.id = id ∧ rule m = .ok m' ∧
      r' = holding r.capacity (before ++ m' :: rest) := by
  rw [apply_update hc] at h
  obtain ⟨m, hm, h⟩ := bind_eq_ok.1 h
  obtain ⟨m', hrule, h⟩ := bind_eq_ok.1 h
  obtain ⟨hid, before, rest, hsplit, hbefore⟩ := get_eq_ok hm
  refine ⟨before, m, m', rest, hr.published.trans hsplit, hid, hrule, ?_⟩
  rw [← pure_eq_ok.1 h, hsplit, replace_append hbefore hid]

theorem update (hr : r.Valid) {c : Change} {rule : StakingModule → Except Fault StakingModule}
    (hc : c.steps = .update id rule) (hrule : KeepsSense rule) (h : r.apply c = .ok r') :
    r'.Valid ∧ r'.capacity = r.capacity := by
  obtain ⟨before, m, m', rest, hsplit, -, hm', rfl⟩ := hr.exists_of_update hc h
  have hm := hr.checked m (hsplit ▸ List.mem_append_right _ List.mem_cons_self)
  have hheld : (holding r.capacity (before ++ m :: rest)).Valid := hsplit ▸ hr.eq_holding ▸ hr
  obtain ⟨hid, hchecked⟩ := hrule m m' hm hm'
  exact ⟨hheld.set hid hchecked, rfl⟩

theorem setKeys (hr : r.Valid) {activeKeys availableKeys : Count}
    (h : r.setKeys id activeKeys availableKeys = .ok r') :
    r'.Valid ∧ r'.capacity = r.capacity := by
  refine hr.update rfl ?_ h
  exact keepsSense_ok (fun _ => rfl) (fun _ => rfl)

theorem recordDeposits (hr : r.Valid) {count : Nat} {block : Count}
    (h : r.recordDeposits id count block = .ok r') : r'.Valid ∧ r'.capacity = r.capacity :=
  hr.update rfl (keepsSense_deposited count block) h

theorem apply (hr : r.Valid) {change : Change} (h : r.apply change = .ok r') :
    r'.Valid ∧ r'.capacity = r.capacity := by
  cases change with
  | add m => exact hr.add h
  | setStatus id status =>
    refine hr.update rfl ?_ h
    exact keepsSense_ok (fun _ => rfl) (fun _ => rfl)
  | setFees id fee treasuryFee =>
    refine hr.update rfl ?_ h
    exact keepsSense_checked (fun _ => rfl)
  | setTarget id target =>
    refine hr.update rfl ?_ h
    exact keepsSense_checked (fun _ => rfl)
  | setKeys id activeKeys availableKeys => exact hr.setKeys h
  | recordDeposits id count block => exact hr.recordDeposits h

theorem foldlM {α : Type} {f : Registry → α → Except Fault Registry}
    (hf : ∀ {s x s'}, s.Valid → f s x = .ok s' → s'.Valid ∧ s'.capacity = s.capacity)
    (hr : r.Valid) {xs : List α} (h : xs.foldlM f r = .ok r') :
    r'.Valid ∧ r'.capacity = r.capacity := by
  refine foldlM_preserves (P := fun s => s.Valid ∧ s.capacity = r.capacity) xs ?_ ⟨hr, rfl⟩ h
  intro s x s' _ hs hx
  obtain ⟨hv, hcapacity⟩ := hf hs.1 hx
  exact ⟨hv, hcapacity.trans hs.2⟩

end Valid

/-! ### Built from a list -/

theorem foldlM_add : ∀ (ms : List StakingModule) {before : List StakingModule},
    (holding capacity (before ++ ms)).Valid →
      ms.foldlM add (holding capacity before) = .ok (holding capacity (before ++ ms))
  | [], before, _ => by
    rw [List.foldlM_nil, List.append_nil]
    rfl
  | m :: ms, before, h => by
    obtain ⟨-, hwithin, hdistinct, hchecked⟩ := holding_valid_iff.1 h
    have hadd : (holding capacity before).add m = .ok (holding capacity (before ++ [m])) := by
      refine add_eq_ok_iff.2 ⟨checkNew_eq_ok_iff.2 ⟨?_, fun x hx => ?_, hchecked m (by simp)⟩, rfl⟩
      · rw [List.length_append, List.length_cons] at hwithin
        show before.length < capacity.val
        omega
      · exact (List.pairwise_append.1 hdistinct).2.2 x hx m List.mem_cons_self
    rw [List.append_cons] at h ⊢
    rw [List.foldlM_cons, hadd]
    exact foldlM_add ms h

/-- What modules were registered in is a registry that holds them after those before. -/
theorem foldlM_add_eq_ok : ∀ (ms : List StakingModule) {before : List StakingModule},
    ms.foldlM add (holding capacity before) = .ok r → r = holding capacity (before ++ ms)
  | [], before, h => by
    rw [List.foldlM_nil, pure_eq_ok] at h
    rw [← h, List.append_nil]
  | m :: ms, before, h => by
    rw [List.foldlM_cons, bind_eq_ok] at h
    obtain ⟨s, hadd, h⟩ := h
    obtain ⟨-, rfl⟩ := add_eq_ok_iff.1 hadd
    rw [foldlM_add_eq_ok ms h, List.append_assoc]
    rfl

/-- A registry can be built of modules exactly if holding them makes it valid. -/
theorem ofModules_eq_ok_iff {ms : List StakingModule} :
    ofModules capacity ms = .ok r ↔ r = holding capacity ms ∧ r.Valid := by
  unfold ofModules
  constructor
  · intro h
    obtain ⟨s, hcreate, h⟩ := bind_eq_ok.1 h
    have hvalid := ((create_valid hcreate).1.foldlM Valid.add h).1
    obtain ⟨-, rfl⟩ := create_eq_ok_iff.1 hcreate
    exact ⟨foldlM_add_eq_ok ms h, hvalid⟩
  · rintro ⟨rfl, hr⟩
    have hcreate : create capacity = .ok (holding capacity []) :=
      create_eq_ok_iff.2 ⟨hr.capacity, rfl⟩
    rw [hcreate]
    exact foldlM_add ms hr

/-- A registry can be built again from its modules. -/
theorem Valid.ofModules_eq (hr : r.Valid) : ofModules r.capacity r.modules = .ok r :=
  ofModules_eq_ok_iff.2 ⟨hr.eq_holding, hr⟩

end Registry
end LiquidStaking

/-
Any number of changes of a registry.

A change that fails leaves the registry as it was, and one that is made adds a module at the end or
rewrites what it names of one module, in its place.  So whatever is changed in whatever order,
readers see the modules that were registered, as they were registered one after the other, and the
registry could be built again from what they see.
-/
import LiquidStaking.Proofs.Registry

namespace LiquidStaking
namespace Registry

namespace Change

/-- The module a change is about. -/
def id : Change → ModuleId
  | add m => m.id
  | setStatus id _ => id
  | setFees id _ _ => id
  | setTarget id _ => id
  | setKeys id _ _ => id
  | recordDeposits id _ _ => id

/-- What has to hold of a registry for a change to be made. -/
def Possible (r : Registry) : Change → Prop
  | add m => r.modules.length < r.capacity.val ∧ (∀ x ∈ r.modules, x.id ≠ m.id) ∧
      m.validate = .ok ()
  | setStatus id _ => ∃ m ∈ r.modules, m.id = id
  | setFees id fee treasuryFee => ∃ m ∈ r.modules, m.id = id ∧
      { m with fee, treasuryFee }.validate = .ok ()
  | setTarget id target => ∃ m ∈ r.modules, m.id = id ∧ { m with target }.validate = .ok ()
  | setKeys id _ _ => ∃ m ∈ r.modules, m.id = id
  | recordDeposits id count _ => ∃ m ∈ r.modules, m.id = id ∧ count ≤ m.availableKeys.val ∧
      m.activeKeys.val + count < Bounded.bound 64

/-- What a change makes of a module that is there. -/
def Sets : Change → StakingModule → StakingModule → Prop
  | add _, _, _ => False
  | setStatus _ status, m, m' => m' = { m with status }
  | setFees _ fee treasuryFee, m, m' => m' = { m with fee, treasuryFee }
  | setTarget _ target, m, m' => m' = { m with target }
  | setKeys _ activeKeys availableKeys, m, m' => m' = { m with activeKeys, availableKeys }
  | recordDeposits _ count block, m, m' =>
    m'.availableKeys.val + count = m.availableKeys.val ∧
      m'.activeKeys.val = m.activeKeys.val + count ∧
      m' = { m with
        availableKeys := m'.availableKeys
        activeKeys := m'.activeKeys
        lastDepositBlock := block }

/-- What a change makes of all modules: one more at the end, or another one in the place of the one
it is about. -/
inductive Makes : Change → List StakingModule → List StakingModule → Prop
  | add (m : StakingModule) (ms : List StakingModule) : Makes (.add m) ms (ms ++ [m])
  | set {c : Change} {before rest : List StakingModule} {m m' : StakingModule} (hid : m.id = c.id)
      (hset : c.Sets m m') : Makes c (before ++ m :: rest) (before ++ m' :: rest)

/-- The identifiers a change registers once it is made. -/
def news : Change → List ModuleId
  | add m => [m.id]
  | _ => []

/-- The identifiers a change registers. -/
def registers (r : Registry) (c : Change) : List ModuleId :=
  match (c.steps.on r).1 with
  | .ok _ => c.news
  | .error _ => []

theorem Sets.id_eq {c : Change} {m m' : StakingModule} (h : c.Sets m m') : m'.id = m.id := by
  cases c with
  | add m => exact h.elim
  | setStatus id status =>
    cases h
    rfl
  | setFees id fee treasuryFee =>
    cases h
    rfl
  | setTarget id target =>
    cases h
    rfl
  | setKeys id activeKeys availableKeys =>
    cases h
    rfl
  | recordDeposits id count block => rw [h.2.2]

theorem Makes.ids_eq {c : Change} {ms ms' : List StakingModule} (h : c.Makes ms ms') :
    ms'.map (·.id) = ms.map (·.id) ++ c.news := by
  cases h with
  | add m ms => exact List.map_append
  | set hid hset =>
    have hnone : c.news = [] := by
      cases c with
      | add m => exact hset.elim
      | _ => rfl
    rw [hnone, List.append_nil, List.map_append, List.map_append, List.map_cons, List.map_cons,
      hset.id_eq]

end Change

/-- How a registry answers a change, and what becomes of it. -/
structure Answers (r : Registry) (c : Change) (outcome : Except Fault Unit) (r' : Registry) :
    Prop where
  made_iff : outcome = .ok () ↔ c.Possible r
  made : outcome = .ok () → c.Makes r.modules r'.modules ∧ r'.capacity = r.capacity
  refused : ∀ cause, outcome = .error cause → r' = r

/-- The registry after changes, of which some are made and some fail. -/
def after (r : Registry) (changes : List Change) : Registry :=
  changes.foldl (fun r c => (c.steps.on r).2) r

/-- The identifiers that changes register, one after the other. -/
def registered : Registry → List Change → List ModuleId
  | _, [] => []
  | r, c :: cs => c.registers r ++ registered (c.steps.on r).2 cs

variable {r r' : Registry} {id : ModuleId} {c : Change} {capacity : Count}
  {rule : StakingModule → Except Fault StakingModule}

/-! ### One change -/

/-- Nothing is written before all that may fail has been asked. -/
theorem steps_cases (c : Change) (r : Registry) :
    (∃ cause, c.steps.on r = (.error cause, r)) ∨
      ∃ r', c.steps.on r = (.ok (), r') ∧ r.apply c = .ok r' := by
  have hupdate : ∀ id rule, c.steps = .update id rule →
      (∃ cause, c.steps.on r = (.error cause, r)) ∨
        ∃ r', c.steps.on r = (.ok (), r') ∧ r.apply c = .ok r' := by
    intro id rule hc
    have hon := InPlace.on_update id rule r
    unfold apply
    rw [hc]
    cases hrule : r.get id >>= rule with
    | error cause =>
      rw [hrule] at hon
      exact .inl ⟨cause, hon⟩
    | ok m =>
      rw [hrule] at hon
      exact .inr ⟨_, hon, by rw [hon]⟩
  cases c with
  | add m =>
    have hon := InPlace.on_register m r
    cases hcheck : r.checkNew m with
    | error cause =>
      rw [hcheck] at hon
      exact .inl ⟨cause, hon⟩
    | ok _ =>
      rw [hcheck] at hon
      exact .inr ⟨_, hon, add_eq_ok_iff.2 ⟨hcheck, rfl⟩⟩
  | setStatus id status => exact hupdate _ _ rfl
  | setFees id fee treasuryFee => exact hupdate _ _ rfl
  | setTarget id target => exact hupdate _ _ rfl
  | setKeys id activeKeys availableKeys => exact hupdate _ _ rfl
  | recordDeposits id count block => exact hupdate _ _ rfl

theorem made_iff_apply : (c.steps.on r).1 = .ok () ↔ ∃ r', r.apply c = .ok r' := by
  unfold apply
  rcases c.steps.on r with ⟨cause | _, r'⟩
  · exact ⟨fun h => (nomatch h), fun ⟨_, h⟩ => (nomatch h)⟩
  · exact ⟨fun _ => ⟨r', rfl⟩, fun _ => rfl⟩

namespace Valid

theorem get_of_mem (hr : r.Valid) {m : StakingModule} (hm : m ∈ r.modules) :
    r.get m.id = .ok m := by
  obtain ⟨before, rest, hsplit⟩ := List.append_of_mem hm
  have hdistinct := hr.distinct
  rw [hsplit] at hdistinct
  rw [hr.eq_holding, hsplit]
  exact get_of_distinct hdistinct

theorem exists_update_iff (hr : r.Valid) (hc : c.steps = .update id rule) :
    (∃ r', r.apply c = .ok r') ↔ ∃ m ∈ r.modules, m.id = id ∧ ∃ m', rule m = .ok m' := by
  constructor
  · rintro ⟨r', h⟩
    obtain ⟨before, m, m', rest, hsplit, hid, hrule, -⟩ := hr.exists_of_update hc h
    exact ⟨m, hsplit ▸ List.mem_append_right _ List.mem_cons_self, hid, m', hrule⟩
  · rintro ⟨m, hm, rfl, m', hrule⟩
    refine ⟨holding r.capacity (replace m.id m' r.records), ?_⟩
    rw [apply_update hc, hr.get_of_mem hm, ok_bind, hrule]
    rfl

theorem made_iff (hr : r.Valid) (c : Change) : (c.steps.on r).1 = .ok () ↔ c.Possible r := by
  have hsure : ∀ {id : ModuleId} {f : StakingModule → StakingModule},
      (∃ m ∈ r.modules, m.id = id ∧ ∃ m', (.ok (f m) : Except Fault StakingModule) = .ok m') ↔
        ∃ m ∈ r.modules, m.id = id :=
    ⟨fun ⟨m, hm, hid, _⟩ => ⟨m, hm, hid⟩, fun ⟨m, hm, hid⟩ => ⟨m, hm, hid, _, rfl⟩⟩
  rw [made_iff_apply]
  cases c with
  | add m =>
    have hadd : (∃ r', r.apply (.add m) = .ok r') ↔ r.checkNew m = .ok () :=
      ⟨fun ⟨_, h⟩ => (add_eq_ok_iff.1 h).1, fun h => ⟨_, add_eq_ok_iff.2 ⟨h, rfl⟩⟩⟩
    rw [hadd, checkNew_eq_ok_iff, size, ← hr.published]
    rfl
  | setStatus id status =>
    rw [hr.exists_update_iff rfl]
    exact hsure
  | setFees id fee treasuryFee =>
    rw [hr.exists_update_iff rfl]
    simp only [StakingModule.exists_checked_iff]
    rfl
  | setTarget id target =>
    rw [hr.exists_update_iff rfl]
    simp only [StakingModule.exists_checked_iff]
    rfl
  | setKeys id activeKeys availableKeys =>
    rw [hr.exists_update_iff rfl]
    exact hsure
  | recordDeposits id count block =>
    rw [hr.exists_update_iff rfl]
    simp only [StakingModule.exists_deposited_iff]
    rfl

theorem makes (hr : r.Valid) (h : r.apply c = .ok r') :
    c.Makes r.modules r'.modules ∧ r'.capacity = r.capacity := by
  have hset : ∀ {id : ModuleId} {rule : StakingModule → Except Fault StakingModule},
      c.steps = .update id rule → c.id = id → (∀ m m', rule m = .ok m' → c.Sets m m') →
        c.Makes r.modules r'.modules ∧ r'.capacity = r.capacity := by
    intro id rule hc hid hrule
    obtain ⟨before, m, m', rest, hsplit, hm, hm', rfl⟩ := hr.exists_of_update hc h
    rw [hsplit]
    exact ⟨.set (hm.trans hid.symm) (hrule m m' hm'), rfl⟩
  cases c with
  | add m =>
    obtain ⟨-, rfl⟩ := add_eq_ok_iff.1 h
    rw [← hr.published]
    exact ⟨.add m r.modules, rfl⟩
  | setStatus id status =>
    exact hset rfl rfl (fun m m' hrule => (Except.ok.inj hrule).symm)
  | setFees id fee treasuryFee =>
    exact hset rfl rfl (fun m m' hrule => (StakingModule.checked_eq_ok_iff.1 hrule).2)
  | setTarget id target =>
    exact hset rfl rfl (fun m m' hrule => (StakingModule.checked_eq_ok_iff.1 hrule).2)
  | setKeys id activeKeys availableKeys =>
    exact hset rfl rfl (fun m m' hrule => (Except.ok.inj hrule).symm)
  | recordDeposits id count block =>
    exact hset rfl rfl (fun m m' hrule => StakingModule.deposited_eq_ok_iff.1 hrule)

theorem answers (hr : r.Valid) (c : Change) :
    r.Answers c (c.steps.on r).1 (c.steps.on r).2 := by
  refine ⟨hr.made_iff c, fun hmade => ?_, fun cause hfail => ?_⟩
  · rcases steps_cases c r with ⟨cause, hon⟩ | ⟨r', hon, happly⟩
    · rw [hon] at hmade
      cases hmade
    · rw [hon]
      exact hr.makes happly
  · rcases steps_cases c r with ⟨cause, hon⟩ | ⟨r', hon, -⟩
    · rw [hon]
    · rw [hon] at hfail
      cases hfail

theorem step (hr : r.Valid) (c : Change) :
    (c.steps.on r).2.Valid ∧ (c.steps.on r).2.capacity = r.capacity := by
  rcases steps_cases c r with ⟨cause, hon⟩ | ⟨r', hon, happly⟩
  · rw [hon]
    exact ⟨hr, rfl⟩
  · rw [hon]
    exact hr.apply happly

theorem ids_step (hr : r.Valid) (c : Change) :
    (c.steps.on r).2.modules.map (·.id) = r.modules.map (·.id) ++ c.registers r := by
  unfold Change.registers
  rcases steps_cases c r with ⟨cause, hon⟩ | ⟨r', hon, happly⟩
  · rw [hon]
    exact (List.append_nil _).symm
  · rw [hon]
    exact (hr.makes happly).1.ids_eq

/-! ### Any number of changes -/

theorem after (hr : r.Valid) (changes : List Change) :
    (r.after changes).Valid ∧ (r.after changes).capacity = r.capacity := by
  induction changes generalizing r with
  | nil => exact ⟨hr, rfl⟩
  | cons c changes ih =>
    obtain ⟨hstep, hcapacity⟩ := hr.step c
    obtain ⟨hafter, hsame⟩ := ih hstep
    exact ⟨hafter, hsame.trans hcapacity⟩

theorem ids_after (hr : r.Valid) (changes : List Change) :
    (r.after changes).modules.map (·.id) = r.modules.map (·.id) ++ r.registered changes := by
  induction changes generalizing r with
  | nil => exact (List.append_nil _).symm
  | cons c changes ih =>
    show ((c.steps.on r).2.after changes).modules.map (·.id) = _
    rw [ih (hr.step c).1, hr.ids_step, List.append_assoc]
    rfl

end Valid

/-- After any changes of a new registry, readers see the modules that were registered, in that
order, with identifiers of their own, settings that make sense, and no more of them than the bound.
Every further change is made exactly if it is possible, to one module and what it names of that, or
leaves the registry as it was.  And what readers see is enough to build the registry again. -/
theorem published_after_changes {start : Registry} (hcreate : create capacity = .ok start)
    (changes : List Change) :
    ((start.after changes).modules = (start.after changes).records ∧
        (start.after changes).modules.map (·.id) = start.registered changes) ∧
      ((start.after changes).modules.Pairwise (fun a b => a.id ≠ b.id) ∧
        (start.after changes).modules.length ≤ capacity.val ∧
        ∀ m ∈ (start.after changes).modules, m.validate = .ok ()) ∧
      (∀ c : Change, (start.after changes).Answers c (c.steps.on (start.after changes)).1
        (c.steps.on (start.after changes)).2) ∧
      ofModules capacity (start.after changes).modules = .ok (start.after changes) := by
  obtain ⟨hstart, rfl⟩ := create_valid hcreate
  obtain ⟨hafter, hcapacity⟩ := hstart.after changes
  have hempty : start.modules = [] := by rw [(create_eq_ok_iff.1 hcreate).2]; rfl
  have hids := hstart.ids_after changes
  rw [hempty] at hids
  have hwithin : (start.after changes).modules.length ≤ (start.after changes).capacity.val :=
    hafter.published ▸ hafter.within
  rw [hcapacity] at hwithin
  have hrebuilt := hafter.ofModules_eq
  rw [hcapacity] at hrebuilt
  exact ⟨⟨hafter.published, hids⟩, ⟨hafter.distinct, hwithin, hafter.checked⟩, hafter.answers,
    hrebuilt⟩

/-- Two modules under a bound of two, a third one that is refused, other fees for the first, a
target above the whole that is refused, and a deposit. -/
def busyChanges : List Change :=
  [.add ⟨7, "b", .ofCount 1, 5000, 500, 500, .active, 1, 2, Bounded.zero⟩,
    .add ⟨3, "a", .ofCount 2, 10000, 0, 100, .depositsPaused, 4, 0, Bounded.zero⟩,
    .add ⟨9, "c", .ofCount 3, 10000, 0, 0, .active, 0, 0, Bounded.zero⟩,
    .setFees 7 300 200,
    .setTarget 3 10001,
    .recordDeposits 7 1 5]

theorem published_after_changes_busy :
    create 2 = .ok (holding 2 []) ∧
      ((holding 2 []).after busyChanges).modules =
        [⟨7, "b", .ofCount 1, 5000, 300, 200, .active, 2, 1, 5⟩,
          ⟨3, "a", .ofCount 2, 10000, 0, 100, .depositsPaused, 4, 0, Bounded.zero⟩] ∧
      ((holding 2 []).after busyChanges).modules.map (·.id) =
        (holding 2 []).registered busyChanges ∧
      (((Change.setTarget 3 10001).steps.on ((holding 2 []).after busyChanges)).1 =
          .error (.invalidSetting "target_share_bps" "10001" "at most 10000 (100%)") ∧
        ((Change.setTarget 3 10001).steps.on ((holding 2 []).after busyChanges)).2 =
          (holding 2 []).after busyChanges) ∧
      ofModules 2 ((holding 2 []).after busyChanges).modules =
        .ok ((holding 2 []).after busyChanges) := by
  have hcreate : create 2 = .ok (holding 2 []) := rfl
  obtain ⟨⟨-, hids⟩, -, hanswers, hrebuilt⟩ := published_after_changes hcreate busyChanges
  have hrefused : ((Change.setTarget 3 10001).steps.on ((holding 2 []).after busyChanges)).1 =
      .error (.invalidSetting "target_share_bps" "10001" "at most 10000 (100%)") :=
    rfl
  exact ⟨hcreate, by decide +kernel, hids,
    ⟨hrefused, (hanswers (.setTarget 3 10001)).refused _ hrefused⟩, hrebuilt⟩

end Registry
end LiquidStaking

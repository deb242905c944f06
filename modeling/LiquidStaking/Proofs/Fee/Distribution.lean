/-
What a distribution of rewards comes to.

The modules with active keys are listed in their order, each with what its operator is paid, and
their charges add up to the total fee.  Since charges never exceed the whole, nothing overflows, and
the distribution is refused only if they reach it.  The status of a module decides who gets its
operator's fee, and nothing else.
-/
import LiquidStaking.Proofs.Fee.Charges
import Mathlib.Data.List.Basic

namespace LiquidStaking

namespace FeeSplit

variable {keys : Nat} {m : StakingModule}

/-- Whether a split lists modules in their order, each with what its operator is paid. -/
structure Lists (keys : Nat) (ms : List StakingModule) (s : FeeSplit) : Prop where
  moduleIds : s.moduleIds = ms.map (·.id)
  recipients : s.recipients = ms.map (·.address)
  moduleFees : s.moduleFees.map (·.val) = ms.map (paid keys)
  totalFee : s.totalFee.val = (ms.map (charge keys)).sum
  precision : s.precision.val = feeBase

namespace Lists

variable {ms : List StakingModule} {s s' : FeeSplit}

theorem empty (keys : Nat) : Lists keys [] empty := ⟨rfl, rfl, rfl, rfl, rfl⟩

theorem eq (h : Lists keys ms s) (h' : Lists keys ms s') : s = s' := by
  obtain ⟨ids, recipients, fees, total, precision⟩ := s
  obtain ⟨ids', recipients', fees', total', precision'⟩ := s'
  obtain rfl : ids = ids' := h.moduleIds.trans h'.moduleIds.symm
  obtain rfl : recipients = recipients' := h.recipients.trans h'.recipients.symm
  obtain rfl : fees = fees' := Function.Injective.list_map (fun _ _ hval => Bounded.ext hval)
    (h.moduleFees.trans h'.moduleFees.symm)
  obtain rfl : total = total' := Bounded.ext (h.totalFee.trans h'.totalFee.symm)
  obtain rfl : precision = precision' := Bounded.ext (h.precision.trans h'.precision.symm)
  rfl

theorem total_moduleFees (h : Lists keys ms s) :
    Bounded.total s.moduleFees = (ms.map (paid keys)).sum := by
  rw [Bounded.total_eq_sum, h.moduleFees]

theorem paid_le (h : Lists keys ms s) : Bounded.total s.moduleFees ≤ s.totalFee.val := by
  rw [h.total_moduleFees, h.totalFee]
  exact sum_paid_le keys ms

theorem of_addModule (h : Lists keys ms s) (hadd : FeeSplit.addModule keys s m = .ok s') :
    Lists keys (ms ++ [m]) s' := by
  simp only [FeeSplit.addModule, bind_eq_ok, mulDivAmount_down_eq_ok_iff,
    Bounded.add_eq_ok_iff] at hadd
  obtain ⟨w, ⟨-, -, hw⟩, fee, ⟨-, -, hfee⟩, treasuryFee, ⟨-, -, htreasury⟩, both, hboth, total,
    htotal, hadd⟩ := hadd
  cases pure_eq_ok.1 hadd
  have hpart : fee.val = part keys m m.fee := by rw [hfee, hw]; rfl
  have hrest : treasuryFee.val = part keys m m.treasuryFee := by rw [htreasury, hw]; rfl
  refine ⟨?_, ?_, ?_, ?_, h.precision⟩
  · simp [h.moduleIds]
  · simp [h.recipients]
  · by_cases hstopped : m.status = .stopped
    · simp [h.moduleFees, paid, hstopped]
    · simp [h.moduleFees, paid, hstopped, hpart]
  · show total.val = _
    rw [← htotal, ← hboth, hpart, hrest, h.totalFee, List.map_append, List.sum_append,
      List.map_singleton, List.sum_singleton, charge]

theorem addModule (h : Lists keys ms s) (hkeys : keys ≠ 0) (hactive : m.activeKeys.val ≤ keys)
    (hm : m.fee.val + m.treasuryFee.val ≤ basisPointsBase)
    (hroom : s.totalFee.val + charge keys m ≤ feeBase) :
    ∃ s', addModule keys s m = .ok s' ∧ Lists keys (ms ++ [m]) s' := by
  have hfits : ∀ {n : Nat}, n ≤ feeBase → n < Bounded.bound 128 :=
    fun hn => Nat.lt_of_le_of_lt hn (by decide)
  have hweight : weight keys m ≤ feeBase :=
    Nat.div_le_of_le_mul (Nat.mul_le_mul_right _ hactive)
  obtain ⟨w, hw⟩ := Bounded.exists_val (hfits hweight)
  have hweighed : mulDivAmount m.activeKeys.val feeBase keys .down = .ok w :=
    mulDivAmount_down_eq_ok_iff.2 ⟨hkeys, Nat.lt_of_lt_of_le
      (Nat.mul_lt_mul_of_pos_right m.activeKeys.isLt (by decide)) (by decide), hw⟩
  have hpart : ∀ points : BasisPoints, points.val ≤ basisPointsBase →
      part keys m points ≤ feeBase → ∃ fee : Amount, fee.val = part keys m points ∧
        mulDivAmount w.val points.val basisPointsBase .down = .ok fee := by
    intro points hpoints hle
    obtain ⟨fee, hfee⟩ := Bounded.exists_val (hfits hle)
    have hproduct : w.val * points.val < productLimit :=
      Nat.lt_of_le_of_lt (Nat.mul_le_mul (hw ▸ hweight) hpoints) (by decide)
    exact ⟨fee, hfee, mulDivAmount_down_eq_ok_iff.2
      ⟨by decide, hproduct, by rw [hfee, part, hw]⟩⟩
  have hcharge : part keys m m.fee + part keys m m.treasuryFee ≤ feeBase := by
    rw [charge] at hroom
    omega
  obtain ⟨f, hf, hfee⟩ := hpart m.fee (by omega) (by omega)
  obtain ⟨t, ht, htreasury⟩ := hpart m.treasuryFee (by omega) (by omega)
  obtain ⟨both, hboth⟩ := Bounded.exists_val (hfits hcharge)
  obtain ⟨total, htotal⟩ := Bounded.exists_val (hfits hroom)
  have hadded : f.add t = .ok both := Bounded.add_eq_ok_iff.2 (by rw [hf, ht, hboth])
  have hsum : s.totalFee.add both = .ok total :=
    Bounded.add_eq_ok_iff.2 (by rw [hboth, htotal, charge])
  have hok : ∃ s', FeeSplit.addModule keys s m = .ok s' := by
    unfold FeeSplit.addModule
    simp only [hweighed, hfee, htreasury, hadded, hsum, ok_bind]
    exact ⟨_, rfl⟩
  obtain ⟨s', hs'⟩ := hok
  exact ⟨s', hs', h.of_addModule hs'⟩

theorem of_foldlM_addModule : ∀ (rest : List StakingModule) {done : List StakingModule}
    {s : FeeSplit}, Lists keys done s → rest.foldlM (FeeSplit.addModule keys) s = .ok s' →
      Lists keys (done ++ rest) s'
  | [], done, s, h, hfold => by
    cases pure_eq_ok.1 hfold
    rw [List.append_nil]
    exact h
  | m :: rest, done, s, h, hfold => by
    rw [List.foldlM_cons, bind_eq_ok] at hfold
    obtain ⟨t, ht, hfold⟩ := hfold
    have hall := of_foldlM_addModule rest (h.of_addModule ht) hfold
    rw [List.append_assoc] at hall
    exact hall

theorem foldlM_addModule (hkeys : keys ≠ 0) : ∀ (rest : List StakingModule)
    {done : List StakingModule} {s : FeeSplit}, Lists keys done s →
      (∀ m ∈ rest, m.activeKeys.val ≤ keys ∧ m.fee.val + m.treasuryFee.val ≤ basisPointsBase) →
        s.totalFee.val + (rest.map (charge keys)).sum ≤ feeBase →
          ∃ s', rest.foldlM (FeeSplit.addModule keys) s = .ok s' ∧ Lists keys (done ++ rest) s'
  | [], done, s, h, _, _ => ⟨s, rfl, by rw [List.append_nil]; exact h⟩
  | m :: rest, done, s, h, hrest, hroom => by
    rw [List.map_cons, List.sum_cons] at hroom
    obtain ⟨hactive, hm⟩ := hrest m List.mem_cons_self
    obtain ⟨t, ht, hadded⟩ := h.addModule hkeys hactive hm (by omega)
    have htotal : t.totalFee.val = s.totalFee.val + charge keys m := by
      rw [hadded.totalFee, h.totalFee, List.map_append, List.sum_append, List.map_singleton,
        List.sum_singleton]
    obtain ⟨s', hs', hall⟩ := foldlM_addModule hkeys rest hadded
      (fun x hx => hrest x (List.mem_cons_of_mem _ hx)) (by omega)
    refine ⟨s', ?_, ?_⟩
    · rw [List.foldlM_cons, ht, ok_bind, hs']
    · rw [List.append_assoc] at hall
      exact hall

end Lists

/-- The modules with active keys. -/
def working (ms : List StakingModule) : List StakingModule :=
  ms.filter (fun m => m.activeKeys.val ≠ 0)

variable {ms : List StakingModule}

theorem mem_working : m ∈ working ms ↔ m ∈ ms ∧ m.activeKeys.val ≠ 0 := by
  simp [working]

theorem activeKeys_le_keysOf (hm : m ∈ ms) : m.activeKeys.val ≤ keysOf ms := by
  induction ms with
  | nil => cases hm
  | cons x ms ih =>
    rw [keysOf, List.map_cons, Bounded.total_cons]
    rcases List.mem_cons.1 hm with rfl | hm
    · exact Nat.le_add_right _ _
    · exact Nat.le_add_left_of_le (ih hm)

theorem fees_le_of_working (hms : ∀ m ∈ ms, m.fee.val + m.treasuryFee.val ≤ basisPointsBase) :
    ∀ m ∈ working ms, m.fee.val + m.treasuryFee.val ≤ basisPointsBase :=
  fun m hm => hms m (mem_working.1 hm).1

theorem keysOf_working_ne_zero (h : working ms ≠ []) : keysOf (working ms) ≠ 0 := by
  obtain ⟨m, hm⟩ := List.exists_mem_of_ne_nil _ h
  have hle := activeKeys_le_keysOf hm
  have hne := (mem_working.1 hm).2
  omega

theorem total_working_le (hms : ∀ m ∈ ms, m.fee.val + m.treasuryFee.val ≤ basisPointsBase) :
    ((working ms).map (charge (keysOf (working ms)))).sum ≤ feeBase := by
  by_cases hnone : working ms = []
  · rw [hnone]
    exact Nat.zero_le _
  · exact sum_charge_le (keysOf_working_ne_zero hnone) (fees_le_of_working hms)

/-- All there is to a distribution: the working modules are listed, and the split is refused if
their charges reach the whole. -/
theorem ofModules_eq (hms : ∀ m ∈ ms, m.fee.val + m.treasuryFee.val ≤ basisPointsBase) :
    ∃ s, Lists (keysOf (working ms)) (working ms) s ∧
      ofModules ms = if feeBase ≤ s.totalFee.val then
        .error (.feeExceedsTotal s.totalFee.val feeBase) else .ok s := by
  have hfold : ∃ s, (working ms).foldlM (addModule (keysOf (working ms))) FeeSplit.empty = .ok s ∧
      Lists (keysOf (working ms)) (working ms) s := by
    by_cases hnone : working ms = []
    · rw [hnone]
      exact ⟨_, rfl, .empty _⟩
    · refine Lists.foldlM_addModule (keysOf_working_ne_zero hnone) _ (.empty _)
        (fun m hm => ⟨activeKeys_le_keysOf hm, fees_le_of_working hms m hm⟩) ?_
      show 0 + _ ≤ _
      rw [Nat.zero_add]
      exact total_working_le hms
  obtain ⟨s, hs, hlists⟩ := hfold
  refine ⟨s, hlists, ?_⟩
  show ((working ms).foldlM (addModule (keysOf (working ms))) FeeSplit.empty >>= fun split =>
    if split.precision.val ≤ split.totalFee.val then
      throw (.feeExceedsTotal split.totalFee.val split.precision.val) else return split) = _
  rw [hs, ok_bind, hlists.precision]
  rfl

/-- What a distribution that is not refused comes to. -/
structure Distributes (ms : List StakingModule) (s : FeeSplit) : Prop where
  lists : Lists (keysOf (working ms)) (working ms) s
  paid_le : Bounded.total s.moduleFees ≤ s.totalFee.val
  totalFee_lt : s.totalFee.val < feeBase
  treasuryFee : ∃ treasury, s.treasuryFee = .ok treasury ∧
    treasury.val + Bounded.total s.moduleFees = s.totalFee.val
  le_exactFee : s.totalFee.val * (keysOf (working ms) * basisPointsBase) ≤
    ((working ms).map exactFee).sum
  exactFee_lt : working ms ≠ [] → ((working ms).map exactFee).sum <
    (s.totalFee.val + 3 * (working ms).length) * (keysOf (working ms) * basisPointsBase)

theorem treasuryFee_eq_ok {s : FeeSplit} {treasury : Amount}
    (h : treasury.val + Bounded.total s.moduleFees = s.totalFee.val) :
    s.treasuryFee = .ok treasury := by
  have hlt := s.totalFee.isLt
  have hfits : Bounded.total s.moduleFees < Bounded.bound 128 := by omega
  obtain ⟨sum, hsum⟩ := Bounded.exists_val hfits
  unfold treasuryFee
  rw [Bounded.sum_eq_ok hsum.symm, ok_bind, Bounded.sub_eq_ok_iff, hsum]
  exact h.symm

theorem exists_treasuryFee {s : FeeSplit} (h : Bounded.total s.moduleFees ≤ s.totalFee.val) :
    ∃ treasury, s.treasuryFee = .ok treasury ∧
      treasury.val + Bounded.total s.moduleFees = s.totalFee.val := by
  obtain ⟨treasury, htreasury⟩ :=
    Bounded.exists_val (Nat.lt_of_le_of_lt (Nat.sub_le _ (Bounded.total s.moduleFees))
      s.totalFee.isLt)
  have hsum : treasury.val + Bounded.total s.moduleFees = s.totalFee.val := by omega
  exact ⟨treasury, treasuryFee_eq_ok hsum, hsum⟩

theorem Lists.distributes {s : FeeSplit}
    (hms : ∀ m ∈ ms, m.fee.val + m.treasuryFee.val ≤ basisPointsBase)
    (h : Lists (keysOf (working ms)) (working ms) s) (hlt : s.totalFee.val < feeBase) :
    Distributes ms s where
  lists := h
  paid_le := h.paid_le
  totalFee_lt := hlt
  treasuryFee := exists_treasuryFee h.paid_le
  le_exactFee := by
    rw [h.totalFee]
    exact sum_charge_le_exactFee _ _
  exactFee_lt hne := by
    rw [h.totalFee]
    exact sum_exactFee_lt (keysOf_working_ne_zero hne) hne (fees_le_of_working hms)

/- Stopping a module. -/

/-- The split with nothing for the operator at place `i`. -/
def withhold (s : FeeSplit) (i : Nat) : FeeSplit :=
  { s with moduleFees := s.moduleFees.set i Bounded.zero }

/-- Whether the treasury gets what the operator at place `i` got, once that is withheld. -/
def Redirects (s : FeeSplit) (i : Nat) : Prop :=
  ∃ removed treasury treasury', s.moduleFees[i]? = some removed ∧
    s.treasuryFee = .ok treasury ∧ (s.withhold i).treasuryFee = .ok treasury' ∧
      treasury'.val = treasury.val + removed.val

theorem redirects {s : FeeSplit} {i : Nat} (h : Bounded.total s.moduleFees ≤ s.totalFee.val)
    (hi : i < s.moduleFees.length) : s.Redirects i := by
  obtain ⟨removed, hremoved⟩ : ∃ removed, s.moduleFees[i]? = some removed :=
    ⟨_, List.getElem?_eq_getElem hi⟩
  have hset : Bounded.total (s.withhold i).moduleFees + removed.val =
      Bounded.total s.moduleFees := Bounded.total_set hremoved Bounded.zero
  have hsame : (s.withhold i).totalFee = s.totalFee := rfl
  obtain ⟨treasury, htreasury, hsum⟩ := exists_treasuryFee h
  obtain ⟨treasury', htreasury', hsum'⟩ := exists_treasuryFee (s := s.withhold i)
    (by rw [hsame]; omega)
  rw [hsame] at hsum'
  exact ⟨removed, treasury, treasury', hremoved, htreasury, htreasury', by omega⟩

theorem working_append (before after : List StakingModule) :
    working (before ++ after) = working before ++ working after := List.filter_append _ _

theorem working_cons_of_ne (h : m.activeKeys.val ≠ 0) (after : List StakingModule) :
    working (m :: after) = m :: working after := by
  simp [working, h]

theorem working_cons_of_eq (h : m.activeKeys.val = 0) (after : List StakingModule) :
    working (m :: after) = working after := by
  simp [working, h]

/-- A stopped module keeps its weight and its charge, and its operator is paid nothing. -/
theorem Lists.withhold {before after : List StakingModule} {s : FeeSplit}
    (h : Lists keys (before ++ m :: after) s) :
    Lists keys (before ++ { m with status := .stopped } :: after) (s.withhold before.length) where
  moduleIds := by
    show s.moduleIds = _
    rw [h.moduleIds, List.map_append, List.map_append]
    rfl
  recipients := by
    show s.recipients = _
    rw [h.recipients, List.map_append, List.map_append]
    rfl
  moduleFees := by
    show (s.moduleFees.set before.length Bounded.zero).map (·.val) = _
    have hnone : paid keys { m with status := .stopped } = 0 := if_pos rfl
    rw [List.map_set, h.moduleFees, List.map_append, List.map_append, List.map_cons, List.map_cons,
      hnone, List.set_append_right _ _ (Nat.le_of_eq (List.length_map _)), List.length_map,
      Nat.sub_self, List.set_cons_zero]
    rfl
  totalFee := by
    show s.totalFee.val = _
    rw [h.totalFee, List.map_append, List.map_append]
    rfl
  precision := h.precision

variable {before after : List StakingModule}

theorem stopped_fees_le
    (hms : ∀ x ∈ before ++ m :: after, x.fee.val + x.treasuryFee.val ≤ basisPointsBase) :
    ∀ x ∈ before ++ { m with status := .stopped } :: after,
      x.fee.val + x.treasuryFee.val ≤ basisPointsBase := by
  intro x hx
  rcases List.mem_append.1 hx with hx | hx
  · exact hms x (List.mem_append_left _ hx)
  · rcases List.mem_cons.1 hx with rfl | hx
    · exact hms m (List.mem_append_right _ List.mem_cons_self)
    · exact hms x (List.mem_append_right _ (List.mem_cons_of_mem _ hx))

/-- A module without active keys has no entry to lose. -/
theorem ofModules_stop_idle (h : m.activeKeys.val = 0) :
    ofModules (before ++ { m with status := .stopped } :: after) =
      ofModules (before ++ m :: after) := by
  have hworking : working (before ++ { m with status := .stopped } :: after) =
      working (before ++ m :: after) := by
    rw [working_append, working_append, working_cons_of_eq h,
      working_cons_of_eq (m := { m with status := .stopped }) h]
  show ((working _).foldlM (addModule (keysOf (working _))) FeeSplit.empty >>= _) =
    ((working _).foldlM (addModule (keysOf (working _))) FeeSplit.empty >>= _)
  rw [hworking]

/-- Stopping a module with active keys withholds its operator's fee and changes nothing else. -/
theorem ofModules_stop
    (hms : ∀ x ∈ before ++ m :: after, x.fee.val + x.treasuryFee.val ≤ basisPointsBase)
    (h : m.activeKeys.val ≠ 0) :
    ofModules (before ++ { m with status := .stopped } :: after) =
      (ofModules (before ++ m :: after)).map (·.withhold (working before).length) := by
  obtain ⟨s, hs, hsplit⟩ := ofModules_eq hms
  obtain ⟨s', hs', hsplit'⟩ := ofModules_eq (stopped_fees_le hms)
  rw [working_append, working_cons_of_ne h] at hs
  rw [working_append, working_cons_of_ne (m := { m with status := .stopped }) h] at hs'
  have hkeys : keysOf (working before ++ { m with status := .stopped } :: working after) =
      keysOf (working before ++ m :: working after) := by
    rw [keysOf, keysOf, List.map_append, List.map_append]
    rfl
  rw [hkeys] at hs'
  obtain rfl : s.withhold (working before).length = s' := hs.withhold.eq hs'
  have hsame : (s.withhold (working before).length).totalFee = s.totalFee := rfl
  rw [hsplit, hsplit', hsame]
  by_cases hwhole : feeBase ≤ s.totalFee.val
  · rw [if_pos hwhole, if_pos hwhole]
    rfl
  · rw [if_neg hwhole, if_neg hwhole]
    rfl

/-- A distribution is refused only where every working module charges everything, and otherwise
lists the working modules with charges that never exceed the exact fees.  Stopping a module moves
its operator's fee to the treasury and nothing else. -/
theorem ofModules_distributes (ms : List StakingModule)
    (hms : ∀ m ∈ ms, m.fee.val + m.treasuryFee.val ≤ basisPointsBase) :
    (∀ cause, ofModules ms = .error cause → cause = .feeExceedsTotal feeBase feeBase ∧
      working ms ≠ [] ∧ ∀ m ∈ working ms, m.fee.val + m.treasuryFee.val = basisPointsBase) ∧
    (∀ s, ofModules ms = .ok s → Distributes ms s) ∧
    ∀ before m after, ms = before ++ m :: after →
      (m.activeKeys.val = 0 →
        ofModules (before ++ { m with status := .stopped } :: after) = ofModules ms) ∧
      (m.activeKeys.val ≠ 0 → (working ms)[(working before).length]? = some m ∧
        ofModules (before ++ { m with status := .stopped } :: after) =
          (ofModules ms).map (·.withhold (working before).length) ∧
        ∀ s, ofModules ms = .ok s → s.Redirects (working before).length) := by
  obtain ⟨s, hs, hsplit⟩ := ofModules_eq hms
  have hle := total_working_le hms
  rw [← hs.totalFee] at hle
  refine ⟨fun cause hcause => ?_, fun s' hs' => ?_, ?_⟩
  · rw [hsplit] at hcause
    split at hcause
    · next hwhole =>
      have htotal : s.totalFee.val = feeBase := Nat.le_antisymm hle hwhole
      cases hcause
      rw [hs.totalFee] at hwhole
      refine ⟨by rw [htotal], fun hnone => ?_, fun m hm => ?_⟩
      · rw [hnone] at hwhole
        exact absurd hwhole (by decide)
      · exact fees_eq_of_le_sum_charge (fees_le_of_working hms) hwhole m hm (mem_working.1 hm).2
    · cases hcause
  · rw [hsplit] at hs'
    split at hs'
    · cases hs'
    · next hlt =>
      cases hs'
      exact hs.distributes hms (Nat.not_le.1 hlt)
  · rintro before m after rfl
    refine ⟨ofModules_stop_idle, fun hkeys => ⟨?_, ofModules_stop hms hkeys, fun s' hs' => ?_⟩⟩
    · rw [working_append, working_cons_of_ne hkeys]
      simp
    · rw [hsplit] at hs'
      split at hs'
      · cases hs'
      · cases hs'
        refine redirects hs.paid_le ?_
        have hlength := congrArg List.length hs.moduleFees
        rw [List.length_map, List.length_map, working_append, working_cons_of_ne hkeys,
          List.length_append, List.length_cons] at hlength
        omega

/-- A module at five percent for its operator and `treasury` for the treasury. -/
def fivePercent (id : ModuleId) (treasury : BasisPoints) (keys : Count) : StakingModule where
  id := id
  name := ""
  address := .zero
  target := 10000
  fee := 500
  treasuryFee := treasury
  status := .active
  activeKeys := keys
  availableKeys := Bounded.zero
  lastDepositBlock := Bounded.zero

/-- Three modules at ten percent that share the keys, and an idle one between them. -/
def thirds : List StakingModule :=
  [fivePercent 1 500 1, fivePercent 2 500 Bounded.zero, fivePercent 3 500 1, fivePercent 4 500 1]

/-- Rounding takes four units off ten percent.  Once the third module is stopped, its entry is the
second one of the split. -/
theorem ofModules_distributes_thirds :
    (∃ s, ofModules thirds = .ok s ∧ Distributes thirds s ∧
      s.totalFee.val + 4 = feeBase / 10 ∧ s.Redirects 1 ∧
      ofModules [fivePercent 1 500 1, fivePercent 2 500 Bounded.zero,
        { fivePercent 3 500 1 with status := .stopped }, fivePercent 4 500 1] =
          .ok (s.withhold 1)) ∧
    ofModules [fivePercent 1 9500 1] = .error (.feeExceedsTotal feeBase feeBase) ∧
      ∀ m ∈ working [fivePercent 1 9500 1], m.fee.val + m.treasuryFee.val = basisPointsBase := by
  obtain ⟨-, hlists, hstop⟩ := ofModules_distributes thirds (by decide)
  obtain ⟨-, hlast⟩ := hstop [fivePercent 1 500 1, fivePercent 2 500 Bounded.zero]
    (fivePercent 3 500 1) [fivePercent 4 500 1] rfl
  obtain ⟨-, hstopped, hredirects⟩ := hlast (by decide)
  have hrefused : ofModules [fivePercent 1 9500 1] = .error (.feeExceedsTotal feeBase feeBase) := by
    decide +kernel
  obtain ⟨hall, -, -⟩ := ofModules_distributes [fivePercent 1 9500 1] (by decide)
  have hok : ∃ s, ofModules thirds = .ok s ∧ s.totalFee.val + 4 = feeBase / 10 := by
    refine ⟨⟨[1, 3, 4], [.zero, .zero, .zero],
      [1666666666666666666, 1666666666666666666, 1666666666666666666],
      9999999999999999996, 100000000000000000000⟩, ?_, ?_⟩
    · decide +kernel
    · decide +kernel
  obtain ⟨s, hs, htotal⟩ := hok
  refine ⟨⟨s, hs, hlists s hs, htotal, hredirects s hs, ?_⟩, hrefused, (hall _ hrefused).2.2⟩
  rw [hs] at hstopped
  exact hstopped

end FeeSplit
end LiquidStaking

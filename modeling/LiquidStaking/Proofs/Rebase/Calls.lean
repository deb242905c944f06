/-
A budget over all the calls of its report.

Calls may come in any order and any number.  A change is granted as far as there is room for it,
and one that leaves room never uses up the budget: what it consumes is rounded down, and the bound
it stays below was rounded down as well.  So a budget that is used up has been asked for all that
was left, and it stays used up.
-/
import LiquidStaking.Proofs.Rebase.Cycle

namespace LiquidStaking

def RateChange.amount : RateChange → Nat
  | ether amount => amount
  | shares amount => amount

/-- What a budget is called with. -/
inductive BudgetCall
  /-- The balance change of the report. -/
  | delta (d : Delta)
  | change (c : RateChange)
deriving DecidableEq

namespace RebaseBudget

/-- The room that is left for a change, in its own unit. -/
def room (b : RebaseBudget) : RateChange → Except Fault Nat
  | .ether _ => b.remainingEther
  | .shares _ => b.remainingShares

/-- How much of a change is granted, and the budget it leaves. -/
def grant (b : RebaseBudget) (c : RateChange) : Except Fault (Nat × RebaseBudget) :=
  match c with
  | .ether amount => b.appendEther amount
  | .shares amount => b.deductShares amount

def answer (b : RebaseBudget) : BudgetCall → Except Fault (Nat × RebaseBudget)
  | .delta d => b.applyDelta d
  | .change c => b.grant c

/-- What a call answers, and the budget that the next call finds. -/
def call (b : RebaseBudget) (c : BudgetCall) : Except Fault Nat × RebaseBudget :=
  match b.answer c with
  | .ok (allowed, b) => (.ok allowed, b)
  | .error cause => (.error cause, b)

def after (b : RebaseBudget) (calls : List BudgetCall) : RebaseBudget :=
  calls.foldl (fun b c => (b.call c).2) b

/-- How many balance changes the calls get taken into account. -/
def deltasTaken : RebaseBudget → List BudgetCall → Nat
  | _, [] => 0
  | b, .delta d :: rest =>
    (if (b.call (.delta d)).1.isOk then 1 else 0) + deltasTaken (b.call (.delta d)).2 rest
  | b, .change c :: rest => deltasTaken (b.call (.change c)).2 rest

/-- What every budget keeps: no more is used than the limit, which is a positive part of the
whole. -/
structure Sane (b : RebaseBudget) : Prop where
  used_le : b.used.val ≤ b.limit.val
  limit_le : b.limit.val ≤ rebaseBase
  limit_pos : 0 < b.limit.val

variable {b b' : RebaseBudget} {c : RateChange} {allowed : Nat}

theorem call_cases (b : RebaseBudget) (c : BudgetCall) :
    (∃ cause, b.answer c = .error cause ∧ b.call c = (.error cause, b)) ∨
      ∃ allowed b', b.answer c = .ok (allowed, b') ∧ b.call c = (.ok allowed, b') := by
  unfold call
  cases b.answer c with
  | error cause => exact .inl ⟨cause, rfl, rfl⟩
  | ok given => exact .inr ⟨given.1, given.2, rfl, rfl⟩

theorem start_sane {fraction : Count} {poolBefore sharesBefore : Nat}
    (h : start fraction poolBefore sharesBefore = .ok b) : b.Sane := by
  have hpos := start_limit_pos h
  unfold start at h
  split at h
  · cases h
  · next hopen =>
    cases h
    exact ⟨Nat.zero_le _, Nat.not_lt.1 (fun hgt => hopen (.inr hgt)), hpos⟩

theorem isExhausted_iff : b.isExhausted = true ↔ b.used.val = b.limit.val :=
  beq_iff_eq.trans Bounded.val_inj.symm

/-! ### Granted changes -/

/-- A change gets what there is room for, and asking for all of that uses the budget up. -/
def AllowsRoom (b b' : RebaseBudget) (c : RateChange) (allowed : Nat) : Prop :=
  ∃ room, b.room c = .ok room ∧ allowed = min c.amount room ∧
    (b'.isExhausted = true ↔ room ≤ c.amount)

/-- How a budget that grants a change is left. -/
structure Grants (b b' : RebaseBudget) (c : RateChange) (allowed : Nat) : Prop where
  room : b.AllowsRoom b' c allowed
  used : b.used.val ≤ b'.used.val ∧ b'.used.val ≤ b'.limit.val
  limit : b'.limit = b.limit
  deltaApplied : b'.deltaApplied = b.deltaApplied

/-- A change for which there is more than enough room consumes less than what is left. -/
theorem charge_lt_remaining {room : Nat} (hroom : b.room c = .ok room) (hlt : c.amount < room) :
    c.charge b.poolBefore b.sharesBefore < b.remaining := by
  cases c with
  | ether amount =>
    obtain ⟨-, rfl⟩ := remainingEther_eq_ok_iff.1 hroom
    have hbound : (amount + 1) * rebaseBase ≤ b.remaining * b.poolBefore :=
      (Nat.le_div_iff_mul_le (by decide)).1 hlt
    have hbase : 0 < rebaseBase := by decide
    refine Nat.div_lt_of_lt_mul ?_
    rw [Nat.succ_mul] at hbound
    rw [Nat.mul_comm b.poolBefore]
    omega
  | shares amount =>
    obtain ⟨-, rfl⟩ := remainingShares_eq_ok_iff.1 hroom
    have hbound : (amount + 1) * (rebaseBase + b.remaining) ≤ b.sharesBefore * b.remaining :=
      (Nat.le_div_iff_mul_le (Nat.add_pos_left (by decide) _)).1 hlt
    have hbase : 0 < rebaseBase := by decide
    -- The shares that leave are charged against those that stay.
    refine Nat.div_lt_of_lt_mul ?_
    rw [Nat.succ_mul, Nat.mul_add] at hbound
    rw [Nat.sub_mul]
    omega

theorem room_of_exhausted (h : b.isExhausted = true) (c : RateChange) : b.room c = .ok 0 := by
  have hnone : b.remaining = 0 := by rw [remaining, isExhausted_iff.1 h, Nat.sub_self]
  have hlimit : 0 < productLimit := by decide
  cases c with
  | ether amount =>
    refine remainingEther_eq_ok_iff.2 ⟨?_, ?_⟩
    · rw [hnone, Nat.zero_mul]
      exact hlimit
    · rw [hnone, Nat.zero_mul, Nat.zero_div]
  | shares amount =>
    refine remainingShares_eq_ok_iff.2 ⟨?_, ?_⟩
    · rw [hnone, Nat.mul_zero]
      exact hlimit
    · rw [hnone, Nat.mul_zero, Nat.zero_div]

theorem grant_of_exhausted (h : b.isExhausted = true) (c : RateChange) : b.grant c = .ok (0, b) := by
  cases c with
  | ether amount => exact if_pos h
  | shares amount => exact if_pos h

theorem grant_allows (h : b.grant c = .ok (allowed, b')) :
    b.Allows (b.room c) (c.charge b.poolBefore b.sharesBefore) c.amount allowed b' := by
  cases c with
  | ether amount => exact appendEther_allows h
  | shares amount => exact deductShares_allows h

theorem Sane.grants (hb : b.Sane) (h : b.grant c = .ok (allowed, b')) :
    b.Grants b' c allowed := by
  have hused := hb.used_le
  cases grant_allows h with
  | nothing hexhausted =>
    refine ⟨⟨0, room_of_exhausted hexhausted c, (Nat.min_zero _).symm, ?_⟩,
      ⟨Nat.le_refl _, hused⟩, rfl, rfl⟩
    exact iff_of_true hexhausted (Nat.zero_le _)
  | rest _ hroom hle =>
    refine ⟨⟨_, hroom, (Nat.min_eq_right hle).symm, ?_⟩, ⟨hused, Nat.le_refl _⟩, rfl, rfl⟩
    exact iff_of_true (isExhausted_iff.2 rfl) hle
  | all _ hroom hlt =>
    have hcharge := charge_lt_remaining hroom hlt
    have hremaining : b.remaining = b.limit.val - b.used.val := rfl
    have hleft : (b.consume (c.charge b.poolBefore b.sharesBefore)).used.val =
        b.used.val + c.charge b.poolBefore b.sharesBefore :=
      Nat.min_eq_left (by omega)
    refine ⟨⟨_, hroom, (Nat.min_eq_left (Nat.le_of_lt hlt)).symm, ?_⟩, ⟨?_, ?_⟩, rfl, rfl⟩
    · refine iff_of_false (fun h => ?_) (Nat.not_le.2 hlt)
      have hall : b.used.val + c.charge b.poolBefore b.sharesBefore = b.limit.val :=
        hleft.symm.trans (isExhausted_iff.1 h)
      omega
    · rw [hleft]
      exact Nat.le_add_right _ _
    · rw [hleft]
      show _ ≤ b.limit.val
      omega

/-! ### One call -/

/-- What taking a balance change into account does to a budget. -/
structure TakesDelta (b b' : RebaseBudget) (d : Delta) (allowed : Nat) : Prop where
  unused : b.used.val = 0
  first : b.deltaApplied = false
  taken : b'.deltaApplied = true
  used : b'.used.val ≤ b'.limit.val
  limit_mono : b.limit.val ≤ b'.limit.val
  limit_le : b.limit.val ≤ rebaseBase → b'.limit.val ≤ rebaseBase
  limit_of_loss : b'.limit ≠ b.limit → d.val < 0 ∧ allowed = 0
  gain : 0 ≤ d.val → b.AllowsRoom b' (.ether d.val.natAbs) allowed

theorem Sane.takesDelta (hb : b.Sane) {d : Delta} (h : b.applyDelta d = .ok (allowed, b')) :
    b.TakesDelta b' d allowed := by
  unfold applyDelta at h
  split at h
  · cases h
  · next hfirst =>
    obtain ⟨hunused, hdelta⟩ := not_or.1 hfirst
    have hunused := Decidable.not_not.1 hunused
    have hdelta := Bool.eq_false_iff.2 hdelta
    split at h
    · obtain ⟨⟨given, left⟩, happend, h⟩ := bind_eq_ok.1 h
      cases pure_eq_ok.1 h
      have hgrants := hb.grants (c := .ether d.val.natAbs) happend
      have hlimit : left.limit = b.limit := hgrants.limit
      exact ⟨hunused, hdelta, rfl, hgrants.used.2, Nat.le_of_eq (congrArg _ hlimit.symm),
        fun hle => hlimit ▸ hle, fun hne => absurd hlimit hne, fun _ => hgrants.room⟩
    · next hloss =>
      obtain ⟨fraction, -, h⟩ := bind_eq_ok.1 h
      cases pure_eq_ok.1 h
      have hlimit := hb.limit_le
      refine ⟨hunused, hdelta, rfl, ?_, ?_, fun _ => Nat.min_le_right _ _,
        fun _ => ⟨Int.not_le.1 hloss, rfl⟩, fun hgain => absurd hgain hloss⟩
      · show b.used.val ≤ _
        rw [hunused]
        exact Nat.zero_le _
      · show b.limit.val ≤ min (b.limit.val + fraction) rebaseBase
        omega

/-- What a call may answer, and what it may leave of a budget. -/
structure Lawful (b : RebaseBudget) (c : BudgetCall) (outcome : Except Fault Nat)
    (b' : RebaseBudget) : Prop where
  used_mono : b.used.val ≤ b'.used.val
  limit_mono : b.limit.val ≤ b'.limit.val
  /-- Only a loss that is taken into account moves the limit. -/
  limit_of_loss : b'.limit ≠ b.limit → ∃ d, c = .delta d ∧ d.val < 0 ∧ outcome = .ok 0
  delta_of_unused : ∀ d allowed, c = .delta d → outcome = .ok allowed → b.used.val = 0
  /-- A gain is ether that enters. -/
  gained : ∀ d allowed, c = .delta d → 0 ≤ d.val → outcome = .ok allowed →
    b.AllowsRoom b' (.ether d.val.natAbs) allowed
  granted : ∀ change allowed, c = .change change → outcome = .ok allowed →
    b.AllowsRoom b' change allowed
  exhausted : ∀ change, c = .change change → b.isExhausted = true → outcome = .ok 0 ∧ b' = b
  refused : ∀ cause, outcome = .error cause → b' = b

theorem lawful_of_refusal {call : BudgetCall} {cause : Fault}
    (h : b.answer call = .error cause) : b.Lawful call (.error cause) b where
  used_mono := Nat.le_refl _
  limit_mono := Nat.le_refl _
  limit_of_loss := fun hne => absurd rfl hne
  delta_of_unused := fun _ _ _ hok => nomatch hok
  gained := fun _ _ _ _ hok => nomatch hok
  granted := fun _ _ _ hok => nomatch hok
  exhausted := by
    intro change hchange hexhausted
    rw [hchange, answer, grant_of_exhausted hexhausted] at h
    cases h
  refused := fun _ _ => rfl

theorem TakesDelta.lawful {d : Delta} (h : b.TakesDelta b' d allowed) :
    b.Lawful (.delta d) (.ok allowed) b' where
  used_mono := by
    rw [h.unused]
    exact Nat.zero_le _
  limit_mono := h.limit_mono
  limit_of_loss := by
    intro hne
    obtain ⟨hloss, hnone⟩ := h.limit_of_loss hne
    exact ⟨d, rfl, hloss, congrArg _ hnone⟩
  delta_of_unused := fun _ _ _ _ => h.unused
  gained := by
    intro d' allowed' hd hgain hallowed
    cases hd
    cases hallowed
    exact h.gain hgain
  granted := fun _ _ hchange => nomatch hchange
  exhausted := fun _ hchange => nomatch hchange
  refused := fun _ herror => nomatch herror

theorem Sane.lawful_grant (hb : b.Sane) (h : b.grant c = .ok (allowed, b')) :
    b.Lawful (.change c) (.ok allowed) b' where
  used_mono := (hb.grants h).used.1
  limit_mono := Nat.le_of_eq (congrArg _ (hb.grants h).limit.symm)
  limit_of_loss := fun hne => absurd (hb.grants h).limit hne
  delta_of_unused := fun _ _ hd => nomatch hd
  gained := fun _ _ hd => nomatch hd
  granted := by
    intro change allowed' hchange hallowed
    cases hchange
    cases hallowed
    exact (hb.grants h).room
  exhausted := by
    intro change hchange hexhausted
    cases hchange
    rw [grant_of_exhausted hexhausted] at h
    cases h
    exact ⟨rfl, rfl⟩
  refused := fun _ herror => nomatch herror

theorem Sane.lawful (hb : b.Sane) (c : BudgetCall) : b.Lawful c (b.call c).1 (b.call c).2 := by
  rcases b.call_cases c with ⟨cause, hanswer, hcall⟩ | ⟨allowed, b', hanswer, hcall⟩
  · rw [hcall]
    exact lawful_of_refusal hanswer
  · rw [hcall]
    cases c with
    | delta d => exact (hb.takesDelta hanswer).lawful
    | change change => exact hb.lawful_grant hanswer

theorem Sane.call (hb : b.Sane) (c : BudgetCall) : (b.call c).2.Sane := by
  have hmono := (hb.lawful c).limit_mono
  have hpos := hb.limit_pos
  rcases b.call_cases c with ⟨cause, -, hcall⟩ | ⟨allowed, b', hanswer, hcall⟩
  · rw [hcall]
    exact hb
  · rw [hcall] at hmono ⊢
    cases c with
    | delta d =>
      have htakes := hb.takesDelta hanswer
      exact ⟨htakes.used, htakes.limit_le hb.limit_le, Nat.lt_of_lt_of_le hpos hmono⟩
    | change change =>
      have hgrants := hb.grants hanswer
      exact ⟨hgrants.used.2, hgrants.limit ▸ hb.limit_le, Nat.lt_of_lt_of_le hpos hmono⟩

theorem Sane.deltaApplied_call (hb : b.Sane) (c : BudgetCall) (h : b.deltaApplied = true) :
    (b.call c).2.deltaApplied = true := by
  rcases b.call_cases c with ⟨cause, -, hcall⟩ | ⟨allowed, b', hanswer, hcall⟩
  · rw [hcall]
    exact h
  · rw [hcall]
    cases c with
    | delta d => exact (hb.takesDelta hanswer).taken
    | change change => exact (hb.grants hanswer).deltaApplied.trans h

/-! ### Any number of calls -/

theorem Sane.after (hb : b.Sane) (calls : List BudgetCall) : (b.after calls).Sane := by
  induction calls generalizing b with
  | nil => exact hb
  | cons c rest ih => exact ih (hb.call c)

/-- Once a balance change has been taken into account, no other one is. -/
theorem Sane.deltasTaken_eq_zero (hb : b.Sane) (h : b.deltaApplied = true)
    (calls : List BudgetCall) : b.deltasTaken calls = 0 := by
  induction calls generalizing b with
  | nil => rfl
  | cons c rest ih =>
    have hrest := ih (hb.call c) (hb.deltaApplied_call c h)
    cases c with
    | delta d =>
      rcases b.call_cases (.delta d) with ⟨cause, -, hcall⟩ | ⟨allowed, b', hanswer, -⟩
      · rw [deltasTaken, hrest, hcall]
        rfl
      · have hfirst := (hb.takesDelta hanswer).first
        rw [h] at hfirst
        cases hfirst
    | change change => exact hrest

theorem Sane.deltasTaken_le_one (hb : b.Sane) (calls : List BudgetCall) :
    b.deltasTaken calls ≤ 1 := by
  induction calls generalizing b with
  | nil => exact Nat.zero_le _
  | cons c rest ih =>
    have hsane := hb.call c
    cases c with
    | delta d =>
      rcases b.call_cases (.delta d) with ⟨cause, -, hcall⟩ | ⟨allowed, b', hanswer, hcall⟩
      · have hrest := ih hb
        rw [deltasTaken, hcall]
        show 0 + b.deltasTaken rest ≤ 1
        omega
      · rw [hcall] at hsane
        have hnone : b'.deltasTaken rest = 0 :=
          hsane.deltasTaken_eq_zero (hb.takesDelta hanswer).taken rest
        rw [deltasTaken, hcall]
        show 1 + b'.deltasTaken rest ≤ 1
        omega
    | change change => exact ih hsane

/-- Whatever is asked of a new budget, and in whatever order: no more is used than the limit, which
stays a positive part of the whole; at most one balance change is taken into account; and every
further call is lawful. -/
theorem calls_lawful {fraction : Count} {pool supply : Nat}
    (hstart : start fraction pool supply = .ok b) (calls : List BudgetCall) :
    ((b.after calls).used.val ≤ (b.after calls).limit.val ∧
        (b.after calls).limit.val ≤ rebaseBase ∧ 1 ≤ (b.after calls).limit.val) ∧
      b.deltasTaken calls ≤ 1 ∧ ∀ c, (b.after calls).Lawful c ((b.after calls).call c).1
        ((b.after calls).call c).2 := by
  have hb := start_sane hstart
  have hafter := hb.after calls
  exact ⟨⟨hafter.used_le, hafter.limit_le, hafter.limit_pos⟩, hb.deltasTaken_le_one calls,
    fun c => hafter.lawful c⟩

/-- A loss that doubles a limit of a hundredth, ether for a quarter of that, and a second balance
change. -/
def lossThenEther : List BudgetCall :=
  [.delta (.ofInt (-100)), .change (.ether 50), .delta (.ofInt 5)]

theorem calls_lawful_loss :
    start 10000000 10000 10000 = .ok ⟨10000, 10000, 10000000, Bounded.zero, false⟩ ∧
      (⟨10000, 10000, 10000000, Bounded.zero, false⟩ : RebaseBudget).after lossThenEther =
        ⟨10000, 10000, 20000000, 5000000, true⟩ ∧
      (⟨10000, 10000, 10000000, Bounded.zero, false⟩ : RebaseBudget).deltasTaken
        lossThenEther ≤ 1 ∧
      (⟨10000, 10000, 20000000, 5000000, true⟩ : RebaseBudget).AllowsRoom
        ⟨10000, 10000, 20000000, 20000000, true⟩ (.shares 1000) 147 := by
  have hstart : start 10000000 10000 10000 =
      .ok ⟨10000, 10000, 10000000, Bounded.zero, false⟩ := by decide +kernel
  have hafter : (⟨10000, 10000, 10000000, Bounded.zero, false⟩ : RebaseBudget).after
      lossThenEther = ⟨10000, 10000, 20000000, 5000000, true⟩ := by decide +kernel
  have hcall : (⟨10000, 10000, 20000000, 5000000, true⟩ : RebaseBudget).call
      (.change (.shares 1000)) = (.ok 147, ⟨10000, 10000, 20000000, 20000000, true⟩) := by
    decide +kernel
  obtain ⟨-, hdeltas, hlawful⟩ := calls_lawful hstart lossThenEther
  have hshares := hlawful (.change (.shares 1000))
  rw [hafter, hcall] at hshares
  exact ⟨hstart, hafter, hdeltas, hshares.granted _ _ rfl rfl⟩

end RebaseBudget
end LiquidStaking

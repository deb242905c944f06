/-
What a rebase budget allows in a whole cycle.

Ether that enters and shares that leave are charged one by one, each for what it alone would raise
the rate before the report by.  The charges together never exceed the limit.  The rate itself may:
a charge is rounded down, and the effects of changes multiply while their charges add up.
-/
import LiquidStaking.Proofs.Rebase.Budget
import Mathlib.Tactic.Linarith
import Mathlib.Tactic.Ring

namespace LiquidStaking

/-- What a budget is asked for: ether to let in, or shares to let go. -/
inductive RateChange
  | ether (amount : Nat)
  | shares (amount : Nat)
deriving DecidableEq

namespace RateChange

def etherIn : RateChange → Nat
  | ether amount => amount
  | shares _ => 0

def sharesOut : RateChange → Nat
  | ether _ => 0
  | shares amount => amount

/-- What a change alone raises the rate of a pool by, in whole billionths. -/
def charge (pool supply : Nat) : RateChange → Nat
  | ether amount => amount * rebaseBase / pool
  | shares amount => amount * rebaseBase / (supply - amount)

/-- What a change raises the rate by beyond its charge.  Like `compounded`, it is measured in units
of which a billionth of the rate has `pool * supply`. -/
def rounded (pool supply : Nat) : RateChange → Nat
  | ether amount => supply * (amount * rebaseBase % pool)
  | shares amount => pool * (amount * rebaseBase % (supply - amount))

/-- What shares that left add to a rise by the rest of the limit, which is spread over fewer. -/
def compounded (pool supply limit : Nat) : RateChange → Nat
  | ether _ => 0
  | shares amount => pool * (amount * (limit - amount * rebaseBase / (supply - amount)))

def tally (f : RateChange → Nat) : List RateChange → Nat
  | [] => 0
  | c :: cs => f c + tally f cs

variable {pool supply limit : Nat}

/-- What a change does to the rate is its charge, what was rounded off, and what it multiplies. -/
theorem effect_eq {c : RateChange} (hsupply : c.sharesOut < supply)
    (hcharge : c.charge pool supply ≤ limit) :
    supply * (c.etherIn * rebaseBase) + pool * (c.sharesOut * (rebaseBase + limit)) =
      pool * supply * c.charge pool supply + c.rounded pool supply +
        c.compounded pool supply limit := by
  cases c with
  | ether amount =>
    have hdiv := Nat.div_add_mod (amount * rebaseBase) pool
    simp only [etherIn, sharesOut, charge, rounded, compounded]
    calc supply * (amount * rebaseBase) + pool * (0 * (rebaseBase + limit))
      _ = supply * (pool * (amount * rebaseBase / pool) + amount * rebaseBase % pool) := by
        rw [hdiv, Nat.zero_mul, Nat.mul_zero, Nat.add_zero]
      _ = _ := by ring
  | shares amount =>
    simp only [sharesOut, charge] at hsupply hcharge
    simp only [etherIn, sharesOut, charge, rounded, compounded]
    obtain ⟨others, rfl⟩ := Nat.exists_eq_add_of_lt hsupply
    have hothers : amount + others + 1 - amount = others + 1 := by omega
    rw [hothers] at hcharge ⊢
    have hdiv := Nat.div_add_mod (amount * rebaseBase) (others + 1)
    obtain ⟨rest, rfl⟩ := Nat.exists_eq_add_of_le hcharge
    generalize amount * rebaseBase / (others + 1) = own at hdiv ⊢
    have hrest : own + rest - own = rest := by omega
    rw [hrest]
    calc (amount + others + 1) * (0 * rebaseBase) +
          pool * (amount * (rebaseBase + (own + rest)))
      _ = pool * (amount * rebaseBase + amount * (own + rest)) := by ring
      _ = pool * ((others + 1) * own + amount * rebaseBase % (others + 1) +
            amount * (own + rest)) := by rw [hdiv]
      _ = _ := by ring

theorem effect_le {c : RateChange} (hpool : 0 < pool) (hsupply : c.sharesOut < supply) :
    supply * (c.etherIn * rebaseBase) + pool * (c.sharesOut * rebaseBase) ≤
      pool * supply * (c.charge pool supply + 1) := by
  cases c with
  | ether amount =>
    simp only [etherIn, sharesOut, charge]
    calc supply * (amount * rebaseBase) + pool * (0 * rebaseBase)
      _ = supply * (amount * rebaseBase) := by ring
      _ ≤ supply * (pool * (amount * rebaseBase / pool + 1)) :=
        Nat.mul_le_mul_left _ (Nat.le_of_lt (Nat.lt_mul_div_succ _ hpool))
      _ = pool * supply * (amount * rebaseBase / pool + 1) := by ring
  | shares amount =>
    simp only [sharesOut] at hsupply
    simp only [etherIn, sharesOut, charge]
    have hothers : 0 < supply - amount := Nat.sub_pos_of_lt hsupply
    calc supply * (0 * rebaseBase) + pool * (amount * rebaseBase)
      _ = pool * (amount * rebaseBase) := by ring
      _ ≤ pool * ((supply - amount) * (amount * rebaseBase / (supply - amount) + 1)) :=
        Nat.mul_le_mul_left _ (Nat.le_of_lt (Nat.lt_mul_div_succ _ hothers))
      _ ≤ pool * (supply * (amount * rebaseBase / (supply - amount) + 1)) :=
        Nat.mul_le_mul_left _ (Nat.mul_le_mul_right _ (Nat.sub_le _ _))
      _ = pool * supply * (amount * rebaseBase / (supply - amount) + 1) := by ring

theorem le_tally (f : RateChange → Nat) : ∀ {cs : List RateChange} {c : RateChange}, c ∈ cs →
    f c ≤ tally f cs
  | x :: cs, c, hc => by
    rcases List.mem_cons.1 hc with rfl | hc
    · exact Nat.le_add_right _ _
    · exact Nat.le_trans (le_tally f hc) (Nat.le_add_left _ _)

theorem tally_effect_eq {cs : List RateChange} (hsupply : ∀ c ∈ cs, c.sharesOut < supply)
    (hcharge : tally (charge pool supply) cs ≤ limit) :
    supply * (tally etherIn cs * rebaseBase) +
        pool * (tally sharesOut cs * (rebaseBase + limit)) =
      pool * supply * tally (charge pool supply) cs + tally (rounded pool supply) cs +
        tally (compounded pool supply limit) cs := by
  induction cs with
  | nil => simp only [tally, Nat.zero_mul, Nat.mul_zero]
  | cons c cs ih =>
    have hone := effect_eq (hsupply c List.mem_cons_self)
      (Nat.le_trans (le_tally _ List.mem_cons_self) hcharge)
    have hrest := ih (fun x hx => hsupply x (List.mem_cons_of_mem _ hx))
      (Nat.le_trans (Nat.le_add_left _ _) hcharge)
    simp only [tally]
    linarith

theorem tally_effect_le (hpool : 0 < pool) {cs : List RateChange}
    (hsupply : ∀ c ∈ cs, c.sharesOut < supply) :
    supply * (tally etherIn cs * rebaseBase) + pool * (tally sharesOut cs * rebaseBase) ≤
      pool * supply * (tally (charge pool supply) cs + cs.length) := by
  induction cs with
  | nil => simp only [tally, Nat.zero_mul, Nat.mul_zero, Nat.zero_add, Nat.zero_le]
  | cons c cs ih =>
    have hone := effect_le hpool (hsupply c List.mem_cons_self)
    have hrest := ih (fun x hx => hsupply x (List.mem_cons_of_mem _ hx))
    simp only [tally, List.length_cons]
    linarith

end RateChange

/-- Whether each share of a pool is worth at most `limit` billionths more after ether has entered
and shares have left. -/
def RisesWithin (limit pool supply entered left : Nat) : Prop :=
  ((pool : Int) + entered) * supply * rebaseBase ≤
    (pool : Int) * ((supply : Int) - left) * ((rebaseBase : Int) + limit)

instance (limit pool supply entered left : Nat) :
    Decidable (RisesWithin limit pool supply entered left) :=
  inferInstanceAs (Decidable (_ ≤ _))

theorem risesWithin_iff {limit pool supply entered left : Nat} :
    RisesWithin limit pool supply entered left ↔
      supply * (entered * rebaseBase) + pool * (left * (rebaseBase + limit)) ≤
        pool * supply * limit := by
  unfold RisesWithin
  constructor
  · intro h
    zify
    linarith
  · intro h
    zify at h
    linarith

namespace RebaseBudget

open RateChange (tally)

variable {b b' : RebaseBudget}

/-- Ask for a change.  The answer is what of it is allowed, and the budget that is left. -/
def allow (b : RebaseBudget) : RateChange → Except Fault (RateChange × RebaseBudget)
  | .ether amount => do
    let (allowed, b) ← b.appendEther amount
    return (.ether allowed, b)
  | .shares amount => do
    let (allowed, b) ← b.deductShares amount
    return (.shares allowed, b)

/-- Ask for changes one after the other, as long as none of them fails. -/
def allowAll : RebaseBudget → List RateChange → Except Fault (List RateChange × RebaseBudget)
  | b, [] => .ok ([], b)
  | b, c :: cs => do
    let (first, b) ← b.allow c
    let (rest, b) ← b.allowAll cs
    return (first :: rest, b)

/-- What a new budget allows of the changes that are asked for in a cycle. -/
def cycle (fraction : Count) (pool supply : Nat) (asked : List RateChange) :
    Except Fault (List RateChange) := do
  let b ← start fraction pool supply
  let (allowed, _) ← b.allowAll asked
  return allowed

/-- However much of an amount is allowed, the budget is used up by no less than its charge. -/
theorem Allows.used {room : Except Fault Nat} {f : Nat → Nat} {amount allowed : Nat}
    (h : b.Allows room (f amount) amount allowed b') (hused : b.used.val ≤ b.limit.val)
    (hzero : f 0 = 0) (hcharge : f allowed ≤ b.remaining) :
    b.used.val + f allowed ≤ b'.used.val := by
  have hremaining : b.remaining = b.limit.val - b.used.val := rfl
  cases h with
  | nothing _ =>
    rw [hzero]
    exact Nat.le_refl _
  | rest _ _ _ =>
    show b.used.val + f allowed ≤ b.limit.val
    omega
  | all _ _ _ =>
    show b.used.val + f amount ≤ min (b.used.val + f amount) b.limit.val
    omega

theorem appendEther_used {amount allowed : Nat} (h : b.appendEther amount = .ok (allowed, b'))
    (hused : b.used.val ≤ b.limit.val) :
    b.used.val + allowed * rebaseBase / b.poolBefore ≤ b'.used.val := by
  obtain ⟨hbound, -, -⟩ := appendEther_eq_ok h
  have hcharge : allowed * rebaseBase / b.poolBefore ≤ b.remaining :=
    Nat.div_le_of_le_mul (Nat.mul_comm b.poolBefore _ ▸ hbound)
  have hzero : 0 * rebaseBase / b.poolBefore = 0 := by rw [Nat.zero_mul, Nat.zero_div]
  exact (appendEther_allows h).used (f := fun n => n * rebaseBase / b.poolBefore) hused hzero
    hcharge

theorem deductShares_lt {amount allowed : Nat} (h : b.deductShares amount = .ok (allowed, b'))
    (hsupply : 0 < b.sharesBefore) : allowed < b.sharesBefore := by
  obtain ⟨hbound, -, -⟩ := deductShares_eq_ok h
  by_contra hge
  have hle : b.sharesBefore * (rebaseBase + b.remaining) ≤ b.sharesBefore * b.remaining :=
    Nat.le_trans (Nat.mul_le_mul_right _ (Nat.not_lt.1 hge)) hbound
  have hfew : rebaseBase + b.remaining ≤ b.remaining := Nat.le_of_mul_le_mul_left hle hsupply
  have hbase : 0 < rebaseBase := by decide
  omega

theorem deductShares_used {amount allowed : Nat} (h : b.deductShares amount = .ok (allowed, b'))
    (hsupply : 0 < b.sharesBefore) (hused : b.used.val ≤ b.limit.val) :
    b.used.val + allowed * rebaseBase / (b.sharesBefore - allowed) ≤ b'.used.val := by
  obtain ⟨hbound, -, -⟩ := deductShares_eq_ok h
  have hlt := deductShares_lt h hsupply
  have hcharge : allowed * rebaseBase / (b.sharesBefore - allowed) ≤ b.remaining := by
    refine Nat.div_le_of_le_mul ?_
    rw [Nat.mul_add] at hbound
    rw [Nat.sub_mul]
    omega
  have hzero : 0 * rebaseBase / (b.sharesBefore - 0) = 0 := by rw [Nat.zero_mul, Nat.zero_div]
  exact (deductShares_allows h).used (f := fun n => n * rebaseBase / (b.sharesBefore - n)) hused
    hzero hcharge

/-- A change that a budget may allow on a pool: it alone is within the limit, and shares are left. -/
structure Admissible (b : RebaseBudget) (c : RateChange) : Prop where
  left : c.sharesOut < b.sharesBefore
  within : RisesWithin b.limit.val b.poolBefore b.sharesBefore c.etherIn c.sharesOut

/-- One change: it is admissible, and the budget is used up by no less than its charge. -/
theorem charged_of_allow {c allowed : RateChange} (h : b.allow c = .ok (allowed, b'))
    (hsupply : 0 < b.sharesBefore) (hused : b.used.val ≤ b.limit.val) :
    b.SameScale b' ∧ b.Admissible allowed ∧
      b.used.val + allowed.charge b.poolBefore b.sharesBefore ≤ b'.used.val := by
  have hremaining : b.remaining ≤ b.limit.val := Nat.sub_le _ _
  cases c with
  | ether amount =>
    obtain ⟨⟨given, left⟩, happend, h⟩ := bind_eq_ok.1 h
    cases pure_eq_ok.1 h
    obtain ⟨hbound, -, hscale⟩ := appendEther_eq_ok happend
    refine ⟨hscale, ⟨hsupply, risesWithin_iff.2 ?_⟩, appendEther_used happend hused⟩
    calc b.sharesBefore * (given * rebaseBase) +
          b.poolBefore * (0 * (rebaseBase + b.limit.val))
      _ = b.sharesBefore * (given * rebaseBase) := by ring
      _ ≤ b.sharesBefore * (b.remaining * b.poolBefore) := Nat.mul_le_mul_left _ hbound
      _ ≤ b.sharesBefore * (b.limit.val * b.poolBefore) :=
        Nat.mul_le_mul_left _ (Nat.mul_le_mul_right _ hremaining)
      _ = b.poolBefore * b.sharesBefore * b.limit.val := by ring
  | shares amount =>
    obtain ⟨⟨given, left⟩, hdeduct, h⟩ := bind_eq_ok.1 h
    cases pure_eq_ok.1 h
    obtain ⟨hbound, -, hscale⟩ := deductShares_eq_ok hdeduct
    have hlt := deductShares_lt hdeduct hsupply
    refine ⟨hscale, ⟨hlt, risesWithin_iff.2 ?_⟩, deductShares_used hdeduct hsupply hused⟩
    obtain ⟨more, hmore⟩ := Nat.exists_eq_add_of_le hremaining
    rw [hmore]
    -- Whatever the limit leaves beyond the remaining fraction counts for the shares that stay too.
    calc b.sharesBefore * (0 * rebaseBase) +
          b.poolBefore * (given * (rebaseBase + (b.remaining + more)))
      _ = b.poolBefore * (given * (rebaseBase + b.remaining) + given * more) := by ring
      _ ≤ b.poolBefore * (b.sharesBefore * b.remaining + b.sharesBefore * more) :=
        Nat.mul_le_mul_left _
          (Nat.add_le_add hbound (Nat.mul_le_mul_right _ (Nat.le_of_lt hlt)))
      _ = b.poolBefore * b.sharesBefore * (b.remaining + more) := by ring

/-- A whole cycle: every change is admissible, and the charges together are at most what the cycle
has used. -/
theorem charged_of_allowAll : ∀ {asked : List RateChange} {b : RebaseBudget}
    {allowed : List RateChange}, b.allowAll asked = .ok (allowed, b') → 0 < b.sharesBefore →
      b.used.val ≤ b.limit.val → (∀ c ∈ allowed, b.Admissible c) ∧
        b.used.val + tally (RateChange.charge b.poolBefore b.sharesBefore) allowed ≤ b.limit.val
  | [], b, allowed, h, _, hused => by
    cases h
    exact ⟨fun _ hc => absurd hc List.not_mem_nil, hused⟩
  | c :: cs, b, allowed, h, hsupply, hused => by
    obtain ⟨⟨first, mid⟩, hfirst, h⟩ := bind_eq_ok.1 h
    obtain ⟨⟨rest, last⟩, hrest, h⟩ := bind_eq_ok.1 h
    cases pure_eq_ok.1 h
    obtain ⟨hscale, hadmissible, hcharged⟩ := charged_of_allow hfirst hsupply hused
    obtain ⟨hall, htotal⟩ := charged_of_allowAll hrest (hscale.sharesBefore ▸ hsupply)
      (hscale.within hused)
    rw [hscale.poolBefore, hscale.sharesBefore, hscale.limit] at htotal
    refine ⟨fun x hx => ?_, ?_⟩
    · rcases List.mem_cons.1 hx with rfl | hx
      · exact hadmissible
      · obtain ⟨hleft, hwithin⟩ := hall x hx
        rw [hscale.sharesBefore] at hleft
        rw [hscale.limit, hscale.poolBefore, hscale.sharesBefore] at hwithin
        exact ⟨hleft, hwithin⟩
    · simp only [tally]
      omega

/-- From any start, whatever is asked for in whatever order, the changes a cycle allows are charged
no more than its limit, and what each of them does to the rate before the report adds up to at most
the limit and a billionth for each.  The rate itself stays within the limit if and only if what the
charges leave of it pays for what was rounded off them and for what the changes multiply by.  It
does when one change is all that the cycle allowed. -/
theorem cycle_within_iff {fraction : Count} {pool supply : Nat} (hpool : 0 < pool)
    (hsupply : 0 < supply) {asked allowed : List RateChange}
    (hcycle : cycle fraction pool supply asked = .ok allowed) :
    tally (RateChange.charge pool supply) allowed ≤ fraction.val ∧
      supply * (tally RateChange.etherIn allowed * rebaseBase) +
          pool * (tally RateChange.sharesOut allowed * rebaseBase) ≤
        pool * supply * (fraction.val + allowed.length) ∧
      (RisesWithin fraction.val pool supply (tally RateChange.etherIn allowed)
          (tally RateChange.sharesOut allowed) ↔
        tally (RateChange.rounded pool supply) allowed +
            tally (RateChange.compounded pool supply fraction.val) allowed ≤
          pool * supply * (fraction.val - tally (RateChange.charge pool supply) allowed)) ∧
      ∀ c ∈ allowed, c.etherIn = tally RateChange.etherIn allowed →
        c.sharesOut = tally RateChange.sharesOut allowed →
          RisesWithin fraction.val pool supply (tally RateChange.etherIn allowed)
            (tally RateChange.sharesOut allowed) := by
  obtain ⟨b, hstart, hcycle⟩ := bind_eq_ok.1 hcycle
  obtain ⟨⟨given, b'⟩, hall, hcycle⟩ := bind_eq_ok.1 hcycle
  cases pure_eq_ok.1 hcycle
  obtain rfl := start_eq_ok hstart
  obtain ⟨hall, hcharged⟩ := charged_of_allowAll hall hsupply (Nat.zero_le _)
  simp only [Bounded.val_zero, Nat.zero_add] at hcharged
  have hleft : ∀ c ∈ allowed, c.sharesOut < supply := fun c hc => (hall c hc).left
  have hrise := RateChange.tally_effect_le hpool hleft
  have hexact := RateChange.tally_effect_eq hleft hcharged
  refine ⟨hcharged, ?_, ?_, ?_⟩
  · exact Nat.le_trans hrise (Nat.mul_le_mul_left _ (Nat.add_le_add_right hcharged _))
  · rw [risesWithin_iff, hexact]
    obtain ⟨rest, hrest⟩ := Nat.exists_eq_add_of_le hcharged
    have hgap : fraction.val - tally (RateChange.charge pool supply) allowed = rest := by omega
    rw [hgap]
    have hsplit : pool * supply * fraction.val =
        pool * supply * tally (RateChange.charge pool supply) allowed + pool * supply * rest := by
      rw [hrest, Nat.mul_add]
    omega
  · intro c hc hether hshares
    have hwithin := (hall c hc).within
    rw [hether, hshares] at hwithin
    exact hwithin

/-- Two changes that leave enough of a limit of a tenth for what they multiply by, and one change
that is cut off at the limit. -/
theorem cycle_within_iff_spare :
    (cycle 100000000 10000 10000 [.ether 300, .shares 300] = .ok [.ether 300, .shares 300] ∧
      RisesWithin 100000000 10000 10000 300 300) ∧
    cycle 100000000 10000 10000 [.shares 1000] = .ok [.shares 909] ∧
      RisesWithin 100000000 10000 10000 0 909 := by
  have htwo : cycle 100000000 10000 10000 [.ether 300, .shares 300] =
      .ok [.ether 300, .shares 300] := by decide +kernel
  have hone : cycle 100000000 10000 10000 [.shares 1000] = .ok [.shares 909] := by decide +kernel
  obtain ⟨-, -, hiff, -⟩ := cycle_within_iff (by decide) (by decide) htwo
  obtain ⟨-, -, -, hsingle⟩ := cycle_within_iff (by decide) (by decide) hone
  exact ⟨⟨htwo, hiff.2 (by decide +kernel)⟩, hone,
    hsingle (.shares 909) List.mem_cons_self rfl rfl⟩

/-- With a limit of a tenth, ether for half of it and shares for the other half raise the rate by
more: of the shares only 454 might leave.  Two removals of shares alone triple a rate that may
double, and what is rounded off adds up to more than a limit of a billionth. -/
theorem rise_above_limit :
    (cycle 100000000 10000 10000 [.ether 500, .shares 1000] = .ok [.ether 500, .shares 476] ∧
      ¬ RisesWithin 100000000 10000 10000 500 476 ∧
      RisesWithin 100000000 10000 10000 500 454 ∧
      ¬ RisesWithin 100000000 10000 10000 500 455) ∧
    (cycle 1000000000 6 6 [.shares 2, .shares 2] = .ok [.shares 2, .shares 2] ∧
      ¬ RisesWithin 1000000000 6 6 0 4) ∧
    cycle 1 2000000000 1 [.ether 1, .ether 1, .ether 1] = .ok [.ether 1, .ether 1, .ether 1] ∧
      ¬ RisesWithin 1 2000000000 1 3 0 := by
  decide +kernel

end RebaseBudget
end LiquidStaking

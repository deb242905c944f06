/-
Who gets the grants and the books changed.

A permit is only a statement about the past, and whoever holds one may keep it.  What it is worth
is decided when it is shown, and the grants of that moment are what the changes made of them so far
left.  So a group without an administrator gets none of the grants changed, whatever permits its
members hold.
-/
import LiquidStaking.Proofs.Access
import LiquidStaking.Proofs.Pool.SharedRuns

namespace LiquidStaking
namespace SharedPool

namespace Call

/-- What a privileged call answers when it is refused. -/
def refusal (c : Call) (cause : Fault) : Answer :=
  match c with
  | .perform .. => .reply (.error (.refused cause))
  | _ => .regranted (.error cause)

/-- The change of the grants that an answer says was made. -/
def regrant? : Call → Answer → Option Regrant
  | .grant _ account role, .regranted (.ok ()) => some ⟨account, role, true⟩
  | .revoke _ account role, .regranted (.ok ()) => some ⟨account, role, false⟩
  | _, _ => none

/-- Whether a call asks for a change of the grants by the permit of a member of a group. -/
def regrantBy (group : Address → Bool) : Call → Bool
  | .grant admin _ _ | .revoke admin _ _ => group admin.holder
  | _ => false

/-- Whether a call asks for a member of a group to become an administrator, by the permit of
somebody else. -/
def promotes (group : Address → Bool) : Call → Bool
  | .grant admin account .admin => !group admin.holder && group account
  | _ => false

end Call

/-- Calls and their answers. -/
def transcript (s : SharedPool) (cs : List Call) : List (Call × Answer) := cs.zip (s.calls cs).1

/-- The changes of the grants that were made. -/
def regrants (exchanges : List (Call × Answer)) : List Regrant :=
  exchanges.filterMap (fun e => e.1.regrant? e.2)

/-- What a call does once its permit is good. -/
def carryOut (s : SharedPool) : Call → Answer × SharedPool
  | .perform _ op => (.reply (s.write op).1, (s.write op).2)
  | .grant _ account role =>
    (.regranted (.ok ()), { s with access := s.access.regrant ⟨account, role, true⟩ })
  | .revoke _ account role =>
    (.regranted (.ok ()), { s with access := s.access.regrant ⟨account, role, false⟩ })
  | c => s.call c

variable {s : SharedPool}

theorem write_access (s : SharedPool) (op : Operation) : (s.write op).2.access = s.access := by
  unfold write
  split
  · rfl
  · split <;> rfl

/-- A privileged call is carried out or refused as its permit is good or not. -/
theorem call_of_verify {c : Call} {permit : Permit} {role : Role}
    (hc : c.demand? = some (permit, role)) :
    (s.access.verify permit role = .ok () → s.call c = s.carryOut c) ∧
      ∀ cause, s.access.verify permit role = .error cause → s.call c = (c.refusal cause, s) := by
  cases c with
  | perform shown op =>
    have hcheck : s.authorize shown op = s.access.verify permit role :=
      (s.authorize_eq shown op).trans (Access.admits_of_demand hc)
    refine ⟨fun h => ?_, fun cause h => ?_⟩
    · simp only [call, carryOut, perform, hcheck, h]
    · simp only [call, Call.refusal, perform, hcheck, h]
  | grant admin account role' =>
    obtain ⟨rfl, rfl⟩ := Prod.mk.inj (Option.some.inj hc)
    refine ⟨fun h => ?_, fun cause h => ?_⟩
    · simp only [call, SharedPool.grant, Access.grant, h]
      rfl
    · simp only [call, SharedPool.grant, Access.grant, h]
      rfl
  | revoke admin account role' =>
    obtain ⟨rfl, rfl⟩ := Prod.mk.inj (Option.some.inj hc)
    refine ⟨fun h => ?_, fun cause h => ?_⟩
    · simp only [call, SharedPool.revoke, Access.revoke, h]
      rfl
    · simp only [call, SharedPool.revoke, Access.revoke, h]
      rfl
  | permit | snapshot | escrow | view => cases hc

theorem call_of_honours {c : Call} {permit : Permit} {role : Role}
    (hc : c.demand? = some (permit, role)) (h : s.access.Honours permit role) :
    s.call c = s.carryOut c :=
  (call_of_verify hc).1 (Access.verify_of_honours h)

theorem call_of_not_honours {c : Call} {permit : Permit} {role : Role}
    (hc : c.demand? = some (permit, role)) (h : ¬ s.access.Honours permit role) :
    s.call c = (c.refusal (Access.lacks permit.holder role), s) :=
  (call_of_verify hc).2 _ (Access.verify_of_not_honours h)

/-- A call leaves the grants with the change that its answer tells of. -/
theorem access_call (s : SharedPool) (c : Call) :
    (s.call c).2.access = (c.regrant? (s.call c).1).toList.foldl Access.regrant s.access := by
  cases hc : c.demand? with
  | none =>
    cases c with
    | perform permit op =>
      show (s.perform permit op).2.access = s.access
      simp only [perform, authorize_eq, Access.admits, hc, write_access]
    | grant | revoke => cases hc
    | permit | snapshot | escrow | view => rfl
  | some shown =>
    obtain ⟨permit, role⟩ := shown
    by_cases h : s.access.Honours permit role
    · rw [call_of_honours hc h]
      cases c with
      | perform permit op => exact write_access s op
      | grant | revoke => rfl
      | permit | snapshot | escrow | view => cases hc
    · rw [call_of_not_honours hc h]
      cases c <;> rfl

theorem transcript_cons (s : SharedPool) (c : Call) (cs : List Call) :
    s.transcript (c :: cs) = (c, (s.call c).1) :: (s.call c).2.transcript cs := rfl

/-- The grants are those before the calls with the changes that the answers tell of. -/
theorem access_calls (cs : List Call) (s : SharedPool) :
    (s.calls cs).2.access = (regrants (s.transcript cs)).foldl Access.regrant s.access := by
  induction cs generalizing s with
  | nil => rfl
  | cons c cs ih =>
    show ((s.call c).2.calls cs).2.access = _
    rw [ih, access_call, transcript_cons]
    unfold regrants
    rw [List.filterMap_cons]
    cases c.regrant? (s.call c).1 <;> rfl

/-! ### Groups without an administrator -/

/-- Whether no member of a group is an administrator. -/
def Unadministered (s : SharedPool) (group : Address → Bool) : Prop :=
  ∀ account, group account = true → s.access.hasRole account .admin = false

variable {group : Address → Bool}

theorem Unadministered.refused (hs : s.Unadministered group) {c : Call}
    (hc : c.regrantBy group = true) :
    ∃ permit : Permit, c.demand? = some (permit, .admin) ∧
      s.call c = (.regranted (.error (Access.lacks permit.holder .admin)), s) := by
  have hrefused : ∀ admin : Permit, group admin.holder = true → ¬ s.access.Honours admin .admin := by
    intro admin hmember h
    rw [Access.Honours, hs admin.holder hmember] at h
    cases h.2
  cases c with
  | grant admin account role => exact ⟨admin, rfl, call_of_not_honours rfl (hrefused admin hc)⟩
  | revoke admin account role => exact ⟨admin, rfl, call_of_not_honours rfl (hrefused admin hc)⟩
  | perform | permit | snapshot | escrow | view => cases hc

/-- What an outsider gets changed about the administrators of a group is no promotion. -/
theorem granted_of_not_promotes {c : Call} (hc : c.promotes group = false)
    (hby : ¬ c.regrantBy group = true) {answer : Answer} {g : Regrant}
    (hchange : c.regrant? answer = some g) (hrole : g.role = .admin)
    (hmember : group g.account = true) : g.granted = false := by
  unfold Call.regrant? at hchange
  split at hchange
  · next admin account role =>
    cases hchange
    obtain rfl : role = .admin := hrole
    have hmember : group account = true := hmember
    have hby : group admin.holder = false := Bool.eq_false_iff.2 hby
    have hpromotes : (!group admin.holder && group account) = false := hc
    rw [hby, hmember] at hpromotes
    cases hpromotes
  · cases hchange
    rfl
  · cases hchange

/-- A group without an administrator gets one only from outside. -/
theorem Unadministered.call (hs : s.Unadministered group) {c : Call}
    (hc : c.promotes group = false) : (s.call c).2.Unadministered group := by
  by_cases hby : c.regrantBy group = true
  · obtain ⟨permit, -, hcall⟩ := hs.refused hby
    rw [hcall]
    exact hs
  · intro account hmember
    rw [access_call]
    cases hchange : c.regrant? (s.call c).1 with
    | none => exact hs account hmember
    | some g =>
      show (s.access.regrant g).hasRole account .admin = false
      rw [Access.hasRole_regrant]
      split
      · next h =>
        obtain ⟨rfl, hrole⟩ := Regrant.concerns_iff.1 h
        exact granted_of_not_promotes hc hby hchange hrole hmember
      · exact hs account hmember

/-- What is left of some calls when a group asks for no change of the grants. -/
def without (group : Address → Bool) (cs : List Call) : List Call :=
  cs.filter (fun c => !c.regrantBy group)

/-- Whether everything that a group asks of the grants is refused, and makes no difference to what
the other calls answer and leave. -/
structure Ignores (s : SharedPool) (group : Address → Bool) (cs : List Call) : Prop where
  refused : ∀ e ∈ s.transcript cs, e.1.regrantBy group = true →
    ∃ permit : Permit, e.1.demand? = some (permit, .admin) ∧
      e.2 = .regranted (.error (Access.lacks permit.holder .admin))
  others : (s.transcript cs).filter (fun e => !e.1.regrantBy group) =
    s.transcript (without group cs)
  left : (s.calls cs).2 = (s.calls (without group cs)).2

theorem Unadministered.ignores (hs : s.Unadministered group) {cs : List Call}
    (hcs : ∀ c ∈ cs, c.promotes group = false) : s.Ignores group cs := by
  induction cs generalizing s with
  | nil => exact ⟨fun _ he => absurd he List.not_mem_nil, rfl, rfl⟩
  | cons c cs ih =>
    have hrest := ih (hs.call (hcs c List.mem_cons_self))
      (fun x hx => hcs x (List.mem_cons_of_mem _ hx))
    by_cases hby : c.regrantBy group = true
    · obtain ⟨permit, hdemand, hcall⟩ := hs.refused hby
      have hleave : without group (c :: cs) = without group cs :=
        List.filter_cons_of_neg (by rw [hby]; decide)
      rw [hcall] at hrest
      refine ⟨fun e he => ?_, ?_, ?_⟩
      · rw [transcript_cons, hcall] at he
        rcases List.mem_cons.1 he with rfl | he
        · exact fun _ => ⟨permit, hdemand, rfl⟩
        · exact hrest.refused e he
      · rw [transcript_cons, hcall, hleave, List.filter_cons_of_neg (by rw [hby]; decide)]
        exact hrest.others
      · show ((s.call c).2.calls cs).2 = _
        rw [hcall, hleave]
        exact hrest.left
    · have hkeep : without group (c :: cs) = c :: without group cs :=
        List.filter_cons_of_pos (by rw [Bool.eq_false_iff.2 hby]; rfl)
      refine ⟨fun e he => ?_, ?_, ?_⟩
      · rw [transcript_cons] at he
        rcases List.mem_cons.1 he with rfl | he
        · exact fun h => absurd h hby
        · exact hrest.refused e he
      · rw [hkeep, transcript_cons, transcript_cons, ← hrest.others]
        exact List.filter_cons_of_pos (by rw [Bool.eq_false_iff.2 hby]; rfl)
      · rw [hkeep]
        exact hrest.left

theorem regrant?_refused (c : Call) (cause : Fault) :
    c.regrant? (.regranted (.error cause)) = none := by
  cases c <;> rfl

theorem regrantBy_of_regrant? {c : Call} {answer : Answer} {g : Regrant}
    (h : c.regrant? answer = some g) : c.regrantBy (fun _ => true) = true := by
  cases c with
  | grant | revoke => rfl
  | perform | permit | snapshot | escrow | view => cases h

/-- The grants stay as they are while only a group without an administrator asks for changes. -/
theorem Unadministered.access_calls (hs : s.Unadministered group) {cs : List Call}
    (hcs : ∀ c ∈ cs, c.regrantBy (fun _ => true) = true → c.regrantBy group = true) :
    (s.calls cs).2.access = s.access := by
  have hignores : s.Ignores group cs := by
    refine hs.ignores (fun c hc => Bool.eq_false_iff.2 (fun hpromotes => ?_))
    unfold Call.promotes at hpromotes
    split at hpromotes
    · next admin account =>
      have hby : group admin.holder = true := hcs _ hc rfl
      rw [hby] at hpromotes
      cases hpromotes
    · cases hpromotes
  have hnone : regrants (s.transcript cs) = [] := by
    refine List.filterMap_eq_nil_iff.2 (fun e he => Option.eq_none_iff_forall_ne_some.2 ?_)
    intro g hchange
    have hby := hcs e.1 (List.of_mem_zip he).1 (regrantBy_of_regrant? hchange)
    obtain ⟨permit, -, hanswer⟩ := hignores.refused e he hby
    rw [hanswer, regrant?_refused] at hchange
    cases hchange
  rw [SharedPool.access_calls, hnone]
  rfl

/-- After any calls, from a single administrator on, an account has a role if and only if the last
change made of that grant was to grant it.  A privileged call is carried out if its permit is for
the role it needs and the holder has that role at this moment; otherwise it answers that the holder
lacks the role, and nothing at all changes.  So what a group without an administrator asks of the
grants is refused and makes no difference to anybody, until somebody else makes a member an
administrator; and when only the group asks, the grants stay as they are. -/
theorem permits_follow_grants (books : Books) (admin : Address) (cs : List Call) {s : SharedPool}
    (hs : s = ((create books (.ofAdmin admin)).calls cs).2) :
    (∀ account role, s.access.hasRole account role =
      (Regrant.last? account role (⟨admin, .admin, true⟩ ::
        regrants ((create books (.ofAdmin admin)).transcript cs))).any (·.granted)) ∧
    (∀ c permit role, c.demand? = some (permit, role) →
      s.call c = if s.access.Honours permit role then s.carryOut c
        else (c.refusal (Access.lacks permit.holder role), s)) ∧
    ∀ group, s.Unadministered group → ∀ later,
      ((∀ c ∈ later, c.promotes group = false) → s.Ignores group later) ∧
      ((∀ c ∈ later, c.regrantBy (fun _ => true) = true → c.regrantBy group = true) →
        (s.calls later).2.access = s.access) := by
  refine ⟨fun account role => ?_, fun c permit role hc => ?_, fun group hgroup later => ?_⟩
  · have hfirst : Access.ofAdmin admin = Access.empty.regrant ⟨admin, .admin, true⟩ := rfl
    rw [hs, access_calls, create, hfirst, ← List.foldl_cons, Access.hasRole_foldl_regrant]
    cases Regrant.last? account role _ <;> rfl
  · split
    · next h => exact call_of_honours hc h
    · next h => exact call_of_not_honours hc h
  · exact ⟨hgroup.ignores, hgroup.access_calls⟩

/- The first administrator hands out every role and makes a second administrator, who removes the
first one and the oracle.  All of them try what they can with the permits they kept. -/

def firstAdmin : Permit := ⟨Address.ofCount 1, .admin⟩

def secondAdmin : Permit := ⟨Address.ofCount 2, .admin⟩

def someOracle : Permit := ⟨Address.ofCount 3, .oracle⟩

def someDepositor : Permit := ⟨Address.ofCount 4, .depositor⟩

def someManager : Permit := ⟨Address.ofCount 5, .moduleManager⟩

def handover : List Call :=
  [.grant firstAdmin someOracle.holder .oracle, .permit someOracle.holder .oracle,
    .grant firstAdmin someDepositor.holder .depositor,
    .grant firstAdmin someManager.holder .moduleManager,
    .grant firstAdmin secondAdmin.holder .admin, .revoke secondAdmin someOracle.holder .oracle,
    .revoke secondAdmin firstAdmin.holder .admin]

def removed (account : Address) : Bool :=
  account == firstAdmin.holder || account == someOracle.holder

def keptPermits : List Call :=
  [.perform someOracle (.report (plainReport 1 500)), .grant firstAdmin firstAdmin.holder .admin,
    .grant someOracle someOracle.holder .oracle, .revoke firstAdmin secondAdmin.holder .admin]

def newModule : StakingModule where
  id := 1
  name := "curated"
  address := .ofCount 6
  target := 10000
  fee := 500
  treasuryFee := 500
  status := .active
  activeKeys := Bounded.zero
  availableKeys := 10
  lastDepositBlock := Bounded.zero

theorem permits_follow_grants_handover :
    ∃ s : SharedPool,
      s = ((create ⟨.initial .standard, .empty⟩ (.ofAdmin firstAdmin.holder)).calls handover).2 ∧
      s.access.hasRole secondAdmin.holder .admin = true ∧
      s.access.hasRole firstAdmin.holder .admin = false ∧
      s.call (.perform someOracle (.report (plainReport 1 500))) =
        (.reply (.error (.refused (Access.lacks someOracle.holder .oracle))), s) ∧
      s.call (.perform someDepositor (.deposit 1 1)) =
        s.carryOut (.perform someDepositor (.deposit 1 1)) ∧
      s.call (.perform someManager (.deposit 1 1)) =
        (.reply (.error (.refused (Access.lacks someManager.holder .depositor))), s) ∧
      (s.call (.perform someManager (.manage (.add newModule)))).2.view.modules = [newModule] ∧
      s.call (.perform someDepositor (.manage (.add newModule))) =
        (.reply (.error (.refused (Access.lacks someDepositor.holder .moduleManager))), s) ∧
      (s.calls keptPermits).2.access = s.access ∧
      s.Ignores removed (.grant secondAdmin someOracle.holder .depositor :: keptPermits) := by
  obtain ⟨s, hs⟩ : ∃ s : SharedPool, s = ((create ⟨.initial .standard, .empty⟩
    (.ofAdmin firstAdmin.holder)).calls handover).2 := ⟨_, rfl⟩
  obtain ⟨hroles, hcalls, hgroups⟩ := permits_follow_grants ⟨.initial .standard, .empty⟩
    firstAdmin.holder handover hs
  have hsecond := (hroles secondAdmin.holder .admin).trans (by decide +kernel : _ = true)
  have hfirst := (hroles firstAdmin.holder .admin).trans (by decide +kernel : _ = false)
  have hmember := (hroles someOracle.holder .admin).trans (by decide +kernel : _ = false)
  have horacle := (hroles someOracle.holder .oracle).trans (by decide +kernel : _ = false)
  have hdepositor := (hroles someDepositor.holder .depositor).trans (by decide +kernel : _ = true)
  have hmanager := (hroles someManager.holder .moduleManager).trans (by decide +kernel : _ = true)
  have hgroup : s.Unadministered removed := by
    intro account hin
    rcases Bool.or_eq_true_iff.1 hin with h | h
    · rw [beq_iff_eq.1 h]
      exact hfirst
    · rw [beq_iff_eq.1 h]
      exact hmember
  refine ⟨s, hs, hsecond, hfirst, ?_, ?_, ?_, ?_, ?_, (hgroups removed hgroup _).2 ?_,
    (hgroups removed hgroup _).1 ?_⟩
  · rw [hcalls _ _ _ rfl]
    refine if_neg (fun h => ?_)
    rw [Access.Honours, horacle] at h
    cases h.2
  · rw [hcalls _ _ _ rfl]
    exact if_pos ⟨rfl, hdepositor⟩
  · rw [hcalls _ _ _ rfl]
    exact if_neg (fun h => nomatch h.1)
  · rw [hcalls _ _ _ rfl, if_pos ⟨rfl, hmanager⟩, hs]
    decide +kernel
  · rw [hcalls _ _ _ rfl]
    exact if_neg (fun h => nomatch h.1)
  · simp only [keptPermits, List.forall_mem_cons]
    refine ⟨fun h => ?_, fun _ => by decide, fun _ => by decide, fun _ => by decide, ?_⟩
    · cases h
    · exact fun _ hc => absurd hc List.not_mem_nil
  · simp only [keptPermits, List.forall_mem_cons]
    refine ⟨rfl, rfl, by decide, rfl, rfl, ?_⟩
    exact fun _ hc => absurd hc List.not_mem_nil

end SharedPool
end LiquidStaking

/-
Runs of a queue with an escrow.

A desk takes requests, finalizes batches at whatever numbers it is given, and pays claims; what
else happens to its escrow is not up to it.  An operation that faults leaves the desk as it was.
-/
import LiquidStaking.Proofs.Withdrawal.Validity

namespace LiquidStaking

namespace WithdrawalQueue

/-- What an operation of a queue that answers does to it. -/
inductive Changes (q : WithdrawalQueue) : WithdrawalQueue → Prop
  | enqueue {q' : WithdrawalQueue} {recipient : Address} {ether shares : Amount}
      {block id : Count} (h : q.enqueue recipient ether shares block = .ok (id, q')) : Changes q q'
  | finalize {q' : WithdrawalQueue} {last : Count} {lock poolValue shares balance : Amount}
      (h : q.finalize last lock poolValue shares balance = .ok q') : Changes q q'
  | claim {q' : WithdrawalQueue} {id : Count} {hint : Option Nat} {escrow escrow' : Escrow}
      {receipt : ClaimReceipt} (h : q.claim id hint escrow = .ok (receipt, q', escrow')) :
      Changes q q'

variable {q q' : WithdrawalQueue}

theorem Valid.changes (hv : q.Valid) (h : q.Changes q') : q'.Valid := by
  cases h with
  | enqueue h => exact hv.enqueue h
  | finalize h => exact hv.finalize h
  | claim h => exact hv.claim h

theorem Changes.limits_eq (h : q.Changes q') : q'.limits = q.limits := by
  cases h with
  | enqueue h =>
    obtain ⟨-, -, -, -, e, s, -, -, rfl⟩ := enqueue_eq_ok_iff.1 h
    rfl
  | finalize h =>
    obtain ⟨-, -, -, -, hlimits, -, -, -, -⟩ := finalize_eq_ok h
    exact hlimits
  | claim h =>
    obtain ⟨-, -, -, -, -, -, -, -, -, -, -, -, rfl⟩ := claim_eq_ok_iff.1 h
    rfl

end WithdrawalQueue

/-- A queue and the escrow that its claims are paid from. -/
structure WithdrawalDesk where
  queue : WithdrawalQueue
  escrow : Escrow

namespace WithdrawalDesk

/-- What can happen at a desk.  `escrow` is anything that happens to the escrow from outside: a
recipient starts to refuse payments, or ether comes in. -/
inductive Move
  | enqueue (recipient : Address) (ether shares : Amount) (block : Count)
  | finalize (last : Count) (lock poolValue shares balance : Amount)
  | claim (id : Count) (hint : Option Nat)
  | escrow (change : Escrow → Escrow)

def opened (limits : WithdrawalLimits) (escrow : Escrow) : WithdrawalDesk :=
  ⟨.create limits, escrow⟩

/-- What a claim answers, and the desk it leaves. -/
def claim (d : WithdrawalDesk) (id : Count) (hint : Option Nat) :
    Except Fault ClaimReceipt × WithdrawalDesk :=
  match d.queue.claim id hint d.escrow with
  | .ok (receipt, queue, escrow) => (.ok receipt, ⟨queue, escrow⟩)
  | .error cause => (.error cause, d)

def move (d : WithdrawalDesk) : Move → WithdrawalDesk
  | .enqueue recipient ether shares block =>
    match d.queue.enqueue recipient ether shares block with
    | .ok (_, queue) => { d with queue }
    | .error _ => d
  | .finalize last lock poolValue shares balance =>
    match d.queue.finalize last lock poolValue shares balance with
    | .ok queue => { d with queue }
    | .error _ => d
  | .claim id hint => (d.claim id hint).2
  | .escrow change => { d with escrow := change d.escrow }

def after (d : WithdrawalDesk) (moves : List Move) : WithdrawalDesk := moves.foldl move d

variable {d : WithdrawalDesk}

theorem claim_cases (d : WithdrawalDesk) (id : Count) (hint : Option Nat) :
    (∃ cause, d.claim id hint = (.error cause, d)) ∨
      ∃ receipt queue escrow, d.queue.claim id hint d.escrow = .ok (receipt, queue, escrow) ∧
        d.claim id hint = (.ok receipt, ⟨queue, escrow⟩) := by
  unfold claim
  cases h : d.queue.claim id hint d.escrow with
  | error cause => exact .inl ⟨cause, rfl⟩
  | ok out => exact .inr ⟨out.1, out.2.1, out.2.2, rfl, rfl⟩

/-- A move leaves the queue alone, or is an operation of it that answers. -/
theorem queue_move (d : WithdrawalDesk) (m : Move) :
    (d.move m).queue = d.queue ∨ d.queue.Changes (d.move m).queue := by
  cases m with
  | enqueue recipient ether shares block =>
    cases h : d.queue.enqueue recipient ether shares block with
    | error cause => exact .inl (by simp only [move, h])
    | ok out =>
      have hmove : d.move (.enqueue recipient ether shares block) = { d with queue := out.2 } := by
        simp only [move, h]
      rw [hmove]
      exact .inr (.enqueue h)
  | finalize last lock poolValue shares balance =>
    cases h : d.queue.finalize last lock poolValue shares balance with
    | error cause => exact .inl (by simp only [move, h])
    | ok queue =>
      have hmove : d.move (.finalize last lock poolValue shares balance) = { d with queue } := by
        simp only [move, h]
      rw [hmove]
      exact .inr (.finalize h)
  | claim id hint =>
    have hmove : d.move (.claim id hint) = (d.claim id hint).2 := rfl
    rw [hmove]
    rcases d.claim_cases id hint with ⟨cause, h⟩ | ⟨receipt, queue, escrow, hok, h⟩
    · rw [h]
      exact .inl rfl
    · rw [h]
      exact .inr (.claim hok)
  | escrow change => exact .inl rfl

theorem queue_after {P : WithdrawalQueue → Prop}
    (hstep : ∀ {q q' : WithdrawalQueue}, P q → q.Changes q' → P q') :
    ∀ (moves : List Move) {d : WithdrawalDesk}, P d.queue → P (d.after moves).queue
  | [], _, h => h
  | m :: rest, d, h => by
    refine queue_after hstep rest (d := d.move m) ?_
    rcases d.queue_move m with hsame | hchange
    · rw [hsame]
      exact h
    · exact hstep h hchange

theorem valid_after (limits : WithdrawalLimits) (escrow : Escrow) (moves : List Move) :
    ((opened limits escrow).after moves).queue.Valid :=
  queue_after (fun hv h => hv.changes h) moves (WithdrawalQueue.create_valid limits)

theorem limits_after (limits : WithdrawalLimits) (escrow : Escrow) (moves : List Move) :
    ((opened limits escrow).after moves).queue.limits = limits :=
  queue_after (P := fun q => q.limits = limits) (fun hq h => h.limits_eq.trans hq) moves rfl

end WithdrawalDesk
end LiquidStaking

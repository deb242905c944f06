/-
The escrow.

The escrow holds the ether that is locked for finalized withdrawals, and pays it out.  It keeps
a credit per recipient of what it paid, and a set of recipients whose payments fail.
-/
import LiquidStaking.AddressMap
import LiquidStaking.Arithmetic

namespace LiquidStaking

inductive TransferFault
  | rejected (recipient : Address)
  | short (balance amount : Nat)
  | credit (cause : Fault)
deriving DecidableEq

namespace TransferFault

def message : TransferFault → String
  | rejected recipient => s!"recipient {recipient.text} rejected payment"
  | short balance amount => s!"escrow holds {balance} of {amount}"
  | credit cause => cause.message

end TransferFault

structure Escrow where
  balance : Amount
  paid : AddressMap Amount
  rejecting : AddressSet
deriving DecidableEq

namespace Escrow

def ofBalance (balance : Amount) : Escrow := ⟨balance, .empty, .empty⟩

def empty : Escrow := ofBalance Bounded.zero

def paidTo (e : Escrow) (recipient : Address) : Amount := (e.paid.get? recipient).getD Bounded.zero

/-- All that was paid to anyone; the sum halts when it leaves its width. -/
def totalPaid (e : Escrow) : Except Failure Amount :=
  match Bounded.ofNat? (Bounded.total e.paid.values) with
  | some total => .ok total
  | none => .error .halted

def fund (e : Escrow) (amount : Amount) : Except Fault Escrow := do
  return { e with balance := ← e.balance.add amount }

def transfer (e : Escrow) (recipient : Address) (amount : Amount) :
    Except TransferFault Escrow :=
  if e.rejecting.contains recipient then
    .error (.rejected recipient)
  else
    match e.balance.sub amount with
    | .error _ => .error (.short e.balance.val amount.val)
    | .ok balance =>
      match (e.paidTo recipient).add amount with
      | .error cause => .error (.credit cause)
      | .ok credit => .ok { e with balance, paid := e.paid.insert recipient credit }

def reject (e : Escrow) (recipient : Address) : Escrow :=
  { e with rejecting := e.rejecting.insert recipient () }

def accept (e : Escrow) (recipient : Address) : Escrow :=
  { e with rejecting := e.rejecting.erase recipient }

end Escrow

end LiquidStaking

/-
Who may do what.

A grant is a pair of an account and a role.  A permit says that its holder had a role when it was
issued; every privileged operation checks the permit against the grants of the moment.
-/
import LiquidStaking.Address

namespace LiquidStaking

inductive Role
  /-- Grants and revokes roles. -/
  | admin
  /-- Delivers reports. -/
  | oracle
  /-- Adds and changes modules. -/
  | moduleManager
  /-- Moves buffered ether into modules. -/
  | depositor
deriving DecidableEq

namespace Role

def name : Role → String
  | admin => "admin"
  | oracle => "oracle"
  | moduleManager => "module_manager"
  | depositor => "depositor"

end Role

structure Permit where
  holder : Address
  role : Role
deriving DecidableEq

structure Access where
  grants : List (Address × Role)
deriving DecidableEq

namespace Access

def empty : Access := ⟨[]⟩

def ofAdmin (admin : Address) : Access := ⟨[(admin, .admin)]⟩

def lacks (account : Address) (role : Role) : Fault := .unauthorized account.text role.name

def hasRole (a : Access) (account : Address) (role : Role) : Bool :=
  a.grants.contains (account, role)

def permit (a : Access) (account : Address) (role : Role) : Except Fault Permit :=
  if a.hasRole account role then .ok ⟨account, role⟩ else .error (lacks account role)

/-- Whether a permit is for a role, whoever holds it now. -/
def require (p : Permit) (role : Role) : Except Fault Unit :=
  if p.role = role then .ok () else .error (lacks p.holder role)

/-- Whether a permit is for a role that its holder still has. -/
def verify (a : Access) (p : Permit) (role : Role) : Except Fault Unit := do
  require p role
  if a.hasRole p.holder role then return () else throw (lacks p.holder role)

def add (a : Access) (account : Address) (role : Role) : Access :=
  if a.hasRole account role then a else ⟨(account, role) :: a.grants⟩

def remove (a : Access) (account : Address) (role : Role) : Access :=
  ⟨a.grants.filter (fun g => g != (account, role))⟩

def grant (a : Access) (admin : Permit) (account : Address) (role : Role) : Except Fault Access := do
  a.verify admin .admin
  return a.add account role

def revoke (a : Access) (admin : Permit) (account : Address) (role : Role) :
    Except Fault Access := do
  a.verify admin .admin
  return a.remove account role

end Access

end LiquidStaking

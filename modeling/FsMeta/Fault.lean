import FsMeta.Error

set_option autoImplicit false

namespace FsMeta

inductive Call where
  | begin
  | get
  | set
  | delete
  | iterate
  | next
  | commit
  | rollback
  | timestamp
  deriving Repr, DecidableEq

structure Fault where
  call : Call
  after : Nat
  error : Error
  deriving Repr, DecidableEq

abbrev Schedule := List Fault

namespace Fault

def due (call : Call) (fault : Fault) : Bool := fault.call = call ∧ fault.after = 0

def passed (call : Call) (fault : Fault) : Option Fault :=
  if fault.call ≠ call then some fault
  else match fault.after with
    | 0 => none
    | after + 1 => some { fault with after }

end Fault

namespace Schedule

def errors (schedule : Schedule) : List Error := schedule.map Fault.error

def attempt (schedule : Schedule) (call : Call) : Except Error Unit × Schedule :=
  (match schedule.find? (Fault.due call) with
    | some fault => .error fault.error
    | none => .ok (),
    schedule.filterMap (Fault.passed call))

def plan (schedule : Schedule) (fault : Fault) : Schedule :=
  fault :: schedule.filter (·.call ≠ fault.call)

end Schedule

end FsMeta

import FsMeta.Error

set_option autoImplicit false

/-!
What a request carries along: whether it was cancelled and whether its time is up. Both may happen
while the request runs, so each is told as the number of checks that still pass before it.
-/
namespace FsMeta

inductive Signal where
  | never
  | after (checks : Nat)
  deriving Repr, DecidableEq

namespace Signal

def fired : Signal → Bool
  | after 0 => true
  | _ => false

def passed : Signal → Signal
  | after (checks + 1) => after checks
  | signal => signal

end Signal

structure Interrupts where
  cancellation : Signal := .never
  deadline : Option Signal := none
  deriving Repr, DecidableEq, Inhabited

namespace Interrupts

def never : Interrupts := {}

def cancel (interrupts : Interrupts) : Interrupts := { interrupts with cancellation := .after 0 }

def isCancelled (interrupts : Interrupts) : Bool := interrupts.cancellation.fired

def hasDeadline (interrupts : Interrupts) : Bool := interrupts.deadline.isSome

def state (interrupts : Interrupts) : Except Error Unit :=
  if interrupts.isCancelled then .error (.cancelled "request cancelled")
  else if interrupts.deadline.any Signal.fired then .error (.cancelled "deadline exceeded")
  else .ok ()

def check (interrupts : Interrupts) : Except Error Unit × Interrupts :=
  (interrupts.state,
    { cancellation := interrupts.cancellation.passed
      deadline := interrupts.deadline.map Signal.passed })

-- A guard cancels the request when it is dropped, unless it was disarmed before.
def guarded (interrupts : Interrupts) (disarmed : Bool) : Interrupts :=
  if disarmed then interrupts else interrupts.cancel

end Interrupts

end FsMeta

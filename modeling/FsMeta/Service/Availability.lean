import FsMeta.Error

set_option autoImplicit false

namespace FsMeta

inductive Availability where
  | available
  | closed
  deriving Repr, DecidableEq, Inhabited

namespace Availability

def isAvailable : Availability → Bool
  | available => true
  | closed => false

def require : Availability → Except Error Unit
  | available => .ok ()
  | closed => .error .unavailable

-- The flag tells whether this call was the one that closed.
def close (availability : Availability) : Bool × Availability :=
  (availability.isAvailable, closed)

end Availability

end FsMeta

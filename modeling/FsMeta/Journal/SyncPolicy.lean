set_option autoImplicit false

namespace FsMeta

inductive SyncPolicy where
  | everyWrite
  | everyEntries (count : Nat)
  deriving Repr, DecidableEq

-- A count of zero asks for the same as one.
def SyncPolicy.due : SyncPolicy → (waiting : Nat) → Bool
  | .everyWrite, _ => true
  | .everyEntries count, waiting => max count 1 ≤ waiting

end FsMeta

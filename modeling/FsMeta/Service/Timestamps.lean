import FsMeta.Service.Basic

set_option autoImplicit false

namespace FsMeta.Service

def maxTimestamps : Nat := 10000

def timestamp : Operation UInt64 := fun _ service =>
  let (result, engine) := service.engine.timestamp
  (result, { service with engine })

def takeTimestamps : Nat → Operation (List UInt64)
  | 0 => pure []
  | count + 1 => do
    let first ← timestamp
    let rest ← takeTimestamps count
    pure (first :: rest)

def timestamps (count : UInt64) : Operation Timestamps := do
  requireAvailable
  if count = 0 then throw (.invalid "count should not be less than 1")
  if maxTimestamps < count.toNat then
    throw (.invalid s!"count should not be more than {maxTimestamps}")
  let timestamp ← takeTimestamps count.toNat
  pure { timestamp, count }

end FsMeta.Service

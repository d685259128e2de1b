import FsMeta.Service.Basic

set_option autoImplicit false

namespace FsMeta.Service

def requireLocation (location : StorageLocation) : Except Error Unit :=
  if location.dataNodeId.isEmpty || location.storageId.isEmpty then
    .error (.invalid "data node id and storage id must not be empty")
  else .ok ()

-- A block may have no replicas yet.
def loadBlock (id : Int64) : Scoped Block := do
  let info ← Scoped.find BlockMeta (Key.blockMeta id).bytes
  let replicas ← Scoped.find? BlockStorage (Key.blockStorage id).bytes
  pure (.ofParts info (replicas.getD { id }))

def block (id : Int64) : Operation Block := do
  requireAvailable
  requirePositive "block id" id
  inScope (loadBlock id)

def putBlockMeta (id : Int64) (info : BlockMeta) : Operation Unit := do
  requireAvailable
  requirePositive "block id" id
  let info := { info with id }
  info.validate
  inScope (Scoped.put (Key.blockMeta id).bytes info)

def deleteBlockMeta (id : Int64) : Operation Unit := do
  requireAvailable
  requirePositive "block id" id
  inScope (Scoped.delete (Key.blockMeta id).bytes)

def blockStorage (id : Int64) : Operation BlockStorage := do
  requireAvailable
  requirePositive "block id" id
  inScope (Scoped.find BlockStorage (Key.blockStorage id).bytes)

-- A set of replicas that stays the same is not written.
def putChanged (id : Int64) : BlockStorage × Bool → Scoped Unit
  | (replicas, true) => Scoped.put (Key.blockStorage id).bytes replicas
  | (_, false) => pure ()

def addReplica (id : Int64) (location : StorageLocation) : Scoped Unit := do
  let known ← Scoped.find? BlockStorage (Key.blockStorage id).bytes
  putChanged id ((known.getD { id }).insert location)

def addBlockStorage (id : Int64) (location : StorageLocation) : Operation Unit := do
  requireAvailable
  requirePositive "block id" id
  requireLocation location
  inScope (addReplica id location)

def removeReplica (id : Int64) (location : StorageLocation) : Scoped Unit := do
  let known ← Scoped.find BlockStorage (Key.blockStorage id).bytes
  putChanged id (known.remove location)

def removeBlockStorage (id : Int64) (location : StorageLocation) : Operation Unit := do
  requireAvailable
  requirePositive "block id" id
  requireLocation location
  inScope (removeReplica id location)

end FsMeta.Service

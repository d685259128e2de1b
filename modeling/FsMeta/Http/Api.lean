import FsMeta.Http.Handler
import FsMeta.Http.Route
import FsMeta.Service.Blocks
import FsMeta.Service.Directories
import FsMeta.Service.Timestamps

set_option autoImplicit false

namespace FsMeta.Http

open Handling

structure Endpoints where
  get : Option Handler := none
  put : Option Handler := none
  post : Option Handler := none
  delete : Option Handler := none

def Endpoints.handler? (endpoints : Endpoints) : Method → Option Handler
  | .get | .head => endpoints.get
  | .put => endpoints.put
  | .post => endpoints.post
  | .delete => endpoints.delete
  | .other _ => none

def timestamps : Handler := do
  send (Service.timestamps (← count))

def blockMeta : Endpoints where
  get := some do send (Service.block (← id "id"))
  put := some do
    let id ← id "id"
    perform (Service.putBlockMeta id (← body BlockMeta))
  delete := some do perform (Service.deleteBlockMeta (← id "id"))

def blockStorage : Endpoints where
  get := some do send (Service.blockStorage (← id "id"))

def location : Handling StorageLocation := do
  let dataNodeId ← parameter "data_node_id"
  let storageId ← parameter "storage_id"
  pure { dataNodeId, storageId }

def replica : Endpoints where
  put := some do
    let id ← id "id"
    perform (Service.addBlockStorage id (← location))
  delete := some do
    let id ← id "id"
    perform (Service.removeBlockStorage id (← location))

def file : Endpoints where
  get := some do
    let id ← id "id"
    send (Service.file id (← simple))
  put := some do
    let id ← id "id"
    perform (Service.putFile id (← body INode))
  post := some do
    let id ← id "id"
    perform (Service.updateFile id (← body INodeFile))
  delete := some do perform (Service.deleteFile (← id "id"))

-- A block that comes without a number of replicas is to have one.
def replicated (block : Block) : Block :=
  if block.replication = 0 then { block with replication := 1 } else block

def fileBlock : Endpoints where
  get := some do
    let file ← id "id"
    send (Service.fileBlock file (← id "block_id"))
  put := some do
    let file ← id "id"
    let block ← id "block_id"
    perform (Service.putFileBlock file block (← generation))
  post := some do
    let file ← id "id"
    let block ← id "block_id"
    send (Service.updateFileBlock file block (replicated (← body Block)))
  delete := some do
    let file ← id "id"
    perform (Service.deleteFileBlock file (← id "block_id"))

def truncation : Endpoints where
  put := some do
    let file ← id "id"
    perform (Service.truncateFile file (← size "size"))

def directory : Endpoints where
  get := some do send (Service.directory (← id "id"))
  put := some do
    let id ← id "id"
    perform (Service.putDirectory id (← body INode))
  post := some do
    let id ← id "id"
    perform (Service.updateDirectory id (← body INode))
  delete := some do perform (Service.deleteDirectory (← id "id"))

def child : Endpoints where
  get := some do
    let parent ← id "id"
    send (Service.child parent (← parameter "name"))
  put := some do
    let parent ← id "id"
    let name ← parameter "name"
    perform (Service.putChild parent name (← body INode))
  delete := some do
    let parent ← id "id"
    perform (Service.deleteChild parent (← parameter "name"))

def children : Endpoints where
  get := some do
    let id ← id "id"
    sendAll (Service.children id (← simple))

def parent : Endpoints where
  put := some do
    let id ← id "id"
    let source ← Handling.id "old_id"
    perform (Service.reparent id source (← Handling.id "new_id"))

def routes : List (Pattern × Endpoints) :=
  [ ([.literal "tso"], { get := some timestamps }),
    ([.literal "block", .literal "meta", .parameter "id"], blockMeta),
    ([.literal "block", .literal "storage", .parameter "id"], blockStorage),
    ( [ .literal "block", .literal "storage", .parameter "id", .parameter "data_node_id",
        .parameter "storage_id" ], replica),
    ([.literal "file", .parameter "id"], file),
    ([.literal "file", .parameter "id", .parameter "block_id"], fileBlock),
    ([.literal "file-truncate", .parameter "id", .parameter "size"], truncation),
    ([.literal "directory", .parameter "id"], directory),
    ([.literal "directory", .parameter "id", .parameter "name"], child),
    ([.literal "directory-children", .parameter "id"], children),
    ([.literal "inode", .parameter "id", .parameter "old_id", .parameter "new_id"], parent) ]

def route? (segments : List Bytes) : Option (List (String × Bytes) × Endpoints) :=
  routes.findSome? fun (pattern, endpoints) =>
    (pattern.match? segments).map fun parameters => (parameters, endpoints)

def decodeParameters (parameters : List (String × Bytes)) :
    Except Rejection (List (String × String)) :=
  parameters.mapM fun (name, raw) =>
    match Utf8.decode? (Percent.decode raw) with
    | some text => .ok (name, text)
    | none => .error (.malformedParameter name)

def handle (handler : Handler) (call : Call) : StateM Service Response := do
  match ← (handler call).run with
  | .ok response => pure response
  | .error rejection => pure rejection.response

def withoutBody (method : Method) (response : Response) : Response :=
  if method = .head then { response with body := .empty } else response

def unavailable : Response := (Rejection.failed .unavailable).response

def notFound : Response := { status := 404 }

def wrongMethod : Response := { status := 405 }

def respondAt (interrupts : Interrupts) (complaint : String) (request : Request)
    (parameters : List (String × Bytes)) (endpoints : Endpoints) : StateM Service Response := do
  let available := (← get).isAvailable
  match endpoints.handler? request.method with
  | none => pure (if available then wrongMethod else unavailable)
  | some handler =>
    let response ←
      if available then
        match decodeParameters parameters with
        | .error rejection => pure rejection.response
        | .ok parameters => handle handler { parameters, request, interrupts, complaint }
      else pure unavailable
    pure (withoutBody request.method response)

def health (available : Bool) : Response :=
  { status := 200, body := .json (.fields [("status", .string "ok"), ("available", .bool available)]) }

def respondHealth (method : Method) : StateM Service Response := do
  if method = .get ∨ method = .head then
    pure (withoutBody method (health (← get).isAvailable))
  else pure wrongMethod

def respond (interrupts : Interrupts) (complaint : String) (request : Request) : StateM Service Response :=
  match Bytes.splitOn 0x2f request.path with
  | [] :: first :: rest =>
    if first = Utf8.encode "health" ∧ rest = [] then respondHealth request.method
    else if first = Utf8.encode "api" then
      match route? rest with
      | some (parameters, endpoints) => respondAt interrupts complaint request parameters endpoints
      | none => pure notFound
    else pure notFound
  | _ => pure notFound

end FsMeta.Http

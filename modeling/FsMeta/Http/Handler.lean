import FsMeta.Http.Message
import FsMeta.Record.Wire
import FsMeta.Service.Basic
import FsMeta.Text.Numeral

set_option autoImplicit false

namespace FsMeta.Http

inductive Rejection where
  | badRequest (message : String)
  | malformedParameter (name : String)
  | failed (error : Error)
  deriving Repr, DecidableEq

-- The complaint is what the reader of JSON says of a body that it cannot take.
structure Call where
  parameters : List (String × String)
  request : Request
  interrupts : Interrupts
  complaint : String

abbrev Handling := ReaderT Call (ExceptT Rejection (StateM Service))

abbrev Handler := Handling Response

def envelope (code : Nat) (message : String) (payload : List (String × Json)) : Body :=
  .json (.fields ([("code", .int code), ("error", .string message)] ++ payload))

def accepted : Response := { status := 202, body := envelope 0 "success" [] }

def answered (payload : Json) : Response :=
  { status := 200, body := envelope 0 "success" [("response", payload)] }

def refused (status : Nat) (message : String) : Response :=
  { status, body := envelope status message [] }

def Rejection.response : Rejection → Response
  | badRequest message => refused 400 message
  | malformedParameter name =>
    { status := 400, body := .plain s!"Invalid URL: Invalid UTF-8 in `{name}`" }
  | failed error => refused error.kind.status error.message

namespace Handling

def unreadable (field : String) (fault : Numeral.Fault) : Rejection :=
  .badRequest s!"{Quoted.text field} param format error: {fault.message}"

def positive (field raw : String) : Except Rejection Int64 :=
  match Numeral.int64 raw with
  | .error fault => .error (unreadable field fault)
  | .ok id =>
    if 0 < id then .ok id
    else .error (.badRequest s!"{Quoted.text field} must be a positive integer")

def nonNegative (field raw : String) : Except Rejection Int64 :=
  match Numeral.int64 raw with
  | .error fault => .error (unreadable field fault)
  | .ok n =>
    if 0 ≤ n then .ok n else .error (.badRequest s!"{Quoted.text field} must not be negative")

def parameter (name : String) : Handling String := do
  let call ← read
  pure (((call.parameters.find? (·.1 = name)).map (·.2)).getD "")

def id (name : String) : Handling Int64 := do
  positive name (← parameter name)

def size (name : String) : Handling Int64 := do
  nonNegative name (← parameter name)

def query? (name : String) : Handling (Option String) := do
  pure ((← read).request.queryValue? name)

def simple : Handling Bool := Option.isSome <$> query? "simple"

def count : Handling UInt64 := do
  match ← query? "count" with
  | none => pure 1
  | some raw =>
    match Numeral.uint64 raw with
    | .ok n => pure n
    | .error fault => throw (unreadable "count" fault)

def generation : Handling Int64 := do
  match ← query? "generation_time" with
  | none => pure 0
  | some raw => nonNegative "generation_time" raw

def body (α : Type) [Wire α] : Handling α := do
  let call ← read
  match Wire.parse? call.request.body with
  | some value => pure value
  | none => throw (.badRequest s!"parse request body error: {call.complaint}")

def ask {α : Type} (operation : Service.Operation α) : Handling α := fun call service =>
  let (result, service) := service.run call.interrupts operation
  (result.mapError .failed, service)

def send {α : Type} [Wire α] (operation : Service.Operation α) : Handler := do
  pure (answered (Wire.toJson (← ask operation)))

def sendAll {α : Type} [Wire α] (operation : Service.Operation (List α)) : Handler := do
  pure (answered (.array ((← ask operation).map Wire.toJson)))

def perform {α : Type} (operation : Service.Operation α) : Handler := do
  let _ ← ask operation
  pure accepted

end Handling

end FsMeta.Http

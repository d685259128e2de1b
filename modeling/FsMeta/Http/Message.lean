import FsMeta.Json.Value
import FsMeta.Text.Percent

set_option autoImplicit false

namespace FsMeta.Http

inductive Method where
  | get
  | head
  | put
  | post
  | delete
  | other (name : String)
  deriving Repr, DecidableEq

def Method.ofName : String → Method
  | "GET" => get
  | "HEAD" => head
  | "PUT" => put
  | "POST" => post
  | "DELETE" => delete
  | name => other name

structure Request where
  method : Method
  path : Bytes
  query : List (String × String)
  body : Bytes
  deriving Repr, DecidableEq

inductive Body where
  | empty
  | plain (content : String)
  | json (content : Json)

structure Response where
  status : Nat
  body : Body := .empty

-- The bytes that a scheme is made of: letters, digits, and four marks.
def schemeByte (byte : UInt8) : Bool :=
  (0x61 ≤ byte && byte ≤ 0x7a) || (0x41 ≤ byte && byte ≤ 0x5a) || (0x30 ≤ byte && byte ≤ 0x39)
    || byte = 0x2b || byte = 0x2d || byte = 0x2e || byte = 0x7e

def endsHost (byte : UInt8) : Bool := byte = 0x2f || byte = 0x3f

/-- A target may name scheme and host before its path, which is then the root if nothing is left. -/
def withoutHost (target : Bytes) : Bytes :=
  match target.dropWhile schemeByte with
  | 0x3a :: 0x2f :: 0x2f :: rest =>
    match rest.dropWhile (! endsHost ·) with
    | 0x2f :: path => 0x2f :: path
    | query => 0x2f :: query
  | _ => target

/-- What follows the first question mark is the query; what follows a hash sign is not sent. -/
def Request.ofTarget (method : Method) (target : String) (body : Bytes) : Request :=
  let sent := withoutHost ((Utf8.encode target).takeWhile (· ≠ 0x23))
  { method
    path := sent.takeWhile (· ≠ 0x3f)
    query := Percent.formPairs ((sent.dropWhile (· ≠ 0x3f)).drop 1)
    body }

-- Of several values for a name, the last counts.
def Request.queryValue? (request : Request) (name : String) : Option String :=
  (request.query.reverse.find? (·.1 = name)).map (·.2)

end FsMeta.Http

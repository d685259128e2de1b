set_option autoImplicit false

namespace FsMeta

inductive IoFault where
  | notFound
  | exists
  | notDirectory
  | isDirectory
  | invalidArgument
  | tooLarge
  | noSpace
  | other (text : String)
  deriving Repr, DecidableEq

def IoFault.message : IoFault → String
  | .notFound => "No such file or directory (os error 2)"
  | .exists => "File exists (os error 17)"
  | .notDirectory => "Not a directory (os error 20)"
  | .isDirectory => "Is a directory (os error 21)"
  | .invalidArgument => "Invalid argument (os error 22)"
  | .tooLarge => "File too large (os error 27)"
  | .noSpace => "No space left on device (os error 28)"
  | .other text => text

inductive Error where
  | notFound (what : String)
  | invalid (what : String)
  | conflict (what : String)
  | unavailable
  | cancelled (what : String)
  | corrupted (what : String)
  | serialization (what : String)
  | io (fault : IoFault)
  | journalCorruption (what : String)
  | storage (what : String)
  | configuration (what : String)
  deriving Repr, DecidableEq

inductive Error.Kind where
  | notFound
  | invalidArgument
  | conflict
  | unavailable
  | cancelled
  | internal
  deriving Repr, DecidableEq

namespace Error

def message : Error → String
  | notFound what => s!"not found: {what}"
  | invalid what => s!"invalid argument: {what}"
  | conflict what => s!"write conflict: {what}"
  | unavailable => "service is not accepting requests"
  | cancelled what => s!"cancelled: {what}"
  | corrupted what => s!"metadata corrupted: {what}"
  | serialization what => s!"Serialization error: {what}"
  | io fault => s!"IO error: {fault.message}"
  | journalCorruption what => s!"WAL corruption detected: {what}"
  | storage what => s!"Storage error: {what}"
  | configuration what => s!"Configuration error: {what}"

def kind : Error → Kind
  | notFound _ => .notFound
  | invalid _ => .invalidArgument
  | conflict _ => .conflict
  | unavailable => .unavailable
  | cancelled _ => .cancelled
  | corrupted _ | serialization _ | io _ | journalCorruption _ | storage _ | configuration _ => .internal

def isNotFound (error : Error) : Bool := error.kind == .notFound

def Kind.status : Kind → Nat
  | .notFound => 404
  | .invalidArgument => 400
  | .conflict => 500
  | .unavailable => 503
  | .cancelled => 504
  | .internal => 500

end Error

def requirePositive (field : String) (id : Int64) : Except Error Unit :=
  if id ≤ 0 then .error (.invalid s!"{field} must be a positive integer, got {id}") else .ok ()

end FsMeta

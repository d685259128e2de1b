import FsMeta.Error
import FsMeta.Bytes

set_option autoImplicit false

/-!
What a journal is kept in: a regular file that may have a limit on its growth, or a device that is
always full. A write that does not fit stores what fits, and cutting or syncing may be refused.
-/
namespace FsMeta.Journal

inductive File where
  | regular (content : Bytes)
  | full
  deriving Repr, DecidableEq

-- Where reading takes its bytes from. A directory can be opened but not read.
inductive Source where
  | bytes (rest : Bytes)
  | zeros
  | directory
  deriving Repr, DecidableEq

-- Calls that fail although the file could serve them.
structure Refusals where
  clone : Option IoFault := none
  cut : Option IoFault := none
  sync : Option IoFault := none
  deriving Repr, DecidableEq

structure Medium where
  file : File
  limit : Option Nat := none
  refusals : Refusals := {}
  now : UInt64 := 0
  deriving Repr, DecidableEq

def Source.read (source : Source) (count : Nat) : Except IoFault (Bytes × Source) :=
  match source with
  | .bytes rest => .ok (rest.take count, .bytes (rest.drop count))
  | .zeros => .ok (List.replicate count 0, .zeros)
  | .directory => .error .isDirectory

def Source.size : Source → Nat
  | .bytes rest => rest.length
  | _ => 0

namespace File

def source : File → Source
  | regular content => .bytes content
  | full => .zeros

def length : File → Nat
  | regular content => content.length
  | full => 0

def setLength (limit : Option Nat) (length : Nat) : File → Except IoFault File
  | full => .error .invalidArgument
  | regular content =>
    if length ≤ content.length then .ok (regular (content.take length))
    else if limit.any (· < length) then .error .tooLarge
    else .ok (regular (content ++ List.replicate (length - content.length) 0))

def append (limit : Option Nat) (bytes : Bytes) : File → File × Option IoFault
  | full => (full, some .noSpace)
  | regular content =>
    match limit with
    | none => (regular (content ++ bytes), none)
    | some most =>
      if content.length + bytes.length ≤ most then (regular (content ++ bytes), none)
      else (regular (content ++ bytes.take (most - content.length)), some .tooLarge)

-- A device that is always full cannot be brought to the disk either.
def sync : File → Except IoFault Unit
  | full => .error .invalidArgument
  | regular _ => .ok ()

end File

namespace Medium

def append (medium : Medium) (bytes : Bytes) : Medium × Option IoFault :=
  let (file, fault) := medium.file.append medium.limit bytes
  ({ medium with file }, fault)

def setLength (medium : Medium) (length : Nat) : Except IoFault Medium :=
  match medium.refusals.cut with
  | some fault => .error fault
  | none => (fun file => { medium with file }) <$> medium.file.setLength medium.limit length

def sync (medium : Medium) : Except IoFault Unit :=
  match medium.refusals.sync with
  | some fault => .error fault
  | none => medium.file.sync

end Medium

end FsMeta.Journal

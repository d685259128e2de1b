import FsMeta.Chain.Removal
import FsMeta.Tree.Link

set_option autoImplicit false

namespace FsMeta.Tree

def deleteChild (parent : Int64) (name : String) : Scoped Unit := do
  requirePositive "parent id" parent
  requireName name
  deleteLink parent name

def deleteFile (id : Int64) : Scoped Unit := do
  let node ← inode id
  if node.isDirectory then throw (.invalid s!"inode {id} is a directory")
  let _ ← Chain.deleteAll id
  deleteInode id
  unlink node

structure Removal where
  pending : List Int64
  visited : List Int64 := []
  removed : Nat := 0
  deriving Repr, DecidableEq

namespace Removal

def withFile (removal : Removal) : Removal := { removal with removed := removal.removed + 1 }

def withDirectory (removal : Removal) (id : Int64) : Removal :=
  { removal with pending := id :: removal.pending, removed := removal.removed + 1 }

end Removal

def removeLinked (removal : Removal) (id : Int64) : Scoped Removal := do
  match ← inode? id with
  | none => pure removal
  | some child =>
    match child.kind with
    | .file =>
      let _ ← Chain.deleteAll child.id
      deleteInode child.id
      pure removal.withFile
    | .directory =>
      if removal.visited.contains child.id then pure removal
      else
        deleteInode child.id
        pure (removal.withDirectory child.id)

def removeChild (removal : Removal) : Bytes × Bytes → Scoped Removal
  | (key, value) => do
    let link : ChildLink ← Record.decode value
    let removal ← removeLinked removal link.id
    Scoped.delete key
    pure removal

-- No directory is scanned twice and each link puts at most one onto the stack, so there are no more
-- steps than links and one.
def removeBelow : (bound : Nat) → Removal → Scoped Removal
  | 0, removal => pure removal
  | bound + 1, removal =>
    match removal.pending with
    | [] => pure removal
    | id :: pending =>
      if removal.visited.contains id then removeBelow bound { removal with pending }
      else do
        let opened := { removal with pending, visited := id :: removal.visited }
        let removal ← (← Scoped.scan (Key.children id)).foldlM removeChild opened
        removeBelow bound removal

def deleteDirectory (id : Int64) : Scoped Nat := do
  let root ← inode id
  if !root.isDirectory then throw (.invalid s!"inode {id} is a file")
  let removal ← removeBelow ((← Scoped.visibleCount) + 2) { pending := [id] }
  deleteInode id
  unlink root
  pure (removal.removed + 1)

end FsMeta.Tree

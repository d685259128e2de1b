import FsMeta.Tree.Link

set_option autoImplicit false

namespace FsMeta.Tree

def belowItself (id : Int64) : Error := .invalid s!"inode {id} cannot be moved below itself"

-- Follows the parents up. Nothing is passed twice, so there are no more steps than inodes.
def requireNotAbove (id : Int64) : (bound : Nat) → (seen : List Int64) → INode → Scoped Unit
  | 0, _, _ => pure ()
  | bound + 1, seen, current =>
    if current.id = id then throw (belowItself id)
    else if current.parentId ≤ 0 || seen.contains current.id then pure ()
    else do
      match ← inode? current.parentId with
      | none => pure ()
      | some parent => requireNotAbove id bound (current.id :: seen) parent

def requireLinked (link : ChildLink) (parent : Int64) (name : String) (id : Int64) :
    Except Error Unit :=
  if link.id = id then .ok ()
  else .error (.invalid (s!"{Quoted.text name} in directory {parent} is linked to inode"
    ++ s!" {link.id}, not {id}"))

def move (node target : INode) (id source destination : Int64) : Scoped Unit := do
  requireNotAbove id ((← Scoped.visibleCount) + 2) [] target
  requireFree destination node.name id (← link? destination node.name)
  putInode destination target
  putInode id { node with parentId := destination }
  deleteLink source node.name
  putLink destination node.name id

def reparent (id source destination : Int64) : Scoped Unit := do
  requirePositive "inode id" id
  requirePositive "old parent id" source
  requirePositive "new parent id" destination
  let node ← inode id
  let link ← Scoped.find ChildLink (Key.child source node.name).bytes
  requireLinked link source node.name id
  let target ← inode destination
  if !target.isDirectory then throw (.invalid s!"new parent {destination} is a file")
  if source ≠ destination then move node target id source destination

end FsMeta.Tree

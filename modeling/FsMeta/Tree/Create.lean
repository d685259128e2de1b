import FsMeta.Tree.Link

set_option autoImplicit false

namespace FsMeta.Tree

def requireWellFormed (node : INode) : Except Error Unit := do
  requirePositive "inode id" node.id
  requirePositive "parent id" node.parentId
  if node.name.isEmpty then throw (.invalid s!"inode {node.id} has an empty name")
  if node.id = node.parentId then
    throw (.invalid s!"inode {node.id} cannot be its own parent")

def requireSameKind (existing node : INode) : Except Error Unit :=
  if existing.kind = node.kind then .ok ()
  else .error (.invalid (s!"inode {node.id} cannot change type from {existing.kind.title}"
    ++ s!" to {node.kind.title}"))

def prepareReplacement (existing node : INode) : Scoped Unit := do
  requireSameKind existing node
  if existing.parentId ≠ node.parentId || existing.name ≠ node.name then unlink existing

-- The parent is written back as it is: who deletes or moves it meanwhile is in conflict.
def touch (id : Int64) : Scoped Unit := do
  match ← inode? id with
  | some node => putInode id node
  | none => pure ()

def create (node : INode) : Scoped Unit := do
  requireWellFormed node
  match ← inode? node.id with
  | some existing => prepareReplacement existing node
  | none => pure ()
  requireFree node.parentId node.name node.id (← link? node.parentId node.name)
  touch node.parentId
  putInode node.id node
  putLink node.parentId node.name node.id

end FsMeta.Tree

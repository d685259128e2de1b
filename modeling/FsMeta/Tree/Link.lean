import FsMeta.Scope

set_option autoImplicit false

namespace FsMeta.Tree

def inode (id : Int64) : Scoped INode := do
  requirePositive "inode id" id
  Scoped.find INode (Key.inode id).bytes

def inode? (id : Int64) : Scoped (Option INode) := Scoped.find? INode (Key.inode id).bytes

def putInode (id : Int64) (node : INode) : Scoped Unit := Scoped.put (Key.inode id).bytes node

def deleteInode (id : Int64) : Scoped Unit := Scoped.delete (Key.inode id).bytes

def link? (parent : Int64) (name : String) : Scoped (Option ChildLink) :=
  Scoped.find? ChildLink (Key.child parent name).bytes

def putLink (parent : Int64) (name : String) (id : Int64) : Scoped Unit :=
  Scoped.put (Key.child parent name).bytes ({ id } : ChildLink)

def deleteLink (parent : Int64) (name : String) : Scoped Unit :=
  Scoped.delete (Key.child parent name).bytes

def requireName (name : String) : Except Error Unit :=
  if name.isEmpty then .error (.invalid "child name must not be empty") else .ok ()

-- A name is taken if its link leads to another inode.
def requireFree (parent : Int64) (name : String) (id : Int64) : Option ChildLink →
    Except Error Unit
  | none => .ok ()
  | some link =>
    if link.id = id then .ok ()
    else .error (.invalid (s!"{Quoted.text name} in directory {parent} is already linked to"
      ++ s!" inode {link.id}"))

def unlink (node : INode) : Scoped Unit := do
  if node.parentId ≤ 0 || node.name.isEmpty then return
  match ← link? node.parentId node.name with
  | some link => if link.id = node.id then deleteLink node.parentId node.name
  | none => pure ()

end FsMeta.Tree

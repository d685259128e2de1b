import FsMeta.Tree.Link

set_option autoImplicit false

namespace FsMeta.Tree

def placeholder (id : Int64) (name : String) : INode := { id, name }

def linked (parent : Int64) (name : String) (id : Int64) : Scoped INode := do
  match ← inode? id with
  | some node => pure node
  | none =>
    throw (.notFound (s!"{Quoted.text name} in directory {parent} links to missing inode"
      ++ s!" {id}"))

def child (parent : Int64) (name : String) (details : Bool) : Scoped INode := do
  requirePositive "parent id" parent
  requireName name
  let link ← Scoped.find ChildLink (Key.child parent name).bytes
  if details then INode.summary <$> linked parent name link.id
  else pure (placeholder link.id name)

def listed (parent : Int64) (simple : Bool) : Bytes × Bytes → Scoped INode
  | (key, value) => do
    let name ← Key.childName (Key.children parent) key
    let link : ChildLink ← Record.decode value
    if simple then pure (placeholder link.id name)
    else
      let node ← linked parent name link.id
      pure { node.summary with name }

def children (parent : Int64) (simple : Bool) : Scoped (List INode) := do
  requirePositive "parent id" parent
  (← Scoped.scan (Key.children parent)).mapM (listed parent simple)

end FsMeta.Tree

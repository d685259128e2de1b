set_option autoImplicit false

namespace FsMeta

inductive INode.Kind where
  | file
  | directory
  deriving Repr, DecidableEq, Inhabited

structure INode where
  id : Int64 := 0
  name : String := ""
  permission : Int64 := 0
  modificationTime : Int64 := 0
  accessTime : Int64 := 0
  header : Int64 := 0
  kind : INode.Kind := .file
  parentId : Int64 := 0
  clientName : String := ""
  clientMachine : String := ""
  deriving Repr, DecidableEq, Inhabited

structure ChildLink where
  id : Int64
  deriving Repr, DecidableEq

namespace INode

def Kind.number : Kind → Int32
  | .file => 0
  | .directory => 1

def Kind.ofNumber? (n : Int32) : Option Kind :=
  if n = 0 then some .file else if n = 1 then some .directory else none

def Kind.title : Kind → String
  | .file => "File"
  | .directory => "Directory"

def isDirectory (node : INode) : Bool := node.kind == .directory

-- Who wrote the inode is kept out of listings.
def summary (node : INode) : INode := { node with clientName := "", clientMachine := "" }

end INode

end FsMeta

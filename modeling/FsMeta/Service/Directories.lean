import FsMeta.Service.Files
import FsMeta.Tree.Listing
import FsMeta.Tree.Move

set_option autoImplicit false

namespace FsMeta.Service

def directory (id : Int64) : Operation INode := do
  requireAvailable
  let inode ← inScope (Tree.inode id)
  requireKind inode .directory
  pure inode

def putDirectory (id : Int64) (node : INode) : Operation Unit := do
  requireAvailable
  inScope (Tree.create { node with id, kind := .directory })

def replaceDirectory (id : Int64) (node : INode) : Scoped Unit := do
  let _ ← Tree.inode id
  Tree.create { node with id, kind := .directory }

def updateDirectory (id : Int64) (node : INode) : Operation Unit := do
  requireAvailable
  inScope (replaceDirectory id node)

def deleteDirectory (id : Int64) : Operation Nat := do
  requireAvailable
  inScope (Tree.deleteDirectory id)

def children (id : Int64) (simple : Bool) : Operation (List INode) := do
  requireAvailable
  inScope (Tree.children id simple)

def child (parent : Int64) (name : String) : Operation INode := do
  requireAvailable
  inScope (Tree.child parent name true)

def putChild (parent : Int64) (name : String) (node : INode) : Operation Unit := do
  requireAvailable
  inScope (Tree.create { node with parentId := parent, name })

def deleteChild (parent : Int64) (name : String) : Operation Unit := do
  requireAvailable
  inScope (Tree.deleteChild parent name)

def reparent (id source destination : Int64) : Operation Unit := do
  requireAvailable
  inScope (Tree.reparent id source destination)

end FsMeta.Service

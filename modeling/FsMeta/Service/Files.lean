import FsMeta.Chain.Replacement
import FsMeta.Chain.Truncation
import FsMeta.Chain.Upsert
import FsMeta.Service.Basic
import FsMeta.Tree.Create
import FsMeta.Tree.Removal

set_option autoImplicit false

namespace FsMeta.Service

def requireKind (node : INode) (kind : INode.Kind) : Except Error Unit :=
  if node.kind = kind then .ok ()
  else .error (.invalid s!"inode {node.id} is a {node.kind.title}, expected a {kind.title}")

def loadFile (id : Int64) (simple : Bool) : Scoped INodeFile := do
  let inode ← Tree.inode id
  requireKind inode .file
  let blocks ← if simple then pure [] else Chain.blocks id
  pure { inode, blocks }

def file (id : Int64) (simple : Bool) : Operation INodeFile := do
  requireAvailable
  inScope (loadFile id simple)

def putFile (id : Int64) (node : INode) : Operation Unit := do
  requireAvailable
  inScope (Tree.create { node with id, kind := .file })

def replaceFile (id : Int64) (file : INodeFile) : Scoped Unit := do
  let _ ← Tree.inode id
  Tree.create { file.inode with id, kind := .file }
  Chain.replace id file.blocks

def updateFile (id : Int64) (file : INodeFile) : Operation Unit := do
  requireAvailable
  inScope (replaceFile id file)

def deleteFile (id : Int64) : Operation Unit := do
  requireAvailable
  inScope (Tree.deleteFile id)

def fileBlock (file block : Int64) : Operation Block := do
  requireAvailable
  requirePositive "block id" block
  inScope (Chain.block file block)

def putFileBlock (file block generation : Int64) : Operation UInt64 := do
  requireAvailable
  inScope (Chain.upsert file block { id := block, generation } { id := block })

def replaceFileBlock (file : Int64) (block : Block) : Scoped Block := do
  let _ ← Chain.upsert file block.id block.info block.replicas
  Chain.block file block.id

def updateFileBlock (file id : Int64) (block : Block) : Operation Block := do
  requireAvailable
  inScope (replaceFileBlock file { block with id })

def deleteFileBlock (file block : Int64) : Operation Unit := do
  requireAvailable
  inScope (Chain.delete file block)

def shortenFile (id size : Int64) : Scoped Unit := do
  let inode ← Tree.inode id
  requireKind inode .file
  Chain.truncate id size

def truncateFile (id size : Int64) : Operation Unit := do
  requireAvailable
  inScope (shortenFile id size)

end FsMeta.Service

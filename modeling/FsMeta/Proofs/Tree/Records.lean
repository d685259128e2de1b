import FsMeta.Proofs.Record.INode
import FsMeta.Proofs.Stored

set_option autoImplicit false

namespace FsMeta

structure INode.Placed (node : INode) (id : Int64) : Prop where
  own : node.id = id
  parent : 0 < node.parentId
  name : node.name.isEmpty = false
  sized : node.Sized

theorem INode.Placed.withParent {node : INode} {id parent : Int64} (placed : node.Placed id)
    (positive : 0 < parent) : { node with parentId := parent }.Placed id where
  own := placed.own
  parent := positive
  name := placed.name
  sized := ⟨placed.sized.name, placed.sized.clientName, placed.sized.clientMachine⟩

namespace Contents

variable {contents : Contents} {id parent : Int64} {name : String} {node : INode}

def HasInode (contents : Contents) (id : Int64) (node : INode) : Prop :=
  contents (Key.inode id).bytes = some (Record.encode node) ∧ node.Placed id

def HasLink (contents : Contents) (parent : Int64) (name : String) (id : Int64) : Prop :=
  contents (Key.child parent name).bytes = some (Record.encode (ChildLink.mk id))

def Kept (contents : Contents) : Prop :=
  ∀ key bytes, contents key = some bytes →
    (∃ (id : Int64) (node : INode), key = (Key.inode id).bytes ∧ bytes = Record.encode node ∧
      node.Placed id) ∨
    ∃ parent name id, key = (Key.child parent name).bytes ∧ bytes = Record.encode (ChildLink.mk id)

theorem kept_empty : Kept empty := by
  intro key bytes held
  cases held

theorem HasInode.unique {other : INode} (one : contents.HasInode id node)
    (two : contents.HasInode id other) : node = other := by
  have same : Record.encode node = Record.encode other := Option.some.inj (one.1.symm.trans two.1)
  have decoded := Record.decode_encode_inode one.2.sized
  rw [same, Record.decode_encode_inode two.2.sized] at decoded
  cases decoded
  rfl

theorem HasLink.unique {other : Int64} (one : contents.HasLink parent name id)
    (two : contents.HasLink parent name other) : id = other := by
  have same : Record.encode (ChildLink.mk id) = Record.encode (ChildLink.mk other) :=
    Option.some.inj (one.symm.trans two)
  have decoded := Record.decode_encode_link (ChildLink.mk id)
  rw [same, Record.decode_encode_link] at decoded
  cases decoded
  rfl

theorem HasInode.holds (inode : contents.HasInode id node) : contents.Holds (.inode id) node :=
  ⟨_, inode.1, Record.decode_encode_inode inode.2.sized⟩

theorem HasLink.holds (link : contents.HasLink parent name id) :
    contents.Holds (.child parent name) (ChildLink.mk id) :=
  ⟨_, link, Record.decode_encode_link _⟩

namespace Kept

theorem inode (kept : contents.Kept) {bytes : Bytes}
    (held : contents (Key.inode id).bytes = some bytes) :
    ∃ node, contents.HasInode id node ∧ Record.decode bytes = .ok node := by
  rcases kept _ _ held with ⟨other, node, key, rfl, placed⟩ | ⟨_, _, _, key, _⟩
  · cases Key.bytes_injective key
    exact ⟨node, ⟨held, placed⟩, Record.decode_encode_inode placed.sized⟩
  · cases Key.bytes_injective key

theorem inode_of_decode (kept : contents.Kept) {bytes : Bytes}
    (held : contents (Key.inode id).bytes = some bytes) (decoded : Record.decode bytes = .ok node) :
    contents.HasInode id node := by
  obtain ⟨other, inode, same⟩ := kept.inode held
  rw [same] at decoded
  cases decoded
  exact inode

theorem link (kept : contents.Kept) {bytes : Bytes}
    (held : contents (Key.child parent name).bytes = some bytes) :
    ∃ id, contents.HasLink parent name id ∧ Record.decode bytes = .ok (ChildLink.mk id) := by
  rcases kept _ _ held with ⟨_, _, key, _, _⟩ | ⟨_, _, id, key, rfl⟩
  · cases Key.bytes_injective key
  · exact ⟨id, held, Record.decode_encode_link _⟩

theorem link_of_decode (kept : contents.Kept) {bytes : Bytes} {found : ChildLink}
    (held : contents (Key.child parent name).bytes = some bytes) (decoded : Record.decode bytes = .ok found) :
    contents.HasLink parent name found.id := by
  obtain ⟨other, link, same⟩ := kept.link held
  rw [same] at decoded
  cases decoded
  exact link

theorem child (kept : contents.Kept) {key bytes : Bytes} (held : contents key = some bytes)
    (begins : (Key.children parent).isPrefixOf key = true) :
    ∃ other name id, key = (Key.child other name).bytes ∧ bytes = Record.encode (ChildLink.mk id) := by
  rcases kept _ _ held with ⟨id, _, rfl, _, _⟩ | child
  · cases Key.marker_of_isPrefixOf begins
  · exact child

theorem no_fileBlock (kept : contents.Kept) {key bytes : Bytes} (held : contents key = some bytes)
    (begins : (Key.fileBlocks id).isPrefixOf key = true) : False := by
  rcases kept _ _ held with ⟨_, _, rfl, _, _⟩ | ⟨_, _, _, rfl, _⟩
  · cases Key.marker_of_isPrefixOf begins
  · cases Key.marker_of_isPrefixOf begins

end Kept

section

variable {other : Int64} {key : Key} {value : Option Bytes}

@[simp] theorem hasInode_put (differ : Key.inode id ≠ key) :
    (contents.put key value).HasInode id node ↔ contents.HasInode id node := by
  rw [HasInode, HasInode, put_other differ]

@[simp] theorem hasLink_put (differ : Key.child parent name ≠ key) :
    (contents.put key value).HasLink parent name id ↔ contents.HasLink parent name id := by
  rw [HasLink, HasLink, put_other differ]

theorem HasInode.of_put_none (inode : (contents.put key none).HasInode id node) :
    contents.HasInode id node := ⟨Contents.of_put_none inode.1, inode.2⟩

theorem HasLink.of_put_none (link : (contents.put key none).HasLink parent name id) :
    contents.HasLink parent name id := Contents.of_put_none link

@[simp] theorem not_hasInode_put_none : ¬ (contents.put (.inode id) none).HasInode id node := by
  rintro ⟨held, _⟩
  rw [put_self] at held
  cases held

@[simp] theorem not_hasLink_put_none : ¬ (contents.put (.child parent name) none).HasLink parent name id := by
  intro held
  rw [HasLink, put_self] at held
  cases held

theorem hasInode_put_self (placed : node.Placed id) :
    (contents.put (.inode id) (some (Record.encode node))).HasInode id node :=
  ⟨put_self _ _, placed⟩

theorem hasLink_put_self :
    (contents.put (.child parent name) (some (Record.encode (ChildLink.mk id)))).HasLink parent name id :=
  put_self _ _

namespace Kept

theorem put (kept : contents.Kept)
    (record : ∀ bytes, value = some bytes →
      (∃ (id : Int64) (node : INode), key = .inode id ∧ bytes = Record.encode node ∧ node.Placed id) ∨
      ∃ parent name id, key = .child parent name ∧ bytes = Record.encode (ChildLink.mk id)) :
    (contents.put key value).Kept := by
  intro place bytes held
  rw [Contents.put] at held
  split at held
  · rename_i same
    subst same
    rcases record bytes held with ⟨id, node, rfl, same, placed⟩ | ⟨parent, name, id, rfl, same⟩
    · exact .inl ⟨id, node, rfl, same, placed⟩
    · exact .inr ⟨parent, name, id, rfl, same⟩
  · exact kept place bytes held

theorem put_none (kept : contents.Kept) (key : Key) : (contents.put key none).Kept :=
  kept.put fun _ absent => by cases absent

theorem put_inode (kept : contents.Kept) (placed : node.Placed id) :
    (contents.put (.inode id) (some (Record.encode node))).Kept :=
  kept.put fun _ same => .inl ⟨id, node, rfl, (Option.some.inj same).symm, placed⟩

theorem put_link (kept : contents.Kept) (parent : Int64) (name : String) (id : Int64) :
    (contents.put (.child parent name) (some (Record.encode (ChildLink.mk id)))).Kept :=
  kept.put fun _ same => .inr ⟨parent, name, id, rfl, (Option.some.inj same).symm⟩

end Kept

end

end Contents

end FsMeta

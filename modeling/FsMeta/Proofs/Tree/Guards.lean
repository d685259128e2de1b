import FsMeta.Proofs.Record.Reading
import FsMeta.Proofs.Remaining
import FsMeta.Proofs.Yielding
import FsMeta.Tree.Create
import FsMeta.Tree.Move

set_option autoImplicit false

namespace FsMeta

namespace Contents

variable {contents : Contents} {id parent : Int64} {name : String} {node : INode} {link : ChildLink}

structure Encoded (contents : Contents) : Prop where
  inodes : ∀ id bytes, contents (Key.inode id).bytes = some bytes →
    ∃ node : INode, node.Sized ∧ bytes = Record.encode node
  links : ∀ parent name bytes, contents (Key.child parent name).bytes = some bytes →
    ∃ link : ChildLink, bytes = Record.encode link

namespace Encoded

variable (encoded : contents.Encoded)
include encoded

theorem readable_inode (id : Int64) : contents.Readable INode (.inode id) := by
  refine readable_of_decodes fun bytes held => ?_
  obtain ⟨node, sized, rfl⟩ := encoded.inodes id bytes held
  exact ⟨node, Record.decode_encode_inode sized⟩

theorem readable_link (parent : Int64) (name : String) : contents.Readable ChildLink (.child parent name) := by
  refine readable_of_decodes fun bytes held => ?_
  obtain ⟨link, rfl⟩ := encoded.links parent name bytes held
  exact ⟨link, Record.decode_encode_link link⟩

theorem put_back (held : contents.Holds (.inode id) node) :
    contents.put (.inode id) (some (Record.encode node)) = contents := by
  obtain ⟨bytes, held, decoded⟩ := held
  obtain ⟨stored, sized, rfl⟩ := encoded.inodes id bytes held
  rw [Record.decode_encode_inode sized] at decoded
  cases decoded
  exact put_same held

theorem put_back_link (held : contents.Holds (.child parent name) link) :
    contents.put (.child parent name) (some (Record.encode link)) = contents := by
  obtain ⟨bytes, held, decoded⟩ := held
  obtain ⟨stored, rfl⟩ := encoded.links parent name bytes held
  rw [Record.decode_encode_link] at decoded
  cases decoded
  exact put_same held

end Encoded

theorem Without.encoded {later : Contents} {goes : Bytes → Prop} (without : contents.Without later goes)
    (encoded : contents.Encoded) : later.Encoded where
  inodes id bytes held := encoded.inodes id bytes (without.of_some held).1
  links parent name bytes held := encoded.links parent name bytes (without.of_some held).1

theorem Without.readable {later : Contents} {goes : Bytes → Prop} {α : Type} [Record α] {key : Key}
    (without : contents.Without later goes) (readable : contents.Readable α key) : later.Readable α key := by
  by_cases known : goes key.bytes
  · exact .inl (without.gone _ known)
  · rcases readable with absent | ⟨value, held⟩
    · exact .inl ((without.kept _ known).trans absent)
    · exact .inr ⟨value, without.holds_iff.2 ⟨held, known⟩⟩

def Free (contents : Contents) (parent : Int64) (name : String) (id : Int64) : Prop :=
  contents (Key.child parent name).bytes = none ∨ contents.Holds (.child parent name) (ChildLink.mk id)

end Contents

namespace Tree

open Scoped (Yields)

variable {base : Contents} {writes : Writes} {id parent : Int64} {name : String} {node : INode} {β : Type}
variable {post : Except Error β → Writes → Prop}

theorem demands_requireSameKind (existing node : INode) :
    Demands (requireSameKind existing node) (existing.kind = node.kind) := .ite _

theorem demands_requireLinked (link : ChildLink) (parent : Int64) (name : String) (id : Int64) :
    Demands (requireLinked link parent name id) (link.id = id) := .ite _

theorem demands_requireFree (parent : Int64) (name : String) (id : Int64) (found : Option ChildLink) :
    Demands (requireFree parent name id found) (∀ link, found = some link → link.id = id) := by
  cases found with
  | none => exact ⟨fun _ => rfl, fun taken => absurd (fun _ same => by cases same) taken⟩
  | some link => exact (Demands.ite _).of_iff (by simp)

theorem demands_requireWellFormed (node : INode) : Demands (requireWellFormed node)
    (0 < node.id ∧ 0 < node.parentId ∧ node.name.isEmpty = false ∧ node.id ≠ node.parentId) := by
  refine .bind (demands_requirePositive _ _) (.bind (demands_requirePositive _ _) ?_)
  dsimp only
  split
  · rename_i empty
    exact ⟨fun ⟨named, _⟩ => by simp [empty] at named, fun _ => ⟨_, rfl, rfl⟩⟩
  · rename_i named
    split
    · rename_i same
      exact ⟨fun ⟨_, apart⟩ => absurd same apart, fun _ => ⟨_, rfl, rfl⟩⟩
    · rename_i apart
      exact ⟨fun _ => rfl, fun fails => absurd ⟨by simpa using named, apart⟩ fails⟩

theorem yields_inode {next : INode → Scoped β} (readable : (base.write writes).Readable INode (.inode id))
    (refused : ∀ error, ¬ 0 < id → error.kind = .invalidArgument → post (.error error) writes)
    (absent : 0 < id → (base.write writes) (Key.inode id).bytes = none →
      ∀ error, error.kind = .notFound → post (.error error) writes)
    (present : 0 < id → ∀ node, (base.write writes).Holds (.inode id) node → Yields base (next node) writes post) :
    Yields base (inode id >>= next) writes post := by
  rw [inode, bind_assoc]
  refine .demand (demands_requirePositive _ id) refused fun positive => ?_
  exact yields_find readable (fun missing => absent positive missing _ rfl) (present positive)

theorem yields_requireFree {next : Unit → Scoped β}
    (readable : (base.write writes).Readable ChildLink (.child parent name))
    (refused : ∀ error, ¬ (base.write writes).Free parent name id → error.kind = .invalidArgument →
      post (.error error) writes)
    (met : (base.write writes).Free parent name id → Yields base (next ()) writes post) :
    Yields base (link? parent name >>= fun found => liftM (requireFree parent name id found) >>= next) writes
      post := by
  refine .bind (yields_find? readable (fun absent => ?_) fun link held => ?_)
  · have free : (base.write writes).Free parent name id := .inl absent
    exact .demand (demands_requireFree parent name id none) (fun _ taken => absurd nofun taken) fun _ => met free
  · have same : (base.write writes).Free parent name id ↔ link.id = id := by
      constructor
      · rintro (absent | own)
        · exact absurd held (Contents.not_holds_of_absent absent link)
        · rw [held.unique own]
      · rintro rfl
        exact .inr held
    have demands : Demands (requireFree parent name id (some link)) (link.id = id) :=
      (demands_requireFree parent name id (some link)).of_iff (by simp)
    exact .demand (demands.of_iff same.symm) refused met

theorem yields_unlink (positive : 0 < node.parentId) (named : node.name.isEmpty = false)
    (readable : (base.write writes).Readable ChildLink (.child node.parentId node.name)) :
    Yields base (unlink node) writes fun result later => result = .ok () ∧
      (base.write writes).Without (base.write later) fun key => key = (Key.child node.parentId node.name).bytes ∧
        (base.write writes).Holds (.child node.parentId node.name) (ChildLink.mk node.id) := by
  have fit : ¬ (decide (node.parentId ≤ 0) || node.name.isEmpty) = true := by
    rw [named, Bool.or_false, decide_eq_true_eq]
    exact Int64.not_le.2 positive
  have stays (apart : ¬ (base.write writes).Holds (.child node.parentId node.name) (ChildLink.mk node.id)) :
      (base.write writes).Without (base.write writes) fun key =>
        key = (Key.child node.parentId node.name).bytes ∧
          (base.write writes).Holds (.child node.parentId node.name) (ChildLink.mk node.id) :=
    (Contents.Without.refl _).congr fun key _ => iff_of_false not_false fun both => apart both.2
  rw [unlink, if_neg fit]
  refine .bind (yields_find? readable (fun absent => ?_) fun link held => ?_)
  · exact .pure ⟨rfl, stays (Contents.not_holds_of_absent absent _)⟩
  · dsimp only
    split
    · rename_i own
      obtain rfl : link = ChildLink.mk node.id := congrArg ChildLink.mk own
      refine .delete ⟨rfl, (Contents.Without.delete base writes _).congr fun key _ => ?_⟩
      exact ⟨fun same => ⟨same, held⟩, And.left⟩
    · rename_i other
      refine .pure ⟨rfl, stays fun own => ?_⟩
      rw [held.unique own] at other
      exact other rfl

end Tree

end FsMeta

import FsMeta.Proofs.Chain.Within
import FsMeta.Service.Blocks
import FsMeta.Service.Directories

set_option autoImplicit false

namespace FsMeta

open Scoped (Only)

variable {allowed : Bytes → Option Bytes → Prop}

namespace Tree

theorem only_inode (id : Int64) : Only allowed (inode id) :=
  .bind (.lift _) fun _ => .find _ _

theorem only_inode? (id : Int64) : Only allowed (inode? id) := .find? _ _

theorem only_link? (parent : Int64) (name : String) : Only allowed (link? parent name) := .find? _ _

theorem only_unlink (node : INode) : Only Unlinking (unlink node) := by
  rw [unlink]
  split
  · exact .pure _
  · refine .bind (only_link? _ _) fun link => ?_
    split
    · split
      · exact .delete ⟨⟨_, _, rfl⟩, rfl⟩
      · exact .pure _
    · exact .pure _

theorem only_prepareReplacement (existing node : INode) : Only Planting (prepareReplacement existing node) := by
  refine .bind (.lift _) fun _ => ?_
  split
  · exact (only_unlink existing).mono fun _ _ => Unlinking.planting
  · exact .pure _

theorem only_touch {id : Int64} (positive : 0 < id) : Only Planting (touch id) := by
  refine .bind (only_inode? id) fun node => ?_
  cases node with
  | some node => exact .put (.inode positive _)
  | none => exact .pure _

theorem pos_of_wellFormed {node : INode} (wellFormed : requireWellFormed node = .ok ()) :
    0 < node.id ∧ 0 < node.parentId := by
  rw [requireWellFormed] at wellFormed
  obtain ⟨_, own, wellFormed⟩ := exists_ok_of_bind wellFormed
  obtain ⟨_, parent, _⟩ := exists_ok_of_bind wellFormed
  exact ⟨pos_of_requirePositive own, pos_of_requirePositive parent⟩

theorem only_create_planting (node : INode) : Only Planting (create node) := by
  refine .require fun _ wellFormed => .bind (only_inode? _) fun existing => ?_
  obtain ⟨own, parent⟩ := pos_of_wellFormed wellFormed
  have linked : Only Planting (do
      requireFree node.parentId node.name node.id (← link? node.parentId node.name)
      touch node.parentId
      putInode node.id node
      putLink node.parentId node.name node.id) :=
    .bind (only_link? _ _) fun _ => .bind (.lift _) fun _ => .bind (only_touch parent) fun _ =>
      .bind (.put (.inode own _)) fun _ => .put (.child _ _ _)
  cases existing with
  | some existing => exact .bind (only_prepareReplacement _ _) fun _ => linked
  | none => exact linked

theorem only_create (node : INode) : Only OnTree (create node) :=
  (only_create_planting node).mono fun _ _ => And.left

theorem only_linked (parent : Int64) (name : String) (id : Int64) : Only allowed (linked parent name id) := by
  refine .bind (only_inode? id) fun node => ?_
  cases node with
  | some node => exact .pure _
  | none => exact .throw _

theorem only_child (parent : Int64) (name : String) (details : Bool) :
    Only allowed (child parent name details) := by
  refine .bind (.lift _) fun _ => .bind (.lift _) fun _ => .bind (.find _ _) fun link => ?_
  cases details with
  | true => exact .map (only_linked _ _ _)
  | false => exact .pure _

theorem only_listed (parent : Int64) (simple : Bool) (pair : Bytes × Bytes) :
    Only allowed (listed parent simple pair) := by
  refine .bind (.lift _) fun name => .bind (.lift _) fun link => ?_
  cases simple with
  | true => exact .pure _
  | false => exact .bind (only_linked _ _ _) fun _ => .pure _

theorem only_children (parent : Int64) (simple : Bool) : Only allowed (children parent simple) :=
  .bind (.lift _) fun _ => .bind (.scan _) fun pairs => .mapM pairs (only_listed parent simple)

theorem only_requireNotAbove (id : Int64) (bound : Nat) (seen : List Int64) (current : INode) :
    Only allowed (requireNotAbove id bound seen current) := by
  induction bound generalizing seen current with
  | zero => exact .pure _
  | succ bound ih =>
    rw [requireNotAbove]
    split
    · exact .throw _
    · split
      · exact .pure _
      · refine .bind (only_inode? _) fun parent => ?_
        cases parent with
        | none => exact .pure _
        | some parent => exact ih _ parent

theorem only_move (node target : INode) {id destination : Int64} (own : 0 < id) (parent : 0 < destination)
    (source : Int64) : Only Planting (move node target id source destination) :=
  .bind .visibleCount fun _ => .bind (only_requireNotAbove _ _ _ _) fun _ =>
    .bind (only_link? _ _) fun _ => .bind (.lift _) fun _ => .bind (.put (.inode parent _)) fun _ =>
      .bind (.put (.inode own _)) fun _ => .bind (.delete (.child _ _ _)) fun _ => .put (.child _ _ _)

theorem only_reparent_planting (id source destination : Int64) : Only Planting (reparent id source destination) := by
  refine .require fun _ own => .bind (.lift _) fun _ => .require fun _ parent => ?_
  refine .bind (only_inode _) fun node => .bind (.find _ _) fun link => .bind (.lift _) fun _ => ?_
  refine .bind (only_inode _) fun target => ?_
  dsimp only
  split
  · exact .fail _ _
  · split
    · exact only_move _ _ (pos_of_requirePositive own) (pos_of_requirePositive parent) _
    · exact .pure _

theorem only_reparent (id source destination : Int64) : Only OnTree (reparent id source destination) :=
  (only_reparent_planting id source destination).mono fun _ _ => And.left

theorem only_deleteChild (parent : Int64) (name : String) : Only Deleting (deleteChild parent name) :=
  .bind (.lift _) fun _ => .bind (.lift _) fun _ => .delete rfl

theorem only_deleteFile (id : Int64) : Only Deleting (deleteFile id) := by
  refine .bind (only_inode id) fun node => ?_
  dsimp only
  split
  · exact .fail _ _
  · exact .bind (Chain.only_deleteAll id).deleting fun _ => .bind (.delete rfl) fun _ =>
      (only_unlink node).mono fun _ _ => And.right

theorem only_removeLinked (removal : Removal) (id : Int64) : Only Deleting (removeLinked removal id) := by
  refine .bind (only_inode? id) fun child => ?_
  cases child with
  | none => exact .pure _
  | some child =>
    dsimp only
    cases child.kind with
    | file => exact .bind (Chain.only_deleteAll _).deleting fun _ => .bind (.delete rfl) fun _ => .pure _
    | directory =>
      dsimp only
      split
      · exact .pure _
      · exact .bind (.delete rfl) fun _ => .pure _

theorem only_removeChild (removal : Removal) (pair : Bytes × Bytes) :
    Only Deleting (removeChild removal pair) :=
  .bind (.lift _) fun _ => .bind (only_removeLinked _ _) fun _ => .bind (.delete rfl) fun _ => .pure _

theorem only_removeBelow (bound : Nat) (removal : Removal) : Only Deleting (removeBelow bound removal) := by
  induction bound generalizing removal with
  | zero => exact .pure _
  | succ bound ih =>
    rw [removeBelow]
    split
    · exact .pure _
    · split
      · exact ih _
      · refine .bind (.scan _) fun pairs => .bind ?_ ih
        exact .foldlM pairs only_removeChild _

theorem only_deleteDirectory (id : Int64) : Only Deleting (deleteDirectory id) := by
  refine .bind (only_inode id) fun root => ?_
  dsimp only
  split
  · exact .fail _ _
  · refine .bind .visibleCount fun _ => .bind (only_removeBelow _ _) fun _ => ?_
    exact .bind (.delete rfl) fun _ => .bind ((only_unlink root).mono fun _ _ => And.right) fun _ => .pure _

end Tree

namespace Service

theorem only_loadBlock (id : Int64) : Only allowed (loadBlock id) :=
  .bind (.find _ _) fun _ => .bind (.find? _ _) fun _ => .pure _

section

variable {id : Int64} (known : ∀ value, allowed (Key.blockStorage id).bytes value)
include known

theorem only_putChanged (replicas : BlockStorage × Bool) : Only allowed (putChanged id replicas) := by
  obtain ⟨replicas, changed⟩ := replicas
  cases changed with
  | true => exact .put (known _)
  | false => exact .pure _

theorem only_addReplica {location : StorageLocation} : Only allowed (addReplica id location) :=
  .bind (.find? _ _) fun _ => only_putChanged known _

theorem only_removeReplica {location : StorageLocation} : Only allowed (removeReplica id location) :=
  .bind (.find _ _) fun _ => only_putChanged known _

end

theorem only_loadFile (id : Int64) (simple : Bool) : Only allowed (loadFile id simple) := by
  refine .bind (Tree.only_inode id) fun inode => .bind (.lift _) fun _ => ?_
  cases simple with
  | true => exact .bind (.pure _) fun _ => .pure _
  | false => exact .bind (Chain.only_blocks id) fun _ => .pure _

theorem only_replaceFile (id : Int64) (file : INodeFile) : Only Anything (replaceFile id file) :=
  .bind (Tree.only_inode id) fun _ => .bind (Tree.only_create _).anything fun _ =>
    (Chain.only_replace id file.blocks).anything

theorem only_replaceFileBlock (file : Int64) (block : Block) : Only OffTree (replaceFileBlock file block) :=
  .bind (Chain.only_upsert _ _ _ _) fun _ => Chain.only_block _ _

theorem only_shortenFile (id size : Int64) : Only OffTree (shortenFile id size) :=
  .bind (Tree.only_inode id) fun _ => .bind (.lift _) fun _ => Chain.only_truncate id size

theorem only_replaceDirectory (id : Int64) (node : INode) : Only OnTree (replaceDirectory id node) :=
  .bind (Tree.only_inode id) fun _ => Tree.only_create _

end Service

end FsMeta

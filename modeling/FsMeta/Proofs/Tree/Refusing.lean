import FsMeta.Proofs.Chain.Refusing
import FsMeta.Proofs.Tree.Deletion
import FsMeta.Proofs.Tree.Reparenting

set_option autoImplicit false

namespace FsMeta

theorem Contents.Without.owned {earlier later : Contents} {goes : Bytes → Prop} (without : earlier.Without later goes)
    (owned : earlier.Owned) : later.Owned :=
  fun id node held => owned id node (without.holds_iff.1 held).1

theorem Contents.Legible.owned {contents : Contents} (legible : contents.Legible) : contents.Owned :=
  fun id node held => ⟨(legible.placed id node held).1.own, (legible.placed id node held).2⟩

structure Contents.Displaces (contents : Contents) (node : INode) : Prop where
  wellFormed : Tree.requireWellFormed node = .ok ()
  kind : ∀ existing : INode, contents.Holds (.inode node.id) existing → existing.kind = node.kind
  stale : ∃ key, contents.Stale node key
  taken : ¬ contents.Free node.parentId node.name node.id

namespace Tree

open Scoped (Firm Reads Spares Yields)

variable {base : Contents} {writes : Writes} {id parent : Int64} {name : String} {node existing : INode}

theorem reads_requireNotAbove (id : Int64) (bound : Nat) (seen : List Int64) (current : INode) :
    Reads (requireNotAbove id bound seen current) := by
  induction bound generalizing seen current with
  | zero => exact .pure _
  | succ bound ih =>
    rw [requireNotAbove]
    split
    · exact .throw _
    split
    · exact .pure _
    · refine .bind (.find? INode _) fun found => ?_
      cases found with
      | none => exact .pure _
      | some above => exact ih _ _

theorem firm_unlink (node : INode) {post : Unit → Writes → Prop} (stays : post () writes)
    (cuts : (base.write writes).Holds (.child node.parentId node.name) (ChildLink.mk node.id) →
      post () (writes.insert (Key.child node.parentId node.name).bytes none)) :
    Firm base (unlink node) writes post := by
  rw [unlink]
  split
  · exact .pure stays
  · refine .bind (.find? (fun _ => .pure stays) fun link held => ?_)
    dsimp only
    split
    · rename_i own
      exact .delete (cuts (own ▸ held))
    · exact .pure stays

theorem firm_write (node : INode) : Firm base (do
    touch node.parentId
    putInode node.id node
    putLink node.parentId node.name node.id) writes fun _ _ => True :=
  .bind (.bind (.find? (fun _ => .pure (.bind (.put (.put trivial)))) fun _ _ => .put (.bind (.put (.put trivial)))))

theorem firm_link (free : (base.write writes).Free node.parentId node.name node.id) : Firm base (do
    requireFree node.parentId node.name node.id (← link? node.parentId node.name)
    touch node.parentId
    putInode node.id node
    putLink node.parentId node.name node.id) writes fun _ _ => True := by
  have met {found : Option ChildLink} (own : ∀ link, found = some link → link.id = node.id) :
      requireFree node.parentId node.name node.id found = .ok () :=
    (demands_requireFree _ _ _ found).met own
  refine .bind (.find? (fun absent => ?_) fun link held => ?_)
  · rw [met (by simp)]
    exact .bind (.pure (firm_write node))
  · have own : link.id = node.id := by
      rcases free with absent | own
      · exact absurd held (Contents.not_holds_of_absent absent link)
      · rw [held.unique own]
    rw [met (by simpa using own)]
    exact .bind (.pure (firm_write node))

theorem spares_link (node : INode) : Spares base (do
    requireFree node.parentId node.name node.id (← link? node.parentId node.name)
    touch node.parentId
    putInode node.id node
    putLink node.parentId node.name node.id) writes :=
  .behind (.find? ChildLink _) fun _ => .require fun _ _ => .of_firm (firm_write node)

theorem free_of_cut (free : (base.write writes).Free parent name id) (key : Key) :
    (base.write (writes.insert key.bytes none)).Free parent name id := by
  rw [Contents.write_insert]
  by_cases same : Key.child parent name = key
  · subst same
    exact .inl (Contents.put_self _ _)
  · rw [Contents.Free, Contents.put_other same, Contents.holds_put same]
    exact free

theorem spares_create (owned : (base.write writes).Owned) (sound : ¬ (base.write writes).Displaces node) :
    Spares base (create node) writes := by
  refine .require fun _ wellFormed => .find? (fun _ => spares_link node) fun existing held => ?_
  dsimp only
  rw [prepareReplacement, bind_assoc]
  refine .require fun _ accepted => ?_
  have same : existing.kind = node.kind := by
    by_contra differ
    obtain ⟨error, refused, _⟩ := (demands_requireSameKind existing node).refused differ
    rw [refused] at accepted
    cases accepted
  split
  · rename_i moved
    have moved : existing.parentId ≠ node.parentId ∨ existing.name ≠ node.name := by simpa using moved
    by_cases own : (base.write writes).Holds (.child existing.parentId existing.name) (ChildLink.mk existing.id)
    · have free : (base.write writes).Free node.parentId node.name node.id := by
        by_contra taken
        refine sound ⟨wellFormed, fun other again => by rwa [again.unique held],
          ⟨_, existing, held, rfl, moved, ?_⟩, taken⟩
        rwa [← (owned node.id existing held).1]
      exact .of_firm (.bind (firm_unlink existing (firm_link free) fun _ => firm_link (free_of_cut free _)))
    · exact .bind_firm (firm_unlink existing ⟨rfl, spares_link node⟩ fun cuts => absurd cuts own)
  · exact spares_link node

theorem spares_reparent (id source destination : Int64) : Spares base (reparent id source destination) writes := by
  refine .require fun _ _ => .require fun _ _ => .require fun _ _ => ?_
  simp only [inode, bind_assoc]
  refine .require fun _ _ => .find fun node _ => .find fun link _ => .require fun _ _ => .require fun _ _ => ?_
  refine .find fun target _ => ?_
  split
  · exact .fail _ _
  split
  · refine .behind .visibleCount fun count => .behind (reads_requireNotAbove _ _ _ _) fun _ => ?_
    refine .behind (.find? ChildLink _) fun _ => .require fun _ _ => ?_
    exact .of_firm (.bind (.put (.bind (.put (.bind (.delete (.put trivial)))))))
  · exact .of_reads (.pure _)

theorem spares_deleteChild (parent : Int64) (name : String) : Spares base (deleteChild parent name) writes :=
  .require fun _ _ => .require fun _ _ => .of_firm (.delete trivial)

theorem spares_deleteFile (id : Int64) : Spares base (deleteFile id) writes := by
  rw [deleteFile, inode, bind_assoc]
  refine .require fun _ positive => .find fun node _ => ?_
  have positive := pos_of_requirePositive positive
  split
  · exact .fail _ _
  · refine .of_firm (.bind (Chain.firm_deleteAll positive fun _ _ => .bind (.delete ?_)))
    exact firm_unlink node trivial fun _ => trivial

theorem firm_removeLinked (owned : (base.write writes).Owned) (removal : Removal) (id : Int64) :
    Firm base (removeLinked removal id) writes fun _ later => (base.write later).Owned := by
  have deleted {between : Writes} (owned : (base.write between).Owned) (key : Bytes) :
      (base.write (between.insert key none)).Owned := (Contents.Without.delete base between key).owned owned
  refine .bind (.find? (fun _ => .pure owned) fun child held => ?_)
  dsimp only
  cases child.kind with
  | file =>
    have positive : 0 < child.id := by
      obtain ⟨own, positive⟩ := owned id child held
      exact own ▸ positive
    refine .bind (Chain.firm_deleteAll positive fun _ found => .bind (.delete (.pure (deleted ?_ _))))
    exact (Contents.without_apply base writes fun _ member => (Chain.mem_removals.1 member).1).owned owned
  | directory =>
    dsimp only
    split
    · exact .pure owned
    · exact .bind (.delete (.pure (deleted owned _)))

theorem firm_removeChildren (owned : (base.write writes).Owned) (removal : Removal) (pairs : List (Bytes × Bytes)) :
    Firm base (pairs.foldlM removeChild removal) writes fun _ later => (base.write later).Owned := by
  induction pairs generalizing writes removal with
  | nil => exact .pure owned
  | cons pair rest ih =>
    rw [List.foldlM_cons]
    refine .bind (.bind (.lift (fun _ => Record.not_refusal) fun link _ => ?_))
    refine .bind ((firm_removeLinked owned removal link.id).mono fun after between owned => ?_)
    exact .bind (.delete (.pure (ih ((Contents.Without.delete base between _).owned owned) after)))

theorem firm_removeBelow (owned : (base.write writes).Owned) (bound : Nat) (removal : Removal) :
    Firm base (removeBelow bound removal) writes fun _ _ => True := by
  induction bound generalizing writes removal with
  | zero => exact .pure trivial
  | succ bound ih =>
    rw [removeBelow]
    split
    · exact .pure trivial
    split
    · exact ih owned _
    · exact .bind (.scan fun pairs =>
        .bind ((firm_removeChildren owned _ pairs).mono fun after _ owned => ih owned after))

theorem spares_deleteDirectory (owned : (base.write writes).Owned) (id : Int64) :
    Spares base (deleteDirectory id) writes := by
  rw [deleteDirectory, inode, bind_assoc]
  refine .require fun _ _ => .find fun root _ => ?_
  split
  · exact .fail _ _
  · refine .behind .visibleCount fun count => .of_firm (.bind ((firm_removeBelow owned _ _).mono fun _ _ _ => ?_))
    exact .bind (.delete (.bind (firm_unlink root (.pure trivial) fun _ => .pure trivial)))

theorem yields_create_displaced (legible : (base.write writes).Legible)
    (displaces : (base.write writes).Displaces node) : Yields base (create node) writes fun result later =>
      (∃ error, result = .error error ∧ error.kind = .invalidArgument) ∧
        (base.write writes).Without (base.write later) ((base.write writes).Stale node) := by
  obtain ⟨wellFormed, kind, ⟨key, existing, held, rfl, moved, own⟩, taken⟩ := displaces
  rw [create, wellFormed]
  refine .bind (.pure (.bind (yields_find? (legible.inodes node.id) (fun absent => ?_) fun other again => ?_)))
  · exact absurd held (Contents.not_holds_of_absent absent existing)
  obtain rfl := again.unique held
  dsimp only
  rw [prepareReplacement, bind_assoc, (demands_requireSameKind other node).met (kind other held)]
  refine .bind (.pure ?_)
  rw [if_pos (by simpa using moved)]
  obtain ⟨placed, _⟩ := legible.placed node.id other held
  refine .bind ((yields_unlink placed.parent placed.name (legible.readable_link _ _)).mono ?_)
  rintro _ later ⟨rfl, unlinked⟩
  have without : (base.write writes).Without (base.write later) ((base.write writes).Stale node) := by
    refine unlinked.congr fun key _ => ?_
    rw [Contents.stale_iff held, placed.own]
    exact ⟨fun ⟨same, own⟩ => ⟨same, moved, own⟩, fun ⟨same, _, own⟩ => ⟨same, own⟩⟩
  refine yields_requireFree (without.readable (legible.readable_link _ _)) (fun error _ known => ?_) fun free => ?_
  · exact ⟨⟨error, rfl, known⟩, without⟩
  · exact absurd (without.free_iff.1 free) taken

end Tree

end FsMeta

import FsMeta.Proofs.Record.Reading
import FsMeta.Proofs.Service.Confined
import FsMeta.Proofs.Tree.Ancestry
import FsMeta.Proofs.Tree.Operations
import Mathlib.Data.List.Nodup

set_option autoImplicit false

namespace FsMeta

namespace Contents

variable {contents : Contents}

theorem holds_put_back {id place : Int64} {node found : INode} (held : contents.Holds (.inode id) node) :
    (contents.put (.inode id) (some (Record.encode node))).Holds (.inode place) found ↔
      contents.Holds (.inode place) found := by
  by_cases same : place = id
  · subst same
    obtain ⟨bytes, stored, decoded⟩ := held
    have now : (contents.put (.inode place) (some (Record.encode node))).Holds (.inode place) node :=
      holds_put_self (Record.decode_encode_inode (Record.sized_of_decode decoded))
    constructor
    · intro later
      rw [later.unique now]
      exact ⟨bytes, stored, decoded⟩
    · intro earlier
      rwa [earlier.unique ⟨bytes, stored, decoded⟩]
  · exact holds_put (by simpa using same) _

structure Alike (earlier later : Contents) : Prop where
  inodes : ∀ (id : Int64) (node : INode), later.Holds (.inode id) node ↔ earlier.Holds (.inode id) node
  links : ∀ parent name, later (Key.child parent name).bytes = earlier (Key.child parent name).bytes

structure Created (earlier later : Contents) (node : INode) : Prop where
  positive : 0 < node.id
  apart : node.id ≠ node.parentId
  own : later.Holds (.inode node.id) node
  others : ∀ other ≠ node.id, ∀ found : INode,
    later.Holds (.inode other) found ↔ earlier.Holds (.inode other) found
  kind : ∀ existing : INode, earlier.Holds (.inode node.id) existing → existing.kind = node.kind
  link : (later (Key.child node.parentId node.name).bytes).isSome
  links : ∀ parent name, Key.child parent name ≠ Key.child node.parentId node.name →
    later (Key.child parent name).bytes = earlier (Key.child parent name).bytes ∨
      later (Key.child parent name).bytes = none ∧
        ∃ existing : INode, earlier.Holds (.inode node.id) existing

structure Relocated (earlier later : Contents) (id destination : Int64) : Prop where
  found : ∃ node : INode, earlier.Holds (.inode id) node ∧
    later.Holds (.inode id) { node with parentId := destination }
  target : ∃ target : INode, earlier.Holds (.inode destination) target ∧ target.isDirectory = true
  others : ∀ other ≠ id, ∀ found : INode,
    later.Holds (.inode other) found ↔ earlier.Holds (.inode other) found
  links : ∀ parent name, parent ≠ destination →
    later (Key.child parent name).bytes = earlier (Key.child parent name).bytes ∨
      later (Key.child parent name).bytes = none
  apart : earlier.Owned → earlier.Acyclic → ¬ earlier.Reaches destination id

def Thinned (earlier later : Contents) : Prop :=
  ∀ key : Key, key.OnTree → later key.bytes = earlier key.bytes ∨ later key.bytes = none

section

variable {earlier later : Contents} {id destination : Int64} {node : INode}

theorem Thinned.refl (contents : Contents) : Thinned contents contents := fun _ _ => .inl rfl

theorem Thinned.trans {between : Contents} (one : Thinned earlier between) (two : Thinned between later) :
    Thinned earlier later := by
  intro key tree
  rcases two key tree with same | gone
  · rw [same]
    exact one key tree
  · exact .inr gone

theorem Thinned.inode (thinned : Thinned earlier later) (held : later.Holds (.inode id) node) :
    earlier.Holds (.inode id) node := by
  obtain ⟨bytes, stored, decoded⟩ := held
  rcases thinned (.inode id) trivial with same | gone
  · exact ⟨bytes, same ▸ stored, decoded⟩
  · rw [gone] at stored
    cases stored

theorem Thinned.owned (thinned : Thinned earlier later) (owned : earlier.Owned) : later.Owned :=
  fun id node held => owned id node (thinned.inode held)

theorem Thinned.acyclic (thinned : Thinned earlier later) (acyclic : earlier.Acyclic) : later.Acyclic :=
  acyclic.mono fun _ _ ⟨node, held, named⟩ => ⟨node, thinned.inode held, named⟩

theorem thinned_of_deleting (contents : Contents) {writes later : Writes}
    (extended : writes.Extended Deleting later) : Thinned (contents.write writes) (contents.write later) :=
  fun key _ => extended.write contents key.bytes

theorem eq_of_offTree (contents : Contents) {writes later : Writes} (extended : writes.Extended OffTree later)
    {key : Key} (tree : key.OnTree) : contents.write later key.bytes = contents.write writes key.bytes := by
  refine extended.write_of_never contents fun _ ⟨other, same, off⟩ => ?_
  rw [Key.bytes_injective same] at off
  exact off tree

theorem moved_of_holds (own : later.Holds (.inode id) node)
    (others : ∀ other ≠ id, ∀ found : INode,
      later.Holds (.inode other) found ↔ earlier.Holds (.inode other) found) :
    Moved earlier later id node.parentId := by
  intro other parent
  split
  · rename_i same
    subst same
    constructor
    · rintro ⟨found, held, rfl⟩
      rw [held.unique own]
    · rintro rfl
      exact ⟨node, own, rfl⟩
  · rename_i differ
    simp only [Parent, others other differ]

theorem Created.moved (created : Created earlier later node) :
    Moved earlier later node.id node.parentId := moved_of_holds created.own created.others

theorem Relocated.moved (relocated : Relocated earlier later id destination) :
    Moved earlier later id destination := by
  obtain ⟨node, _, own⟩ := relocated.found
  exact moved_of_holds own relocated.others

theorem owned_of_holds (owned : earlier.Owned) (own : later.Holds (.inode id) node)
    (known : node.id = id ∧ 0 < id)
    (others : ∀ other ≠ id, ∀ found : INode,
      later.Holds (.inode other) found ↔ earlier.Holds (.inode other) found) : later.Owned := by
  intro other found held
  by_cases same : other = id
  · subst same
    rwa [held.unique own]
  · exact owned other found ((others other same found).1 held)

theorem Created.owned (created : Created earlier later node) (owned : earlier.Owned) : later.Owned :=
  owned_of_holds owned created.own ⟨rfl, created.positive⟩ created.others

theorem Relocated.owned (relocated : Relocated earlier later id destination) (owned : earlier.Owned) :
    later.Owned := by
  obtain ⟨node, before, own⟩ := relocated.found
  exact owned_of_holds owned own (owned id node before) relocated.others

theorem Relocated.acyclic (relocated : Relocated earlier later id destination) (owned : earlier.Owned)
    (acyclic : earlier.Acyclic) : later.Acyclic :=
  (relocated.moved.acyclic_iff acyclic).2 (relocated.apart owned acyclic)

end

end Contents

namespace Tree

open Scoped (Ensures)

variable {base : Contents} {writes : Writes} {id source destination : Int64} {node target : INode}

theorem ensures_unlink {post : Unit → Writes → Prop} (stays : post () writes)
    (cuts : post () (writes.insert (Key.child node.parentId node.name).bytes none)) :
    Ensures base (unlink node) writes post := by
  rw [unlink]
  split
  · exact .pure stays
  · refine .bind (ensures_find? (fun _ => .pure stays) fun link _ => ?_)
    dsimp only
    split
    · exact .delete cuts
    · exact .pure stays

theorem ensures_touch_back {post : Unit → Writes → Prop}
    (holds : ∀ later, (base.write writes).Alike (base.write later) →
      (∀ stored : INode, (base.write writes).Holds (.inode id) stored → later.Touch (.inode id)) → post () later) :
    Ensures base (touch id) writes post := by
  refine .bind (ensures_find? (fun absent => .pure (holds _ ⟨fun _ _ => .rfl, fun _ _ => rfl⟩ ?_)) fun node held => ?_)
  · rintro _ ⟨bytes, stored, _⟩
    rw [absent] at stored
    cases stored
  refine .put (holds _ ⟨fun other found => ?_, fun parent name => ?_⟩ fun _ _ => Writes.touch_insert_self _ _ _)
  · rw [Contents.write_insert]
    exact Contents.holds_put_back held
  · rw [Contents.write_insert, Contents.put_other (by simp)]

theorem of_requireWellFormed (wellFormed : requireWellFormed node = .ok ()) :
    0 < node.id ∧ node.id ≠ node.parentId := by
  obtain ⟨_, first, rest⟩ := exists_ok_of_bind wellFormed
  obtain ⟨_, second, rest⟩ := exists_ok_of_bind rest
  dsimp only at rest
  refine ⟨pos_of_requirePositive first, fun same => ?_⟩
  split at rest
  · cases rest
  · cases rest

/-- What may have been cut before an inode is written: a link of the one whose place it takes. -/
structure Prepared (earlier between : Contents) (node : INode) : Prop where
  inodes : ∀ id, between (Key.inode id).bytes = earlier (Key.inode id).bytes
  links : ∀ parent name, between (Key.child parent name).bytes = earlier (Key.child parent name).bytes ∨
    between (Key.child parent name).bytes = none ∧
      ∃ existing : INode, earlier.Holds (.inode node.id) existing
  kind : ∀ existing : INode, earlier.Holds (.inode node.id) existing → existing.kind = node.kind

theorem Prepared.created {earlier between touched : Contents} (prepared : Prepared earlier between node)
    (alike : between.Alike touched) (sized : node.Sized) (positive : 0 < node.id)
    (apart : node.id ≠ node.parentId) :
    earlier.Created ((touched.put (.inode node.id) (some (Record.encode node))).put
      (.child node.parentId node.name) (some (Record.encode (ChildLink.mk node.id)))) node where
  positive := positive
  apart := apart
  own := by
    rw [Contents.holds_put (by simp)]
    exact Contents.holds_put_self (Record.decode_encode_inode sized)
  others := by
    intro other differ found
    rw [Contents.holds_put (by simp), Contents.holds_put (by simpa using differ), alike.inodes, Contents.Holds,
      prepared.inodes]
    rfl
  kind := prepared.kind
  link := by
    rw [Contents.put_self]
    rfl
  links := by
    intro parent name differ
    rw [Contents.put_other differ, Contents.put_other (by simp), alike.links]
    exact prepared.links parent name

theorem Prepared.refl (contents : Contents)
    (kind : ∀ existing : INode, contents.Holds (.inode node.id) existing → existing.kind = node.kind) :
    Prepared contents contents node := ⟨fun _ => rfl, fun _ _ => .inl rfl, kind⟩

theorem Prepared.cut {earlier between : Contents} (prepared : Prepared earlier between node) {existing : INode}
    (held : earlier.Holds (.inode node.id) existing) (parent : Int64) (name : String) :
    Prepared earlier (between.put (.child parent name) none) node where
  inodes := by
    intro id
    rw [Contents.put_other (by simp), prepared.inodes]
  links := by
    intro place title
    by_cases same : Key.child place title = Key.child parent name
    · rw [same, Contents.put_self]
      exact .inr ⟨rfl, existing, held⟩
    · rw [Contents.put_other same]
      exact prepared.links place title
  kind := prepared.kind

theorem ensures_prepareReplacement_prepared {existing : INode}
    (held : (base.write writes).Holds (.inode node.id) existing) :
    Ensures base (prepareReplacement existing node) writes fun _ later =>
      Prepared (base.write writes) (base.write later) node := by
  refine .bind (.lift fun _ required => ?_)
  have kind : existing.kind = node.kind := by
    rw [requireSameKind] at required
    split at required
    · assumption
    · cases required
  have unchanged : Prepared (base.write writes) (base.write writes) node :=
    .refl _ fun other also => by rw [also.unique held, kind]
  split
  · refine ensures_unlink unchanged ?_
    rw [Contents.write_insert]
    exact unchanged.cut held _ _
  · exact .pure unchanged

theorem ensures_create_writes {post : Unit → Writes → Prop}
    (holds : ∀ between touched : Writes, 0 < node.id → node.id ≠ node.parentId →
      Prepared (base.write writes) (base.write between) node → (base.write between).Alike (base.write touched) →
      (∀ parent : INode, (base.write between).Holds (.inode node.parentId) parent →
        touched.Touch (.inode node.parentId)) →
      post () ((touched.insert (Key.inode node.id).bytes (some (Record.encode node))).insert
        (Key.child node.parentId node.name).bytes (some (Record.encode (ChildLink.mk node.id))))) :
    Ensures base (create node) writes post := by
  refine .bind (.lift fun _ wellFormed => ?_)
  obtain ⟨positive, apart⟩ := of_requireWellFormed wellFormed
  have link (between : Writes) (prepared : Prepared (base.write writes) (base.write between) node) :
      Ensures base (do
        requireFree node.parentId node.name node.id (← link? node.parentId node.name)
        touch node.parentId
        putInode node.id node
        putLink node.parentId node.name node.id) between post := by
    have looked (found : Option ChildLink) : Ensures base (do
        requireFree node.parentId node.name node.id found
        touch node.parentId
        putInode node.id node
        putLink node.parentId node.name node.id) between post :=
      .bind (.lift fun _ _ => .bind (ensures_touch_back fun touched alike touch =>
        .bind (.put (.put (holds between touched positive apart prepared alike touch)))))
    exact .bind (ensures_find? (fun _ => looked _) fun _ _ => looked _)
  refine .bind (ensures_find? (fun absent => ?_) fun existing held => ?_)
  · apply link writes
    apply Prepared.refl
    rintro existing ⟨bytes, held, _⟩
    rw [absent] at held
    cases held
  · apply Ensures.bind
    apply (ensures_prepareReplacement_prepared held).mono
    exact fun _ => link

theorem ensures_create_created (sized : node.Sized) :
    Ensures base (create node) writes fun _ later =>
      (base.write writes).Created (base.write later) node := by
  refine ensures_create_writes fun between touched positive apart prepared alike _ => ?_
  rw [Contents.write_insert, Contents.write_insert]
  exact prepared.created alike sized positive apart

theorem length_le_of_stored {contents : Contents} {count : Nat} (counts : contents.AtMost count)
    {ids : List Int64} (distinct : ids.Nodup) (stored : ∀ id ∈ ids, (contents (Key.inode id).bytes).isSome) :
    ids.length ≤ count := by
  have apart : (ids.map fun id => (Key.inode id).bytes).Nodup :=
    List.Nodup.map (fun one two same => by simpa using same) distinct
  have bound := counts _ apart fun key member => by
    obtain ⟨id, listed, rfl⟩ := List.mem_map.1 member
    exact stored id listed
  rwa [List.length_map] at bound

/-- On the way up from some inode, these ones have been passed before this place was reached. -/
structure Climb (contents : Contents) (seen : List Int64) (place : Int64) : Prop where
  distinct : seen.Nodup
  passed : ∀ other ∈ seen, (contents (Key.inode other).bytes).isSome ∧
    Relation.TransGen contents.Parent other place

namespace Climb

variable {contents : Contents} {seen : List Int64} {place : Int64}

theorem start (contents : Contents) (place : Int64) : Climb contents [] place := ⟨List.nodup_nil, by simp⟩

theorem step (climb : Climb contents seen place) (fresh : place ∉ seen)
    (held : contents.Holds (.inode place) node) : Climb contents (place :: seen) node.parentId := by
  have up : contents.Parent place node.parentId := ⟨node, held, rfl⟩
  refine ⟨List.nodup_cons.2 ⟨fresh, climb.distinct⟩, List.forall_mem_cons.2 ⟨⟨?_, .single up⟩, ?_⟩⟩
  · obtain ⟨bytes, stored, _⟩ := held
    rw [stored]
    rfl
  · exact fun other member => ⟨(climb.passed other member).1, (climb.passed other member).2.tail up⟩

end Climb

/-- The way up to the top is followed to its end, so if it passes, the inode is not on it. -/
theorem ensures_requireNotAbove_apart (owned : (base.write writes).Owned)
    (acyclic : (base.write writes).Acyclic) (held : (base.write writes).Holds (.inode id) node)
    {count : Nat} (counts : (base.write writes).AtMost count) {bound : Nat} {seen : List Int64} {place : Int64}
    {current : INode} (climb : Climb (base.write writes) seen place)
    (here : (base.write writes).Holds (.inode place) current) (room : count < bound + seen.length) :
    Ensures base (requireNotAbove id bound seen current) writes fun _ _ =>
      ¬ (base.write writes).Reaches place id := by
  induction bound generalizing seen place current with
  | zero =>
    have bound := length_le_of_stored counts climb.distinct fun other passed => (climb.passed other passed).1
    omega
  | succ bound ih =>
    have up : (base.write writes).Parent place current.parentId := ⟨current, here, rfl⟩
    -- Below the place, the way up goes on at its parent.
    have next (differ : place ≠ id) (apart : ¬ (base.write writes).Reaches current.parentId id) :
        ¬ (base.write writes).Reaches place id := by
      intro reaches
      rcases reaches.cases_head with same | ⟨above, step, rest⟩
      · exact differ same
      · rw [step.unique up] at rest
        exact apart rest
    -- It ends where nothing is stored, and the inode itself is stored.
    have ends (absent : ∀ above : INode, ¬ (base.write writes).Holds (.inode current.parentId) above) :
        ¬ (base.write writes).Reaches current.parentId id := by
      intro reaches
      rcases reaches.cases_head with same | ⟨_, ⟨above, stored, _⟩, _⟩
      · exact absent node (same ▸ held)
      · exact absent above stored
    obtain ⟨same, _⟩ := owned place current here
    rw [requireNotAbove, same]
    split
    · exact .throw
    · rename_i differ
      split
      · rename_i stops
        refine .pure (next differ ?_)
        rcases Bool.or_eq_true_iff.1 stops with low | passed
        · apply ends
          intro above stored
          have positive := (owned _ above stored).2
          rw [decide_eq_true_eq] at low
          exact Int64.not_le.2 positive low
        · have cycle := (climb.passed place (List.contains_iff_mem.1 passed)).2
          exact absurd cycle (acyclic place)
      · rename_i goes
        have fresh : place ∉ seen := fun member => goes (by simp [member])
        refine .bind (ensures_find? (fun absent => .pure (next differ (ends ?_))) fun above stored => ?_)
        · rintro above ⟨bytes, stored, _⟩
          rw [absent] at stored
          cases stored
        · apply (ih (climb.step fresh here) stored (by simp; omega)).mono
          exact fun _ _ => next differ

theorem ensures_requireNotAbove_full (held : (base.write writes).Holds (.inode id) node)
    (here : (base.write writes).Holds (.inode destination) target) {count : Nat}
    (counts : (base.write writes).AtMost count) :
    Ensures base (requireNotAbove id (count + 2) [] target) writes fun _ later => later = writes ∧
      ((base.write writes).Owned → (base.write writes).Acyclic →
        ¬ (base.write writes).Reaches destination id) := by
  have reads := (only_requireNotAbove id (count + 2) [] target).reads base writes
  by_cases regular : (base.write writes).Owned ∧ (base.write writes).Acyclic
  · have room : count < count + 2 + ([] : List Int64).length := by
      rw [List.length_nil]
      omega
    have apart := ensures_requireNotAbove_apart regular.1 regular.2 held counts (.start _ _) here room
    exact (reads.and apart).mono fun _ _ ⟨same, apart⟩ => ⟨same, fun _ _ => apart⟩
  · exact reads.mono fun _ _ same => ⟨same, fun owned acyclic => absurd ⟨owned, acyclic⟩ regular⟩

theorem ensures_move_relocated (found : (base.write writes).Holds (.inode id) node)
    (here : (base.write writes).Holds (.inode destination) target) (directory : target.isDirectory = true) :
    Ensures base (move node target id source destination) writes fun _ later =>
      (base.write writes).Relocated (base.write later) id destination ∧
        later.Touch (.inode id) ∧ later.Touch (.inode destination) := by
  have sized : { node with parentId := destination }.Sized := by
    obtain ⟨bytes, _, decoded⟩ := found
    have sized := Record.sized_of_decode decoded
    exact ⟨sized.name, sized.clientName, sized.clientMachine⟩
  refine .bind (.visibleCount_le fun count counts => .bind ?_)
  apply (ensures_requireNotAbove_full found here counts).mono
  intro _ later ⟨same, apart⟩
  rw [same]
  -- Whether there is a link at the destination decides about success only. What is written is the same.
  have looked (link : Option ChildLink) : Ensures base (do
      requireFree destination node.name id link
      putInode destination target
      putInode id { node with parentId := destination }
      deleteLink source node.name
      putLink destination node.name id) writes fun _ later =>
        (base.write writes).Relocated (base.write later) id destination ∧
          later.Touch (.inode id) ∧ later.Touch (.inode destination) := by
    refine .bind (.lift fun _ _ => .bind (.put (.bind (.put (.bind (.delete (.put ⟨?_, ?_, ?_⟩)))))))
    · simp only [Contents.write_insert]
      constructor
      · refine ⟨node, found, ?_⟩
        rw [Contents.holds_put (by simp), Contents.holds_put (by simp)]
        exact Contents.holds_put_self (Record.decode_encode_inode sized)
      · exact ⟨target, here, directory⟩
      · intro other differ record
        rw [Contents.holds_put (by simp), Contents.holds_put (by simp), Contents.holds_put (by simpa using differ),
          Contents.holds_put_back here]
      · intro parent name differ
        rw [Contents.put_other (by simp [differ])]
        by_cases same : Key.child parent name = Key.child source node.name
        · rw [same, Contents.put_self]
          exact .inr rfl
        · rw [Contents.put_other same, Contents.put_other (by simp), Contents.put_other (by simp)]
          exact .inl rfl
      · exact apart
    · exact Writes.touch_insert (Writes.touch_insert (Writes.touch_insert_self _ _ _))
    · exact Writes.touch_insert (Writes.touch_insert (Writes.touch_insert (Writes.touch_insert_self _ _ _)))
  exact .bind (ensures_find? (fun _ => looked _) fun _ _ => looked _)

/-- A move to where the inode is already writes nothing at all. -/
theorem ensures_reparent_relocated :
    Ensures base (reparent id source destination) writes fun _ later =>
      later = writes ∧ source = destination ∨ source ≠ destination ∧
        (base.write writes).Relocated (base.write later) id destination ∧
          later.Touch (.inode id) ∧ later.Touch (.inode destination) := by
  refine .bind (.lift fun _ _ => .bind (.lift fun _ _ => .bind (.lift fun _ _ => ?_)))
  refine .bind (.bind (.lift fun _ _ => ensures_find fun node found => ?_))
  refine .bind (ensures_find fun link _ => .bind (.lift fun _ _ => ?_))
  refine .bind (.bind (.lift fun _ _ => ensures_find fun target here => ?_))
  dsimp only
  split
  · exact .bind .throw
  · rename_i directory
    split
    · rename_i differ
      apply (ensures_move_relocated found here (by simpa using directory)).mono
      exact fun _ _ relocated => .inr ⟨differ, relocated⟩
    · rename_i same
      exact .pure (.inl ⟨rfl, by simpa using same⟩)

end Tree

end FsMeta

import FsMeta.Proofs.Tree.Creation

set_option autoImplicit false

namespace FsMeta

namespace Contents

variable {before after : Contents} {id source destination place : Int64} {node : INode} {seen : List Int64}

structure Movable (contents : Contents) (id source destination : Int64) : Prop where
  positive : 0 < id ∧ 0 < source ∧ 0 < destination
  inode : ∃ node : INode, contents.Holds (.inode id) node ∧
    contents.Holds (.child source node.name) (ChildLink.mk id) ∧
    (source = destination ∨ ¬ contents.Reaches destination id ∧ contents.Free destination node.name id)
  target : ∃ target : INode, contents.Holds (.inode destination) target ∧ target.isDirectory = true

/-- The first thing that a move stumbles over is a record that is missing. -/
def Lacks (contents : Contents) (id source destination : Int64) : Prop :=
  (0 < id ∧ 0 < source ∧ 0 < destination) ∧ (contents (Key.inode id).bytes = none ∨
    ∃ node : INode, contents.Holds (.inode id) node ∧ (contents (Key.child source node.name).bytes = none ∨
      contents.Holds (.child source node.name) (ChildLink.mk id) ∧
        contents (Key.inode destination).bytes = none))

structure Reparented (before after : Contents) (node : INode) (id source destination : Int64) : Prop where
  inode : after (Key.inode id).bytes = some (Record.encode { node with parentId := destination })
  left : after (Key.child source node.name).bytes = none
  link : after (Key.child destination node.name).bytes = some (Record.encode (ChildLink.mk id))
  others : ∀ key, key ≠ (Key.inode id).bytes → key ≠ (Key.child source node.name).bytes →
    key ≠ (Key.child destination node.name).bytes → after key = before key

inductive Moves (before : Contents) (id source destination : Int64) : Except Error Unit → Contents → Prop
  | stays (movable : before.Movable id source destination) (same : source = destination) :
    Moves before id source destination (.ok ()) before
  | goes {after : Contents} (movable : before.Movable id source destination) (differ : source ≠ destination)
    (reparented : ∀ node, before.Holds (.inode id) node → before.Reparented after node id source destination) :
    Moves before id source destination (.ok ()) after
  | missing {error : Error} {after : Contents} (fixed : ¬ before.Movable id source destination)
    (lacks : before.Lacks id source destination) (kind : error.kind = .notFound) :
    Moves before id source destination (.error error) after
  | invalid {error : Error} {after : Contents} (fixed : ¬ before.Movable id source destination)
    (complete : ¬ before.Lacks id source destination) (kind : error.kind = .invalidArgument) :
    Moves before id source destination (.error error) after

theorem movable_iff (held : before.Holds (.inode id) node) : before.Movable id source destination ↔
    (0 < id ∧ 0 < source ∧ 0 < destination) ∧ before.Holds (.child source node.name) (ChildLink.mk id) ∧
      (source = destination ∨ ¬ before.Reaches destination id ∧ before.Free destination node.name id) ∧
      ∃ target : INode, before.Holds (.inode destination) target ∧ target.isDirectory = true := by
  constructor
  · rintro ⟨positive, ⟨other, again, linked, free⟩, target⟩
    obtain rfl := again.unique held
    exact ⟨positive, linked, free, target⟩
  · rintro ⟨positive, linked, free, target⟩
    exact ⟨positive, ⟨node, held, linked, free⟩, target⟩

theorem lacks_iff (held : before.Holds (.inode id) node) : before.Lacks id source destination ↔
    (0 < id ∧ 0 < source ∧ 0 < destination) ∧ (before (Key.child source node.name).bytes = none ∨
      before.Holds (.child source node.name) (ChildLink.mk id) ∧
        before (Key.inode destination).bytes = none) := by
  constructor
  · rintro ⟨positive, absent | ⟨other, again, lacks⟩⟩
    · exact absurd held (not_holds_of_absent absent node)
    · obtain rfl := again.unique held
      exact ⟨positive, lacks⟩
  · exact fun ⟨positive, lacks⟩ => ⟨positive, .inr ⟨node, held, lacks⟩⟩

theorem Reparented.moved (reparented : before.Reparented after node id source destination) (sized : node.Sized) :
    Moved before after id destination := by
  have own : after.Holds (.inode id) { node with parentId := destination } :=
    ⟨_, reparented.inode, Record.decode_encode_inode ⟨sized.name, sized.clientName, sized.clientMachine⟩⟩
  refine moved_of_holds own fun other differ found => ?_
  rw [Holds, Holds, reparented.others _ (by simpa using differ) (by simp) (by simp)]

/-- The inode was not met yet on the way up. It led from one of those that were passed to the next, and now
is at this place. -/
structure Trail (contents : Contents) (id : Int64) (seen : List Int64) (place : Int64) : Prop where
  distinct : seen.Nodup
  stored : ∀ other ∈ seen, (contents (Key.inode other).bytes).isSome
  differ : ∀ other ∈ seen, other ≠ id
  leads : ∀ other ∈ seen, ∀ above, contents.Parent other above → above ∈ seen ∨ above = place

namespace Trail

theorem start (contents : Contents) (id place : Int64) : contents.Trail id [] place :=
  ⟨List.nodup_nil, by simp, by simp, by simp⟩

theorem step (trail : before.Trail id seen place) (fresh : place ∉ seen) (differ : place ≠ id)
    (here : before.Holds (.inode place) node) : before.Trail id (place :: seen) node.parentId where
  distinct := List.nodup_cons.2 ⟨fresh, trail.distinct⟩
  stored := List.forall_mem_cons.2 ⟨here.isSome, trail.stored⟩
  differ := List.forall_mem_cons.2 ⟨differ, trail.differ⟩
  leads := by
    refine List.forall_mem_cons.2 ⟨fun above up => ?_, fun other member above up => ?_⟩
    · exact .inr (up.unique ⟨node, here, rfl⟩)
    · rcases trail.leads other member above up with passed | rfl
      · exact .inl (List.mem_cons_of_mem _ passed)
      · exact .inl List.mem_cons_self

/-- Once the way comes back to where it was, it only goes around. -/
theorem not_reaches (trail : before.Trail id seen place) (back : place ∈ seen) : ¬ before.Reaches place id := by
  have around {other : Int64} (reaches : before.Reaches place other) : other ∈ seen := by
    induction reaches with
    | refl => exact back
    | @tail passed above _ up ih =>
      rcases trail.leads passed ih above up with member | rfl
      · exact member
      · exact back
  exact fun reaches => trail.differ id (around reaches) rfl

end Trail

theorem Owned.absent (owned : before.Owned) (low : ¬ 0 < place) (readable : before.Readable INode (.inode place)) :
    before (Key.inode place).bytes = none := by
  rcases readable with absent | ⟨node, held⟩
  · exact absent
  · exact absurd (owned place node held).2 low

end Contents

namespace Tree

open Scoped (Yields)

variable {base : Contents} {writes : Writes} {id source destination place : Int64} {node target current : INode}

theorem yields_requireNotAbove (owned : (base.write writes).Owned) (encoded : (base.write writes).Encoded)
    (held : (base.write writes).Holds (.inode id) node) {count : Nat} (counts : (base.write writes).AtMost count)
    {bound : Nat} {seen : List Int64} (trail : (base.write writes).Trail id seen place)
    (here : (base.write writes).Holds (.inode place) current) (room : count < bound + seen.length) :
    Yields base (requireNotAbove id bound seen current) writes fun result later => later = writes ∧
      ((base.write writes).Reaches place id ∧ result = .error (belowItself id) ∨
        ¬ (base.write writes).Reaches place id ∧ result = .ok ()) := by
  induction bound generalizing seen place current with
  -- All that was passed is stored, so the bound does not run out.
  | zero =>
    have bound := length_le_of_stored counts trail.distinct trail.stored
    omega
  | succ bound ih =>
    obtain ⟨same, _⟩ := owned place current here
    rw [requireNotAbove, same]
    split
    · rename_i met
      exact .throw ⟨rfl, .inl ⟨met ▸ .refl, rfl⟩⟩
    · rename_i differ
      have next := Contents.reaches_iff here differ
      have leaves (absent : base.write writes (Key.inode current.parentId).bytes = none) :
          ¬ (base.write writes).Reaches current.parentId id := by
        refine Contents.not_reaches_of_absent absent fun same => ?_
        rw [same] at absent
        exact Contents.not_holds_of_absent absent node held
      split
      · rename_i stops
        refine .pure ⟨rfl, .inr ⟨?_, rfl⟩⟩
        rcases Bool.or_eq_true_iff.1 stops with low | passed
        · have low : ¬ 0 < current.parentId := by simpa using low
          rw [next]
          exact leaves (owned.absent low (encoded.readable_inode _))
        · exact trail.not_reaches (List.contains_iff_mem.1 passed)
      · rename_i goes
        have fresh : place ∉ seen := fun member => goes (by simp [member])
        rw [next]
        refine .bind (yields_find? (encoded.readable_inode _) (fun absent => ?_) fun above stored => ?_)
        · exact .pure ⟨rfl, .inr ⟨leaves absent, rfl⟩⟩
        · exact ih (trail.step fresh differ here) stored (by simp; omega)

theorem yields_move (owned : (base.write writes).Owned) (encoded : (base.write writes).Encoded)
    (held : (base.write writes).Holds (.inode id) node)
    (here : (base.write writes).Holds (.inode destination) target) (differ : source ≠ destination) :
    Yields base (move node target id source destination) writes fun result later =>
      (¬ (base.write writes).Reaches destination id ∧ (base.write writes).Free destination node.name id) ∧
        result = .ok () ∧ (base.write writes).Reparented (base.write later) node id source destination ∨
      ¬ (¬ (base.write writes).Reaches destination id ∧ (base.write writes).Free destination node.name id) ∧
        ∃ error, result = .error error ∧ error.kind = .invalidArgument := by
  refine .bind (.visibleCount fun count counts => .bind ?_)
  have room : count < count + 2 + ([] : List Int64).length := by simp
  refine (yields_requireNotAbove owned encoded held counts (.start _ _ _) here room).mono ?_
  rintro _ _ ⟨rfl, ⟨below, rfl⟩ | ⟨apart, rfl⟩⟩
  · exact .inr ⟨fun both => both.1 below, _, rfl, rfl⟩
  refine yields_requireFree (encoded.readable_link _ _) (fun error taken refused => ?_) fun free => ?_
  · exact .inr ⟨fun both => taken both.2, error, rfl, refused⟩
  refine .bind (.put (.bind (.put (.bind (.delete (.put (.inl ⟨⟨apart, free⟩, rfl, ?_⟩)))))))
  simp only [Contents.write_insert]
  rw [encoded.put_back here]
  constructor
  · rw [Contents.put_other (by simp), Contents.put_other (by simp), Contents.put_self]
  · rw [Contents.put_other (by simp [differ]), Contents.put_self]
  · rw [Contents.put_self]
  · intro key inode left link
    rw [Contents.put, if_neg link, Contents.put, if_neg left, Contents.put, if_neg inode]

theorem yields_reparent_linked (owned : (base.write writes).Owned) (encoded : (base.write writes).Encoded)
    (positive : 0 < id ∧ 0 < source ∧ 0 < destination) (held : (base.write writes).Holds (.inode id) node)
    (linked : (base.write writes).Holds (.child source node.name) (ChildLink.mk id)) :
    Yields base (do
      let target ← inode destination
      if !target.isDirectory then throw (.invalid s!"new parent {destination} is a file")
      if source ≠ destination then move node target id source destination) writes fun result later =>
        (base.write writes).Moves id source destination result (base.write later) := by
  have present {value : ChildLink} (held : (base.write writes).Holds (.child source node.name) value) :
      ¬ (base.write writes) (Key.child source node.name).bytes = none :=
    fun absent => Contents.not_holds_of_absent absent value held
  refine yields_inode (encoded.readable_inode destination) (fun _ low => absurd positive.2.2 low)
    (fun _ absent error kind => .missing ?_ ⟨positive, .inr ⟨node, held, .inr ⟨linked, absent⟩⟩⟩ kind)
    fun _ target here => ?_
  · rintro ⟨_, _, target, here, _⟩
    exact Contents.not_holds_of_absent absent target here
  have complete : ¬ (base.write writes).Lacks id source destination := by
    rw [Contents.lacks_iff held]
    rintro ⟨_, absent | ⟨_, absent⟩⟩
    · exact present linked absent
    · exact Contents.not_holds_of_absent absent target here
  dsimp only
  split
  · rename_i file
    refine .fail (.invalid ?_ complete rfl)
    rintro ⟨_, _, other, again, directory⟩
    rw [again.unique here] at directory
    simp [directory] at file
  · rename_i directory
    have directory : target.isDirectory = true := by simpa using directory
    have movable : (base.write writes).Movable id source destination ↔ _ := Contents.movable_iff held
    split
    · rename_i differ
      refine (yields_move owned encoded held here differ).mono ?_
      -- Whether the name is free and the place not below it is looked at last.
      rintro result later (⟨fit, rfl, reparented⟩ | ⟨unfit, error, rfl, kind⟩)
      · refine .goes (movable.2 ⟨positive, linked, .inr fit, target, here, directory⟩) differ fun other again => ?_
        rwa [again.unique held]
      · exact .invalid (fun fits => unfit ((movable.1 fits).2.2.1.resolve_left differ)) complete kind
    · rename_i same
      have same : source = destination := by simpa using same
      exact .pure (.stays (movable.2 ⟨positive, linked, .inl same, target, here, directory⟩) same)

theorem yields_reparent (owned : (base.write writes).Owned) (encoded : (base.write writes).Encoded) :
    Yields base (reparent id source destination) writes fun result later =>
      (base.write writes).Moves id source destination result (base.write later) := by
  have refused {error : Error} {after : Contents} (fails : ¬ (0 < id ∧ 0 < source ∧ 0 < destination))
      (kind : error.kind = .invalidArgument) :
      (base.write writes).Moves id source destination (.error error) after :=
    .invalid (fun movable => fails movable.positive) (fun lacks => fails lacks.1) kind
  refine .demand (demands_requirePositive _ id) (fun _ low => refused fun all => low all.1) fun first => ?_
  refine .demand (demands_requirePositive _ source) (fun _ low => refused fun all => low all.2.1) fun second => ?_
  refine .demand (demands_requirePositive _ destination) (fun _ low => refused fun all => low all.2.2) fun third => ?_
  have positive : 0 < id ∧ 0 < source ∧ 0 < destination := ⟨first, second, third⟩
  refine yields_inode (encoded.readable_inode id) (fun _ low => absurd first low)
    (fun _ absent error kind => .missing ?_ ⟨positive, .inl absent⟩ kind) fun _ node held => ?_
  · rintro ⟨_, ⟨node, held, _⟩, _⟩
    exact Contents.not_holds_of_absent absent node held
  refine yields_find (encoded.readable_link _ _)
    (fun absent => .missing ?_ ⟨positive, .inr ⟨node, held, .inl absent⟩⟩ rfl) fun link linked => ?_
  · rw [Contents.movable_iff held]
    exact fun movable => Contents.not_holds_of_absent absent _ movable.2.1
  refine .demand (demands_requireLinked link source node.name id)
    (fun error other kind => .invalid ?_ ?_ kind) fun leads => ?_
  · rw [Contents.movable_iff held]
    rintro ⟨_, own, _⟩
    exact other (congrArg ChildLink.id (linked.unique own))
  · rw [Contents.lacks_iff held]
    rintro ⟨_, absent | ⟨own, _⟩⟩
    · exact Contents.not_holds_of_absent absent link linked
    · exact other (congrArg ChildLink.id (linked.unique own))
  · obtain rfl : link = ChildLink.mk id := congrArg ChildLink.mk leads
    exact yields_reparent_linked owned encoded positive held linked

theorem reparent_exact {engine : Engine} {id source destination : Int64}
    (clear : engine.Clear (reparent id source destination))
    (encoded : engine.storage.store.committed.Encoded) (owned : engine.storage.store.committed.Owned) :
    let before := engine.storage.store.committed
    let result := (engine.run .never (reparent id source destination)).1
    let after := (engine.run .never (reparent id source destination)).2.storage.store.committed
    (result = .ok () ↔ before.Movable id source destination) ∧
      (before.Movable id source destination → source = destination → after = before) ∧
      (before.Movable id source destination → source ≠ destination →
        ∀ node, before.Holds (.inode id) node → before.Reparented after node id source destination) ∧
      (¬ before.Movable id source destination → after = before ∧ ∃ error, result = .error error ∧
        (before.Lacks id source destination ∧ error.kind = .notFound ∨
          ¬ before.Lacks id source destination ∧ error.kind = .invalidArgument)) ∧
      (before.Acyclic → after.Acyclic) := by
  intro before result after
  have whole : before.write .empty = before := Contents.write_empty before
  have yields : Yields before (reparent id source destination) .empty fun result later =>
      before.Moves id source destination result (before.write later) := by
    have yields : Yields before (reparent id source destination) .empty _ :=
      yields_reparent (whole.symm ▸ owned) (whole.symm ▸ encoded)
    rwa [whole] at yields
  obtain ⟨written, moves, ended⟩ := engine.run_yields clear yields
  have moves : before.Moves id source destination result (before.write written) := moves
  have done : result = .ok () → after = before.write written := ended.done ()
  have failed : ∀ error, result = .error error → after = before := ended.failed
  -- The way it ended says what was asked of the tree, so each part is read off the four endings.
  clear_value result after
  generalize before.write written = buffered at moves done
  cases moves with
  | stays movable same =>
    obtain rfl := done rfl
    exact ⟨iff_of_true rfl movable, fun _ _ => rfl, fun _ differ => absurd same differ,
      fun fixed => absurd movable fixed, fun acyclic => acyclic⟩
  | goes movable differ reparented =>
    obtain rfl := done rfl
    obtain ⟨node, held, _, free⟩ := movable.inode
    have sized : node.Sized := by
      obtain ⟨_, _, decoded⟩ := held
      exact Record.sized_of_decode decoded
    have moved := (reparented node held).moved sized
    refine ⟨iff_of_true rfl movable, fun _ same => absurd same differ, fun _ _ => reparented,
      fun fixed => absurd movable fixed, fun acyclic => ?_⟩
    exact (moved.acyclic_iff acyclic).2 (free.resolve_left differ).1
  | missing fixed lacks kind =>
    obtain rfl := failed _ rfl
    exact ⟨iff_of_false nofun fixed, fun movable => absurd movable fixed, fun movable => absurd movable fixed,
      fun _ => ⟨rfl, _, rfl, .inl ⟨lacks, kind⟩⟩, fun acyclic => acyclic⟩
  | invalid fixed complete kind =>
    obtain rfl := failed _ rfl
    exact ⟨iff_of_false nofun fixed, fun movable => absurd movable fixed, fun movable => absurd movable fixed,
      fun _ => ⟨rfl, _, rfl, .inr ⟨complete, kind⟩⟩, fun acyclic => acyclic⟩

-- The directory is taken from one branch to the other, but not to its own child.
theorem reparent_exact_forked :
    let done := forked.run .never (reparent 4 2 3)
    let refused := forked.run .never (reparent 2 1 4)
    (done.1 = .ok () ∧ done.2.storage.store.committed.HasLink 3 "c" 4 ∧
      done.2.storage.store.committed (Key.child 2 "c").bytes = none) ∧
      refused.2.storage.store.committed = forked.storage.store.committed := by
  intro done refused
  let before := forked.storage.store.committed
  have grown : Grown before := by
    rw [show before = Contents.replay (planted branches) from Store.readAt_ofEntries _ (UInt64.le_refl _)]
    exact grown_branches
  have inode : before.Holds (.inode 4) (directory 4 2 "c") := holds_directory (by decide) (by decide +kernel)
  have target : before.Holds (.inode 3) (directory 3 1 "b") := holds_directory (by decide) (by decide +kernel)
  have link : before.Holds (.child 2 "c") (ChildLink.mk 4) :=
    ⟨_, by decide +kernel, Record.decode_encode_link _⟩
  have apart : ¬ before.Reaches 3 4 := by
    intro reaches
    rcases Relation.reflTransGen_iff_eq_or_transGen.1 reaches with same | climbs
    · cases same
    · exact absurd (grown.lower_of_climb climbs) (by decide)
  have movable : before.Movable 4 2 3 :=
    ⟨by decide, ⟨_, inode, link, .inr ⟨apart, .inl (by decide +kernel)⟩⟩, _, target, rfl⟩
  have fixed : ¬ before.Movable 2 1 4 := by
    rintro ⟨_, ⟨_, _, _, same | ⟨apart, _⟩⟩, _⟩
    · cases same
    · exact apart (.single ⟨_, inode, rfl⟩)
  have clear (id source destination : Int64) : forked.Clear (reparent id source destination) :=
    Engine.clear_ofEntries _ (by decide +kernel)
  obtain ⟨succeeds, _, moves, _⟩ := reparent_exact (clear 4 2 3) grown.tied.kept.encoded grown.owned
  obtain ⟨_, _, _, fails, _⟩ := reparent_exact (clear 2 1 4) grown.tied.kept.encoded grown.owned
  have reparented := moves movable (by decide) _ inode
  exact ⟨⟨succeeds.2 movable, reparented.link, reparented.left⟩, (fails fixed).1⟩

end Tree

end FsMeta

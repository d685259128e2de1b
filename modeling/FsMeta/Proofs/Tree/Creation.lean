import FsMeta.Proofs.Service.Confined
import FsMeta.Proofs.Tree.Guards
import FsMeta.Proofs.Tree.Moves

set_option autoImplicit false

namespace FsMeta

namespace Contents

variable {before between after : Contents} {node existing : INode}

def Regular (contents : Contents) : Prop :=
  ∀ (id : Int64) (node : INode), contents.Holds (.inode id) node → node.Placed id

structure Creatable (contents : Contents) (node : INode) : Prop where
  positive : 0 < node.id
  parent : 0 < node.parentId
  named : node.name.isEmpty = false
  apart : node.id ≠ node.parentId
  kind : ∀ existing : INode, contents.Holds (.inode node.id) existing → existing.kind = node.kind
  free : contents.Free node.parentId node.name node.id

def Stale (contents : Contents) (node : INode) (key : Bytes) : Prop :=
  ∃ existing : INode, contents.Holds (.inode node.id) existing ∧
    key = (Key.child existing.parentId existing.name).bytes ∧
    (existing.parentId ≠ node.parentId ∨ existing.name ≠ node.name) ∧
    contents.Holds (.child existing.parentId existing.name) (ChildLink.mk node.id)

structure Written (before after : Contents) (node : INode) : Prop where
  inode : after (Key.inode node.id).bytes = some (Record.encode node)
  link : after (Key.child node.parentId node.name).bytes = some (Record.encode (ChildLink.mk node.id))
  stale : ∀ key, before.Stale node key → after key = none
  others : ∀ key, key ≠ (Key.inode node.id).bytes → key ≠ (Key.child node.parentId node.name).bytes →
    ¬ before.Stale node key → after key = before key

theorem Kept.encoded {contents : Contents} (kept : contents.Kept) : contents.Encoded where
  inodes id bytes held := by
    obtain ⟨node, inode, _⟩ := kept.inode held
    exact ⟨node, inode.2.sized, Option.some.inj (held.symm.trans inode.1)⟩
  links parent name bytes held := by
    obtain ⟨id, link, _⟩ := kept.link held
    exact ⟨ChildLink.mk id, Option.some.inj (held.symm.trans link)⟩

theorem Kept.regular {contents : Contents} (kept : contents.Kept) : contents.Regular :=
  fun _ _ ⟨_, held, decoded⟩ => (kept.inode_of_decode held decoded).2

theorem not_stale_place : ¬ before.Stale node (Key.child node.parentId node.name).bytes := by
  rintro ⟨existing, _, same, moved, _⟩
  rw [Key.bytes_inj, Key.child.injEq] at same
  obtain ⟨parent, name⟩ := same
  exact moved.elim (fun differ => differ parent.symm) fun differ => differ name.symm

theorem not_stale_inode (id : Int64) : ¬ before.Stale node (Key.inode id).bytes := by
  rintro ⟨_, _, same, _⟩
  cases Key.bytes_injective same

theorem stale_iff (held : before.Holds (.inode node.id) existing) {key : Bytes} :
    before.Stale node key ↔ key = (Key.child existing.parentId existing.name).bytes ∧
      (existing.parentId ≠ node.parentId ∨ existing.name ≠ node.name) ∧
      before.Holds (.child existing.parentId existing.name) (ChildLink.mk node.id) := by
  constructor
  · rintro ⟨other, again, known⟩
    rwa [again.unique held] at known
  · exact fun known => ⟨existing, held, known⟩

theorem Without.free_iff (without : before.Without between (before.Stale node)) :
    between.Free node.parentId node.name node.id ↔ before.Free node.parentId node.name node.id := by
  rw [Free, Free, Holds, Holds, without.kept _ not_stale_place]

theorem Without.written (without : before.Without between (before.Stale node)) :
    Written before ((between.put (.inode node.id) (some (Record.encode node))).put
      (.child node.parentId node.name) (some (Record.encode (ChildLink.mk node.id)))) node where
  inode := by rw [put_other (by simp), put_self]
  link := put_self _ _
  stale := by
    rintro key stale
    have link : key ≠ (Key.child node.parentId node.name).bytes := fun same => not_stale_place (same ▸ stale)
    have inode : key ≠ (Key.inode node.id).bytes := fun same => not_stale_inode _ (same ▸ stale)
    rw [put, if_neg link, put, if_neg inode, without.gone key stale]
  others := by
    intro key inode link fresh
    rw [put, if_neg link, put, if_neg inode, without.kept key fresh]

end Contents

namespace Tree

open Scoped (Yields)

variable {base : Contents} {writes : Writes} {id : Int64} {node existing : INode}

theorem yields_prepareReplacement (encoded : (base.write writes).Encoded) (regular : (base.write writes).Regular)
    (held : (base.write writes).Holds (.inode node.id) existing) :
    Yields base (prepareReplacement existing node) writes fun result later =>
      existing.kind = node.kind ∧ result = .ok () ∧
        (base.write writes).Without (base.write later) ((base.write writes).Stale node) ∨
      existing.kind ≠ node.kind ∧ ∃ error, result = .error error ∧ error.kind = .invalidArgument := by
  have placed := regular node.id existing held
  refine .demand (demands_requireSameKind existing node) (fun error differ kind => .inr ⟨differ, error, rfl, kind⟩) ?_
  intro kind
  split
  · rename_i moved
    have moved : existing.parentId ≠ node.parentId ∨ existing.name ≠ node.name := by simpa using moved
    refine (yields_unlink placed.parent placed.name (encoded.readable_link _ _)).mono ?_
    rintro _ later ⟨done, without⟩
    refine .inl ⟨kind, done, without.congr fun key _ => ?_⟩
    rw [Contents.stale_iff held, placed.own]
    exact ⟨fun ⟨same, own⟩ => ⟨same, moved, own⟩, fun ⟨same, _, own⟩ => ⟨same, own⟩⟩
  · rename_i stays
    refine .pure (.inl ⟨kind, rfl, (Contents.Without.refl _).congr fun key _ => iff_of_false not_false ?_⟩)
    rw [Contents.stale_iff held]
    rintro ⟨_, moved, _⟩
    exact stays (by simpa using moved)

theorem yields_touch (encoded : (base.write writes).Encoded) (id : Int64) :
    Yields base (touch id) writes fun result later => result = .ok () ∧ base.write later = base.write writes := by
  refine .bind (yields_find? (encoded.readable_inode id) (fun _ => ?_) fun node held => ?_)
  · exact .pure ⟨rfl, rfl⟩
  · refine .put ⟨rfl, ?_⟩
    rw [Contents.write_insert, encoded.put_back held]

theorem yields_create (encoded : base.Encoded) (regular : base.Regular) (node : INode) :
    Yields base (create node) .empty fun result later =>
      base.Creatable node ∧ result = .ok () ∧ base.Written (base.write later) node ∨
      ¬ base.Creatable node ∧ ∃ error, result = .error error ∧ error.kind = .invalidArgument := by
  refine .demand (demands_requireWellFormed node) (fun error fails kind => .inr ⟨?_, error, rfl, kind⟩) ?_
  · exact fun creatable => fails ⟨creatable.positive, creatable.parent, creatable.named, creatable.apart⟩
  rintro ⟨positive, parent, named, apart⟩
  -- From the check of the name on it does not matter whether the inode is new or replaces one: the stale link is
  -- gone from what this part sees.
  have links (between : Writes) (without : base.Without (base.write between) (base.Stale node))
      (kind : ∀ existing : INode, base.Holds (.inode node.id) existing → existing.kind = node.kind) :
      Yields base (do
        requireFree node.parentId node.name node.id (← link? node.parentId node.name)
        touch node.parentId
        putInode node.id node
        putLink node.parentId node.name node.id) between fun result later =>
          base.Creatable node ∧ result = .ok () ∧ base.Written (base.write later) node ∨
          ¬ base.Creatable node ∧ ∃ error, result = .error error ∧ error.kind = .invalidArgument := by
    have still := without.encoded encoded
    refine yields_requireFree (still.readable_link _ _) (fun error taken refused => ?_) fun free => ?_
    · exact .inr ⟨fun creatable => taken (without.free_iff.2 creatable.free), error, rfl, refused⟩
    · refine .bind ((yields_touch still node.parentId).mono ?_)
      rintro _ touched ⟨rfl, same⟩
      refine .bind (.put (.put (.inl ⟨⟨positive, parent, named, apart, kind, without.free_iff.1 free⟩, rfl, ?_⟩)))
      rw [Contents.write_insert, Contents.write_insert, same]
      exact without.written
  refine .bind (yields_find? ?_ (fun absent => ?_) fun existing held => ?_)
  · rw [Contents.write_empty]
    exact encoded.readable_inode _
  · rw [Contents.write_empty] at absent
    refine links .empty ?_ fun existing held => absurd held (Contents.not_holds_of_absent absent existing)
    rw [Contents.write_empty]
    refine (Contents.Without.refl base).congr fun key _ => iff_of_false not_false ?_
    rintro ⟨existing, held, _⟩
    exact Contents.not_holds_of_absent absent existing held
  · have whole : base.write .empty = base := Contents.write_empty base
    have prepares := yields_prepareReplacement (whole.symm ▸ encoded) (whole.symm ▸ regular) held
    rw [whole] at held prepares
    refine .bind (prepares.mono ?_)
    rintro _ between (⟨kind, rfl, without⟩ | ⟨differ, error, rfl, refused⟩)
    · exact links between without fun other again => by rw [again.unique held, kind]
    · exact .inr ⟨fun creatable => differ (creatable.kind existing held), error, rfl, refused⟩

theorem yields_create_same (encoded : base.Encoded) (creatable : base.Creatable node)
    (held : base.Holds (.inode node.id) node)
    (linked : base.Holds (.child node.parentId node.name) (ChildLink.mk node.id)) :
    Yields base (create node) .empty fun result later => result = .ok () ∧ base.write later = base := by
  have whole : base.write .empty = base := Contents.write_empty base
  obtain ⟨positive, parent, named, apart, _, free⟩ := creatable
  refine .demand (demands_requireWellFormed node) (fun _ fails => absurd ?_ fails) fun _ => ?_
  · exact ⟨positive, parent, named, apart⟩
  refine .bind (yields_find? (.inr ⟨node, whole.symm ▸ held⟩) (fun absent => ?_) fun existing again => ?_)
  · exact absurd (whole.symm ▸ held) (Contents.not_holds_of_absent absent node)
  obtain rfl : existing = node := (whole ▸ again).unique held
  have stays : ¬ (decide (existing.parentId ≠ existing.parentId) || decide (existing.name ≠ existing.name)) = true := by
    simp
  refine .bind (.demand (demands_requireSameKind existing existing) (fun _ differ => absurd rfl differ) fun _ => ?_)
  rw [if_neg stays]
  refine .pure (yields_requireFree (.inr ⟨_, whole.symm ▸ linked⟩) (fun _ taken => absurd ?_ taken) fun _ => ?_)
  · exact whole.symm ▸ free
  refine .bind ((yields_touch (whole.symm ▸ encoded) existing.parentId).mono ?_)
  rintro _ touched ⟨rfl, same⟩
  refine .bind (.put (.put ⟨rfl, ?_⟩))
  rw [Contents.write_insert, Contents.write_insert, same, whole, encoded.put_back held, encoded.put_back_link linked]

theorem create_exact {engine : Engine} {node : INode} (clear : engine.Clear (create node))
    (encoded : engine.storage.store.committed.Encoded) (regular : engine.storage.store.committed.Regular) :
    let before := engine.storage.store.committed
    let result := (engine.run .never (create node)).1
    let after := (engine.run .never (create node)).2.storage.store.committed
    (result = .ok () ↔ before.Creatable node) ∧
      (before.Creatable node → before.Written after node ∧ (node.Sized → after.Holds (.inode node.id) node)) ∧
      (¬ before.Creatable node →
        (∃ error, result = .error error ∧ error.kind = .invalidArgument) ∧ after = before) := by
  intro before result after
  obtain ⟨written, outcome, ended⟩ := engine.run_yields clear (yields_create encoded regular node)
  rcases outcome with ⟨creatable, done, effect⟩ | ⟨refused, error, failed, kind⟩
  · have later : after = before.write written := ended.done () done
    rw [← later] at effect
    refine ⟨iff_of_true done creatable, fun _ => ⟨effect, fun sized => ?_⟩, fun fails => absurd creatable fails⟩
    exact ⟨_, effect.inode, Record.decode_encode_inode sized⟩
  · have unchanged : after = before := ended.failed error failed
    have failed : result = .error error := failed
    refine ⟨iff_of_false ?_ refused, fun holds => absurd holds refused, fun _ => ⟨⟨error, failed, kind⟩, unchanged⟩⟩
    intro done
    rw [failed] at done
    cases done

def forked : Engine := Engine.ofStore (Store.ofEntries (planted branches))

theorem kept_forked : forked.storage.store.committed.Kept := by
  rw [show forked.storage.store.committed = Contents.replay (planted branches) from
    Store.readAt_ofEntries _ (UInt64.le_refl _)]
  exact grown_branches.tied.kept

theorem create_exact_forked :
    let after := (forked.run .never (create (directory 4 3 "e"))).2.storage.store.committed
    after.Holds (.inode 4) (directory 4 3 "e") ∧ after.Holds (.child 3 "e") (ChildLink.mk 4) ∧
      after (Key.child 2 "c").bytes = none ∧
      after (Key.child 3 "d").bytes = some (Record.encode (ChildLink.mk 5)) := by
  intro after
  have clear : forked.Clear (create (directory 4 3 "e")) := Engine.clear_ofEntries _ (by decide +kernel)
  obtain ⟨_, done, _⟩ := create_exact clear kept_forked.encoded kept_forked.regular
  have old : forked.storage.store.committed.Holds (.inode 4) (directory 4 2 "c") :=
    holds_directory (by decide) (by decide +kernel)
  have link : forked.storage.store.committed.Holds (.child 2 "c") (ChildLink.mk 4) :=
    ⟨_, by decide +kernel, Record.decode_encode_link _⟩
  have creatable : forked.storage.store.committed.Creatable (directory 4 3 "e") := by
    refine ⟨by decide, by decide, rfl, by decide, fun existing held => ?_, .inl (by decide +kernel)⟩
    rw [held.unique old]
    rfl
  obtain ⟨written, holds⟩ := done creatable
  have fresh : ¬ forked.storage.store.committed.Stale (directory 4 3 "e") (Key.child 3 "d").bytes := by
    rintro ⟨existing, held, same, _⟩
    rw [held.unique old] at same
    revert same
    decide
  have linked : after.HasLink 3 "e" 4 := written.link
  refine ⟨holds (sized_directory (by decide)), linked.holds, ?_, ?_⟩
  · exact written.stale _ ⟨_, old, rfl, .inl (by decide), link⟩
  · exact (written.others _ (by decide) (by decide) fresh).trans (by decide +kernel)

end Tree

end FsMeta

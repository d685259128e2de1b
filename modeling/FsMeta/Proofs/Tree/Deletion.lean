import FsMeta.Proofs.Tree.Clearing

set_option autoImplicit false

namespace FsMeta

namespace Contents

variable {α : Type} {before after contents : Contents} {root id : Int64} {key : Bytes} {goes : Bytes → Prop}
variable {kind : INode.Kind} {answers : α → Prop} {result : Except Error α}

def OwnLink (contents : Contents) (id : Int64) (key : Bytes) : Prop :=
  ∃ node : INode, contents.Holds (.inode id) node ∧ key = (Key.child node.parentId node.name).bytes ∧
    contents.Holds (.child node.parentId node.name) (ChildLink.mk id)

theorem ownLink_iff {node : INode} (held : contents.Holds (.inode id) node) : contents.OwnLink id key ↔
    key = (Key.child node.parentId node.name).bytes ∧
      contents.Holds (.child node.parentId node.name) (ChildLink.mk id) := by
  constructor
  · rintro ⟨other, again, known⟩
    rwa [again.unique held] at known
  · exact fun known => ⟨node, held, known⟩

def FileGoes (contents : Contents) (id : Int64) (key : Bytes) : Prop :=
  key = (Key.inode id).bytes ∨ contents.OfChain id key ∨ contents.OwnLink id key

inductive TreeGoes (contents : Contents) (root : Int64) : Bytes → Prop
  | inode {id : Int64} (taken : contents.Taken root id) : TreeGoes contents root (Key.inode id).bytes
  | link {directory : Int64} {key : Bytes} (taken : contents.Taken root directory)
    (isDirectory : contents.OfKind .directory directory) (begins : (Key.children directory).isPrefixOf key = true) :
    TreeGoes contents root key
  | chain {file : Int64} {key : Bytes} (taken : contents.Taken root file) (isFile : contents.OfKind .file file)
    (ofChain : contents.OfChain file key) : TreeGoes contents root key
  | own {key : Bytes} (ownLink : contents.OwnLink root key) : TreeGoes contents root key

def TakesAlong (contents : Contents) (root : Int64) (count : Nat) : Prop :=
  ∃ ids : List Int64, ids.Nodup ∧ (∀ id, id ∈ ids ↔ contents.Taken root id) ∧ ids.length = count

inductive Deletes (before : Contents) (kind : INode.Kind) (id : Int64) (goes : Bytes → Prop) (answers : α → Prop) :
    Except Error α → Contents → Prop
  | done {value : α} {after : Contents} (fits : before.OfKind kind id) (answer : answers value)
    (without : before.Without after goes) : Deletes before kind id goes answers (.ok value) after
  | missing {error : Error} {after : Contents} (absent : before (Key.inode id).bytes = none)
    (positive : 0 < id) (known : error.kind = .notFound) : Deletes before kind id goes answers (.error error) after
  | refused {error : Error} {after : Contents} (unfit : ¬ 0 < id ∨ ∃ other ≠ kind, before.OfKind other id)
    (known : error.kind = .invalidArgument) : Deletes before kind id goes answers (.error error) after

structure Deleted (before after : Contents) (kind : INode.Kind) (id : Int64) (goes : Bytes → Prop)
    (answers : α → Prop) (result : Except Error α) : Prop where
  done : before.OfKind kind id → (∃ value, result = .ok value ∧ answers value) ∧ before.Without after goes
  missing : 0 < id → before (Key.inode id).bytes = none →
    (∃ error, result = .error error ∧ error.kind = .notFound) ∧ after = before
  refused : (¬ 0 < id ∨ ∃ other ≠ kind, before.OfKind other id) →
    (∃ error, result = .error error ∧ error.kind = .invalidArgument) ∧ after = before

end Contents

namespace Tree

open Contents (Deletes Deleted)
open Scoped (Yields)

variable {base : Contents} {id : Int64}

theorem Clearing.treeGoes_iff {now : Contents} {removal : Removal} {gone : List Int64} {key : Bytes}
    (clearing : Clearing base id removal [] gone now) (isDirectory : base.OfKind .directory id)
    (done : removal.pending = []) : base.TreeGoes id key ↔
      (Contents.Emptied base gone removal.visited [] key ∨ key = (Key.inode id).bytes) ∨ base.OwnLink id key := by
  have taken {other : Int64} : base.Taken id other ↔ other = id ∨ other ∈ gone :=
    clearing.taken_iff isDirectory done
  constructor
  · intro goes
    cases goes with
    | inode reached =>
      rcases taken.1 reached with rfl | member
      · exact .inl (.inr rfl)
      · exact .inl (.inl (.inl ⟨_, member, .inl rfl⟩))
    | @link directory _ reached kind begins =>
      have found : removal.Found directory :=
        (clearing.found directory).2 ((taken.1 reached).imp_right fun member => ⟨member, kind⟩)
      have visited : directory ∈ removal.visited := found.resolve_left (by simp [done])
      exact .inl (.inl (.inr ⟨⟨directory, visited, begins⟩, List.not_mem_nil⟩))
    | @chain file _ reached isFile ofChain =>
      have member : file ∈ gone := by
        refine (taken.1 reached).resolve_left ?_
        rintro rfl
        cases isFile.unique isDirectory
      exact .inl (.inl (.inl ⟨file, member, .inr ⟨isFile, ofChain⟩⟩))
    | own ownLink => exact .inr ownLink
  · rintro (((⟨other, member, rfl | ⟨isFile, ofChain⟩⟩ | ⟨⟨directory, visited, begins⟩, _⟩) | rfl) | ownLink)
    · exact .inode (taken.2 (.inr member))
    · exact .chain (taken.2 (.inr member)) isFile ofChain
    · obtain ⟨reached, kind⟩ := clearing.taken_of_found isDirectory (.inr visited)
      exact .link reached kind begins
    · exact .inode .root
    · exact .own ownLink

section

variable (legible : base.Legible)
include legible

theorem yields_stored {α : Type} {kind : INode.Kind} {goes : Bytes → Prop} {answers : α → Prop}
    {next : INode → Scoped α} (present : ∀ node : INode, base.Holds (.inode id) node →
      Yields base (next node) .empty fun result later => Deletes base kind id goes answers result (base.write later)) :
    Yields base (inode id >>= next) .empty fun result later =>
      Deletes base kind id goes answers result (base.write later) := by
  have whole : base.write .empty = base := Contents.write_empty base
  refine yields_inode (whole.symm ▸ legible.inodes id) (fun _ low known => .refused (.inl low) known)
    (fun positive absent _ known => .missing (whole ▸ absent) positive known) fun _ node held => ?_
  exact present node (whole ▸ held)

theorem yields_unlink_own {writes : Writes} {node : INode} {goes : Bytes → Prop} (held : base.Holds (.inode id) node)
    (without : base.Without (base.write writes) goes) :
    Yields base (unlink node) writes fun result later => result = .ok () ∧
      base.Without (base.write later) fun key => goes key ∨ base.OwnLink id key := by
  obtain ⟨placed, _⟩ := legible.placed id node held
  have readable := without.readable (legible.readable_link node.parentId node.name)
  refine (yields_unlink placed.parent placed.name readable).mono ?_
  rintro _ later ⟨rfl, unlinked⟩
  refine ⟨rfl, (without.trans unlinked).congr fun key _ => ?_⟩
  -- If the link is gone by now, it does not matter whether it was its own.
  rw [Contents.ownLink_iff held, placed.own, without.holds_iff]
  grind

theorem yields_deleteDirectory : Yields base (deleteDirectory id) .empty fun result later =>
    Deletes base .directory id (base.TreeGoes id) (base.TakesAlong id) result (base.write later) := by
  refine yields_stored legible fun node held => ?_
  split
  · rename_i file
    exact .fail (.refused (.inr ⟨.file, nofun, node, held, INode.kind_eq_file (by simpa using file)⟩) rfl)
  · rename_i directory
    have isDirectory : base.OfKind .directory id :=
      ⟨node, held, INode.kind_eq_directory (by simpa using directory)⟩
    have whole : base.write .empty = base := Contents.write_empty base
    have start : Clearing base id { pending := [id] } [] [] (base.write .empty) := whole.symm ▸ .start base id
    refine .bind (.visibleCount fun count counts => .bind ?_)
    refine (yields_removeBelow legible isDirectory (whole ▸ counts) start (by simp; omega)).mono ?_
    rintro _ between ⟨after, gone, rfl, done, clearing⟩
    have goes := clearing.without.trans (.delete base between (Key.inode id).bytes)
    refine .bind (.delete (.bind ((yields_unlink_own legible held goes).mono ?_)))
    rintro _ later ⟨rfl, without⟩
    refine .pure (.done isDirectory ?_ (without.congr fun key _ => (clearing.treeGoes_iff isDirectory done).symm))
    refine ⟨id :: gone, List.nodup_cons.2 ⟨clearing.spared, clearing.distinct⟩, fun other => ?_, ?_⟩
    · rw [clearing.taken_iff isDirectory done, List.mem_cons]
    · rw [List.length_cons, clearing.counted]

theorem yields_deleteFile : Yields base (deleteFile id) .empty fun result later =>
    Deletes base .file id (base.FileGoes id) (fun _ => True) result (base.write later) := by
  refine yields_stored legible fun node held => ?_
  split
  · rename_i directory
    exact .fail (.refused (.inr ⟨.directory, nofun, node, held, INode.kind_eq_directory directory⟩) rfl)
  · rename_i file
    have isFile : base.OfKind .file id := ⟨node, held, INode.kind_eq_file (by simpa using file)⟩
    have whole : base.write .empty = base := Contents.write_empty base
    have positive : 0 < id := (legible.placed id node held).2
    refine .bind ((Chain.yields_deleteAll positive (whole.symm ▸ legible.chains id)).mono ?_)
    rintro _ between ⟨⟨_, rfl⟩, erased⟩
    rw [whole] at erased
    have goes := erased.trans (.delete base between (Key.inode id).bytes)
    refine .bind (.delete ((yields_unlink_own legible held goes).mono ?_))
    rintro _ later ⟨rfl, without⟩
    refine .done isFile trivial (without.congr fun key _ => ?_)
    rw [Contents.FileGoes, ← or_assoc, or_comm (a := key = _)]

end

theorem deleted_of_yields {α : Type} {engine : Engine} {action : Scoped α} {kind : INode.Kind} {goes : Bytes → Prop}
    {answers : α → Prop} (legible : engine.storage.store.committed.Legible) (clear : engine.Clear action)
    (yields : Yields engine.storage.store.committed action .empty fun result later =>
      Deletes engine.storage.store.committed kind id goes answers result
        (engine.storage.store.committed.write later)) :
    Deleted engine.storage.store.committed (engine.run .never action).2.storage.store.committed kind id goes answers
      (engine.run .never action).1 := by
  obtain ⟨written, deletes, done, failed⟩ := engine.run_yields clear yields
  generalize (engine.run .never action).1 = result at *
  generalize (engine.run .never action).2.storage.store.committed = after at *
  generalize engine.storage.store.committed = before at *
  have known {other : INode.Kind} (stored : before.OfKind other id) :
      0 < id ∧ before (Key.inode id).bytes ≠ none := by
    obtain ⟨node, held, _⟩ := stored
    exact ⟨(legible.placed id node held).2, fun absent => Contents.not_holds_of_absent absent node held⟩
  -- The three answers exclude one another, as a stored inode has a positive id and one kind.
  cases deletes with
  | @done value _ fits answer without =>
    obtain ⟨positive, present⟩ := known fits
    obtain rfl := done value rfl
    refine ⟨fun _ => ⟨⟨value, rfl, answer⟩, without⟩, fun _ absent => absurd absent present, ?_⟩
    rintro (low | ⟨other, differ, stored⟩)
    · exact absurd positive low
    · exact absurd (stored.unique fits) differ
  | @missing error _ absent positive kind =>
    obtain rfl := failed error rfl
    refine ⟨fun fits => absurd absent (known fits).2, fun _ _ => ⟨⟨error, rfl, kind⟩, rfl⟩, ?_⟩
    rintro (low | ⟨_, _, stored⟩)
    · exact absurd positive low
    · exact absurd absent (known stored).2
  | @refused error _ unfit kind =>
    obtain rfl := failed error rfl
    refine ⟨fun fits => ?_, fun positive absent => ?_, fun _ => ⟨⟨error, rfl, kind⟩, rfl⟩⟩
    · rcases unfit with low | ⟨other, differ, stored⟩
      · exact absurd (known fits).1 low
      · exact absurd (stored.unique fits) differ
    · rcases unfit with low | ⟨_, _, stored⟩
      · exact absurd positive low
      · exact absurd absent (known stored).2

theorem deletion_exact {engine : Engine} (legible : engine.storage.store.committed.Legible) (id : Int64) :
    let before := engine.storage.store.committed
    (engine.Clear (deleteDirectory id) →
      Deleted before (engine.run .never (deleteDirectory id)).2.storage.store.committed .directory id
        (before.TreeGoes id) (before.TakesAlong id) (engine.run .never (deleteDirectory id)).1) ∧
    (engine.Clear (deleteFile id) →
      Deleted before (engine.run .never (deleteFile id)).2.storage.store.committed .file id
        (before.FileGoes id) (fun _ => True) (engine.run .never (deleteFile id)).1) :=
  ⟨fun clear => deleted_of_yields legible clear (yields_deleteDirectory legible),
    fun clear => deleted_of_yields legible clear (yields_deleteFile legible)⟩

/-- A directory with another one below it that leads back, and to nothing, and to a file with one block. -/
def tangle : List Journal.Entry :=
  [{ lsn := 1, commitTime := 1, timestamp := 0, operations := [
      .put (Key.inode 2).bytes (Record.encode (directory 2 1 "a")),
      .put (Key.child 1 "a").bytes (Record.encode (ChildLink.mk 2)),
      .put (Key.inode 3).bytes (Record.encode (directory 3 2 "b")),
      .put (Key.child 2 "b").bytes (Record.encode (ChildLink.mk 3)),
      .put (Key.child 3 "back").bytes (Record.encode (ChildLink.mk 2)),
      .put (Key.child 3 "lost").bytes (Record.encode (ChildLink.mk 9)),
      .put (Key.inode 4).bytes (Record.encode { directory 4 3 "c" with kind := .file }),
      .put (Key.child 3 "c").bytes (Record.encode (ChildLink.mk 4)),
      .put (Key.fileBlock 4 0).bytes (Record.encode (FileBlock.mk 7 64 0)),
      .put (Key.blockStorage 7).bytes (Record.encode { id := 7, nodes := [{}] : BlockStorage })] }]

theorem legible_tangle : (Contents.replay tangle).Legible := by
  refine Contents.legible_replay fun entry among key bytes member => ?_
  cases List.mem_singleton.1 among
  simp only [List.mem_cons, Journal.Operation.put.injEq, List.not_mem_nil, or_false] at member
  rcases member with ⟨rfl, rfl⟩ | ⟨rfl, rfl⟩ | ⟨rfl, rfl⟩ | ⟨rfl, rfl⟩ | ⟨rfl, rfl⟩ | ⟨rfl, rfl⟩ | ⟨rfl, rfl⟩ |
    ⟨rfl, rfl⟩ | ⟨rfl, rfl⟩ | ⟨rfl, rfl⟩
  · exact .inode 2 _ rfl rfl ⟨rfl, by decide, rfl, sized_directory (by decide)⟩ (by decide)
  · exact .link _ _ _ rfl rfl
  · exact .inode 3 _ rfl rfl ⟨rfl, by decide, rfl, sized_directory (by decide)⟩ (by decide)
  · exact .link _ _ _ rfl rfl
  · exact .link _ _ _ rfl rfl
  · exact .link _ _ _ rfl rfl
  · exact .inode 4 _ rfl rfl ⟨rfl, by decide, rfl, by decide, by decide, by decide⟩ (by decide)
  · exact .link _ _ _ rfl rfl
  · exact .entry _ _ _ rfl rfl
  · exact .block _ (.inr rfl)

def knotted : Engine := Engine.ofStore (Store.ofEntries tangle)

theorem legible_knotted : knotted.storage.store.committed.Legible := by
  rw [show knotted.storage.store.committed = Contents.replay tangle from
    Store.readAt_ofEntries _ (UInt64.le_refl _)]
  exact legible_tangle

-- The walk comes back to where it began, and ends. The file alone goes without what leads past it.
theorem deletion_exact_knotted :
    let before := knotted.storage.store.committed
    let whole := (knotted.run .never (deleteDirectory 2)).2.storage.store.committed
    let alone := (knotted.run .never (deleteFile 4)).2.storage.store.committed
    ((knotted.run .never (deleteDirectory 2)).1 = .ok 3 ∧ before.TakesAlong 2 3 ∧
      ∀ key ∈ [Key.inode 4, .child 3 "back", .child 3 "lost", .blockStorage 7], whole key.bytes = none) ∧
      (knotted.run .never (deleteFile 4)).1 = .ok () ∧ alone (Key.fileBlock 4 0).bytes = none ∧
        alone (Key.child 3 "back").bytes = before (Key.child 3 "back").bytes := by
  intro before whole alone
  have stored (id : Int64) (node : INode) (sized : node.Sized)
      (held : before (Key.inode id).bytes = some (Record.encode node)) : before.Holds (.inode id) node :=
    ⟨_, held, Record.decode_encode_inode sized⟩
  have leads (parent child : Int64) (name : String)
      (held : before (Key.child parent name).bytes = some (Record.encode (ChildLink.mk child))) :
      before.Leads parent (Key.child parent name).bytes child :=
    ⟨(Key.child parent name).begins, _, held, Record.decode_encode_link _⟩
  have outer : before.OfKind .directory 2 :=
    ⟨_, stored 2 (directory 2 1 "a") (sized_directory (by decide)) (by decide +kernel), rfl⟩
  have inner : before.OfKind .directory 3 :=
    ⟨_, stored 3 (directory 3 2 "b") (sized_directory (by decide)) (by decide +kernel), rfl⟩
  have held : before.Holds (.inode 4) { directory 4 3 "c" with kind := .file } :=
    stored 4 _ ⟨by decide, by decide, by decide⟩ (by decide +kernel)
  have file : before.OfKind .file 4 := ⟨_, held, rfl⟩
  have reached : before.Taken 2 3 := .child .root outer (leads 2 3 "b" (by decide +kernel)) (by decide +kernel)
  have below : before.Taken 2 4 := .child reached inner (leads 3 4 "c" (by decide +kernel)) (by decide +kernel)
  have names : before.Names 4 7 :=
    ⟨_, _, FileBlock.mk 7 64 0, (Key.fileBlock 4 0).begins, by decide +kernel, Record.decode_encode_fileBlock _, rfl⟩
  have clear {α : Type} (action : Scoped α) : knotted.Clear action := Engine.clear_ofEntries _ (by decide +kernel)
  have three : (knotted.run .never (deleteDirectory 2)).1 = .ok 3 := by decide +kernel
  obtain ⟨⟨count, counted, taken⟩, goes⟩ := ((deletion_exact legible_knotted 2).1 (clear _)).done outer
  obtain ⟨⟨_, done, _⟩, spares⟩ := ((deletion_exact legible_knotted 4).2 (clear _)).done file
  cases three.symm.trans counted
  refine ⟨⟨three, taken, ?_⟩, done, ?_, ?_⟩
  · simp only [List.forall_mem_cons]
    refine ⟨?_, ?_, ?_, ?_, nofun⟩
    · exact goes.gone _ (.inode below)
    · exact goes.gone _ (.link reached inner (leads 3 2 "back" (by decide +kernel)).1)
    · exact goes.gone _ (.link reached inner (leads 3 9 "lost" (by decide +kernel)).1)
    · exact goes.gone _ (.chain below file (.inr ⟨7, names, .inr rfl⟩))
  · exact spares.gone _ (.inr (.inl (.inl (Key.fileBlock 4 0).begins)))
  · refine spares.kept _ ?_
    rintro (inode | ofChain | own)
    · cases Key.bytes_injective inode
    · have marker := ofChain.marker (leads 3 2 "back" (by decide +kernel)).1
      simp at marker
    · obtain ⟨place, _⟩ := (Contents.ownLink_iff held).1 own
      revert place
      decide

end Tree

end FsMeta

import FsMeta.Proofs.Chain.Insertion
import FsMeta.Proofs.Store.Rivals
import FsMeta.Proofs.Tree.Moves

set_option autoImplicit false

/-!
Deleting a file while another transaction puts a block into its chain. The one writes the inode and the
entries that it has found, the other one the entry of the block and the one before it, but not the inode.
So they run into each other over an entry that was there, or not at all.
-/
namespace FsMeta

namespace Contents

structure Erased (contents : Contents) (file : Int64) (found : List ChainEntry) : Prop where
  inode : contents (Key.inode file).bytes = none
  entries : ∀ index, contents (Key.fileBlock file index).bytes = none
  parts : ∀ entry ∈ found, contents (Key.blockMeta entry.entry.blockId).bytes = none ∧
    contents (Key.blockStorage entry.entry.blockId).bytes = none

end Contents

namespace Chain

open Scoped (Ensures)

variable {base : Contents} {writes : Writes} {file block : Int64} {found : List ChainEntry}
variable {links : List (Int64 × String)} {info : BlockMeta} {replicas : BlockStorage} {key : Key}

def deletions (file : Int64) (found : List ChainEntry) (links : List (Int64 × String)) :
    List (Key × Option Bytes) :=
  removals file found ++ (.inode file, none) :: links.map fun link => (.child link.1 link.2, none)

theorem mem_deletions {value : Option Bytes} : (key, value) ∈ deletions file found links ↔ value = none ∧
    ((∃ entry ∈ found, key = .fileBlock file entry.index ∨ key = .blockMeta entry.entry.blockId ∨
      key = .blockStorage entry.entry.blockId) ∨ key = .inode file ∨ ∃ link ∈ links, key = .child link.1 link.2) := by
  simp only [deletions, List.mem_append, mem_removals, List.mem_cons, List.mem_map, Prod.mk.injEq, @eq_comm _ none,
    @eq_comm _ (Key.child _ _)]
  constructor
  · rintro (⟨rfl, known⟩ | ⟨rfl, rfl⟩ | ⟨link, member, rfl, rfl⟩)
    · exact ⟨rfl, .inl known⟩
    · exact ⟨rfl, .inr (.inl rfl)⟩
    · exact ⟨rfl, .inr (.inr ⟨link, member, rfl⟩)⟩
  · rintro ⟨rfl, known | rfl | ⟨link, member, rfl⟩⟩
    · exact .inl ⟨rfl, known⟩
    · exact .inr (.inl ⟨rfl, rfl⟩)
    · exact .inr (.inr ⟨link, member, rfl, rfl⟩)

theorem write_deletions (contents : Contents) (member : (key, none) ∈ deletions file found links) :
    contents.write (.apply .empty (deletions file found links)) key.bytes = none := by
  have written : (Writes.apply .empty (deletions file found links)).find? key.bytes = some none :=
    Writes.find?_apply_of_mem member fun other also => (mem_deletions.1 also).1
  rw [Contents.write_apply, written]
  rfl

theorem inode_mem_deletions (file : Int64) (found : List ChainEntry) (links : List (Int64 × String)) :
    (.inode file, none) ∈ deletions file found links := mem_deletions.2 ⟨rfl, .inr (.inl rfl)⟩

theorem ensures_deleteFile_deletions (lists : base.Lists file found) :
    Ensures base (Tree.deleteFile file) .empty fun _ later =>
      ∃ links, later = .apply .empty (deletions file found links) := by
  refine .bind (.bind (.lift fun _ _ => ensures_find fun node _ => ?_))
  dsimp only
  split
  · exact .bind .throw
  · refine .bind (.bind (ensures_entries_listed ((Contents.write_empty base).symm ▸ lists) fun _ => .bind ?_))
    refine ensures_removeAll id found (.pure (.bind (.delete ?_)))
    rw [List.map_id]
    apply Tree.ensures_unlink
    · exact ⟨[], by rw [deletions, Writes.apply_append]; rfl⟩
    · exact ⟨[(node.parentId, node.name)], by rw [deletions, Writes.apply_append]; rfl⟩

theorem erased_of_deletions (lists : base.Lists file found) (links : List (Int64 × String)) :
    (base.write (.apply .empty (deletions file found links))).Erased file found := by
  constructor
  · exact write_deletions base (inode_mem_deletions file found links)
  · intro index
    by_cases listed : ∃ entry ∈ found, entry.index = index
    · obtain ⟨entry, member, rfl⟩ := listed
      exact write_deletions base (mem_deletions.2 ⟨rfl, .inl ⟨entry, member, .inl rfl⟩⟩)
    · have absent : base (Key.fileBlock file index).bytes = none := by
        by_contra held
        have begins := (Key.fileBlock file index).begins
        obtain ⟨entry, member, same⟩ := lists.keyed _ (Option.isSome_iff_ne_none.2 held) begins
        obtain ⟨_, rfl⟩ : file = file ∧ index = entry.index := by simpa using same
        exact listed ⟨entry, member, rfl⟩
      by_cases touch : Writes.Touch (.apply .empty (deletions file found links)) (.fileBlock file index)
      · obtain ⟨value, member⟩ := (Writes.touch_apply.1 touch).resolve_right (by simp [Writes.Touch])
        obtain ⟨rfl, _⟩ := mem_deletions.1 member
        exact write_deletions base member
      · rw [Contents.write_of_not_touch touch, absent]
  · intro entry member
    exact ⟨write_deletions base (mem_deletions.2 ⟨rfl, .inl ⟨entry, member, .inr (.inl rfl)⟩⟩),
      write_deletions base (mem_deletions.2 ⟨rfl, .inl ⟨entry, member, .inr (.inr rfl)⟩⟩)⟩

def relinks (file block : Int64) : Option ChainEntry → List (Key × Option Bytes)
  | none => []
  | some before =>
    if before.entry.nextBlockId = block then []
    else [(.fileBlock file before.index, some (Record.encode { before.entry with nextBlockId := block }))]

theorem ensures_relinks {before : Option ChainEntry} {post : PUnit → Writes → Prop}
    (holds : post ⟨⟩ (writes.apply (relinks file block before))) :
    Ensures base (before.forM (relink file · block)) writes post := by
  cases before with
  | none => exact .pure holds
  | some before =>
    change Ensures base (relink file before block) writes post
    rw [relinks] at holds
    rw [relink]
    split
    · rename_i named
      rw [if_pos named] at holds
      exact .pure holds
    · rename_i other
      rw [if_neg other] at holds
      exact .put holds

def additions (file : Int64) (found : List ChainEntry) (info : BlockMeta) (replicas : BlockStorage) :
    List (Key × Option Bytes) :=
  let place := position found info.id
  relinks file info.id place.predecessor ++
    [(.fileBlock file place.index, some (Record.encode (FileBlock.mk info.id info.numberBytes place.next))),
      (.blockMeta info.id, some (Record.encode info)), (.blockStorage info.id, some (Record.encode replicas))]

theorem mem_additions : (∃ value, (key, value) ∈ additions file found info replicas) ↔
    (∃ before, (position found info.id).predecessor = some before ∧ before.entry.nextBlockId ≠ info.id ∧
      key = .fileBlock file before.index) ∨
    key = .fileBlock file (position found info.id).index ∨ key = .blockMeta info.id ∨
    key = .blockStorage info.id := by
  rw [additions, relinks.eq_def]
  cases (position found info.id).predecessor with
  | none => simp [exists_or]
  | some before =>
    by_cases named : before.entry.nextBlockId = info.id
    · simp [named, exists_or]
    · simp [named, exists_or]

theorem holds_additions (contents : Contents) :
    (contents.write (.apply .empty (additions file found info replicas))).Holds
    (.fileBlock file (position found info.id).index)
    (FileBlock.mk info.id info.numberBytes (position found info.id).next) := by
  refine ⟨_, ?_, Record.decode_encode_fileBlock _⟩
  rw [Contents.write_apply, additions, Writes.apply_append, Writes.find?_apply_of_mem List.mem_cons_self (by simp)]
  rfl

theorem ensures_upsert_additions (lists : base.Lists file found) :
    Ensures base (upsert file block info replicas) .empty fun _ later =>
      ∃ merged, later = .apply .empty (additions file found { info with id := block } merged) := by
  refine .bind (.lift fun _ _ => .bind (.lift fun _ _ => .bind (.lift fun _ _ => ?_)))
  refine .bind (ensures_entries_listed ((Contents.write_empty base).symm ▸ lists) fun _ => .bind ?_)
  refine ensures_relinks (.bind (.put (.bind (.put (.bind (.bind ?_))))))
  refine .find? (fun _ => .put (.pure ?_)) fun bytes known _ _ => .put (.pure ?_)
  · exact ⟨_, by rw [additions, Writes.apply_append]; rfl⟩
  · exact ⟨_, by rw [additions, Writes.apply_append]; rfl⟩

/-- As indexes come round in the end, the one behind the last entry may be taken too. -/
def Contended (found : List ChainEntry) (block : Int64) : Prop :=
  (∃ entry ∈ found, entry.entry.blockId = block) ∨ ∃ last ∈ found.getLast?,
    last.entry.nextBlockId ≠ block ∨ ∃ entry ∈ found, entry.index = last.index + 1

instance (found : List ChainEntry) (block : Int64) : Decidable (Contended found block) :=
  inferInstanceAs (Decidable (_ ∨ _))

theorem position_cases (found : List ChainEntry) (block : Int64) :
    (∃ entry ∈ found, entry.entry.blockId = block ∧ (position found block).index = entry.index) ∨
      (∀ entry ∈ found, entry.entry.blockId ≠ block) ∧ (position found block).index = appendIndex found ∧
        (position found block).predecessor = found.getLast? := by
  cases here : found.find? (isFor block) with
  | some entry =>
    left
    have own : isFor block entry = true := List.find?_some here
    refine ⟨entry, List.mem_of_find?_eq_some here, by simpa [isFor] using own, ?_⟩
    rw [position, here]
  | none =>
    right
    refine ⟨fun entry member same => ?_, ?_, ?_⟩
    · exact List.find?_eq_none.1 here entry member (by simp [isFor, same])
    · rw [position, here]
    · rw [position, here]

theorem mem_of_predecessor {before : ChainEntry} (known : (position found block).predecessor = some before) :
    before ∈ found := by
  rw [position] at known
  split at known
  · exact (List.takeWhile_prefix _).subset (List.mem_of_getLast? known)
  · exact List.mem_of_getLast? known

theorem contended_iff : Contended found block ↔ ∃ entry ∈ found, entry.index = (position found block).index ∨
    (position found block).predecessor = some entry ∧ entry.entry.nextBlockId ≠ block := by
  rcases position_cases found block with ⟨own, member, same, place⟩ | ⟨absent, place, before⟩
  · constructor
    · exact fun _ => ⟨own, member, .inl place.symm⟩
    · exact fun _ => .inl ⟨own, member, same⟩
  · rw [place, before]
    constructor
    · rintro (⟨entry, member, same⟩ | ⟨last, known, named | ⟨entry, member, taken⟩⟩)
      · exact absurd same (absent entry member)
      · exact ⟨last, List.mem_of_getLast? known, .inr ⟨known, named⟩⟩
      · refine ⟨entry, member, .inl ?_⟩
        rw [appendIndex, known]
        exact taken
    · rintro ⟨entry, member, taken | ⟨known, named⟩⟩
      · obtain ⟨last, known⟩ : ∃ last, found.getLast? = some last :=
          ⟨_, List.getLast?_eq_some_getLast (List.ne_nil_of_mem member)⟩
        rw [appendIndex, known] at taken
        exact .inr ⟨last, known, .inr ⟨entry, member, taken⟩⟩
      · exact .inr ⟨entry, known, .inl named⟩

theorem meet_additions_iff : Crew.Meet (.apply .empty (additions file found info replicas))
    (.apply .empty (deletions file found links)) ↔ Contended found info.id := by
  rw [Crew.meet_apply, contended_iff]
  simp only [mem_additions, mem_deletions, exists_eq_left]
  constructor
  · rintro ⟨key, ⟨before, known, other, rfl⟩ | rfl | rfl | rfl, deleted⟩
    · exact ⟨before, mem_of_predecessor known, .inr ⟨known, other⟩⟩
    · obtain ⟨entry, member, same⟩ : ∃ entry ∈ found, (position found info.id).index = entry.index := by
        simpa using deleted
      exact ⟨entry, member, .inl same.symm⟩
    all_goals
      obtain ⟨entry, member, same⟩ : ∃ entry ∈ found, info.id = entry.entry.blockId := by simpa using deleted
      exact contended_iff.1 (.inl ⟨entry, member, same.symm⟩)
  · rintro ⟨entry, member, same | ⟨known, other⟩⟩
    · exact ⟨.fileBlock file entry.index, .inr (.inl (by rw [same])), .inl ⟨entry, member, .inl rfl⟩⟩
    · exact ⟨.fileBlock file entry.index, .inl ⟨entry, known, other, rfl⟩, .inl ⟨entry, member, .inl rfl⟩⟩

def Opposed (file : Int64) (found : List ChainEntry) (info : BlockMeta) (one two : Writes) : Prop :=
  ∃ links replicas,
    one = Writes.apply .empty (deletions file found links) ∧
        two = Writes.apply .empty (additions file found info replicas) ∨
      one = Writes.apply .empty (additions file found info replicas) ∧
        two = Writes.apply .empty (deletions file found links)

theorem Opposed.meet_iff {one two : Writes} (opposed : Opposed file found info one two) :
    Crew.Meet one two ↔ Contended found info.id := by
  obtain ⟨links, replicas, ⟨rfl, rfl⟩ | ⟨rfl, rfl⟩⟩ := opposed
  · rw [Crew.Meet.comm]
    exact meet_additions_iff
  · exact meet_additions_iff

theorem contended_numbered_iff {chain : List FileBlock} (linked : Linked chain) (positive : 0 < block) :
    Contended (numbered 0 chain) block ↔ chain ≠ [] := by
  constructor
  · rintro (⟨entry, member, _⟩ | ⟨last, known, _⟩) rfl
    · cases member
    · cases known
  · intro filled
    obtain ⟨front, last, rfl⟩ := List.eq_nil_or_concat' chain |>.resolve_left filled
    refine .inr ⟨_, getLast?_numbered_concat 0 front last, .inl ?_⟩
    have terminal : last.nextBlockId = 0 := by
      rw [linked.follows front.length last (by simp), idAt, getElem?_ids]
      simp
    dsimp only
    rw [terminal]
    exact Int64.ne_of_lt positive

-- The block was deleted from the chain, but the entry before it still names it.
example : ¬ Contended [{ index := 0, entry := { blockId := 10, numberBytes := 512, nextBlockId := 11 } }] 11 := by
  decide

/-- If they do not meet and both are done, the entry of the block is left without its file. -/
theorem Opposed.left {one two : Writes} (opposed : Opposed file found info one two)
    (apart : ¬ Contended found info.id) :
    ((base.write one).write two) (Key.inode file).bytes = none ∧
      ∃ next, ((base.write one).write two).Holds (.fileBlock file (position found info.id).index)
        (FileBlock.mk info.id info.numberBytes next) := by
  obtain ⟨links, replicas, written⟩ := opposed
  have kept : ¬ Writes.Touch (.apply .empty (additions file found info replicas)) (.inode file) := by
    intro touch
    have added := mem_additions.1 ((Writes.touch_apply.1 touch).resolve_right (by simp [Writes.Touch]))
    simp at added
  have spared : ¬ Writes.Touch (.apply .empty (deletions file found links))
      (.fileBlock file (position found info.id).index) := by
    intro touch
    have own : Writes.Touch (.apply .empty (additions file found info replicas))
        (.fileBlock file (position found info.id).index) :=
      Writes.touch_apply.2 (.inl (mem_additions.2 (.inr (.inl rfl))))
    exact apart (meet_additions_iff.1 ⟨_, own, touch⟩)
  rcases written with ⟨rfl, rfl⟩ | ⟨rfl, rfl⟩
  · refine ⟨?_, (position found info.id).next, holds_additions _⟩
    rw [Contents.write_of_not_touch kept]
    exact write_deletions base (inode_mem_deletions file found links)
  · refine ⟨write_deletions _ (inode_mem_deletions file found links), (position found info.id).next, ?_⟩
    rw [Contents.Holds, Contents.write_of_not_touch spared]
    exact holds_additions base

def add (file block : Int64) (info : BlockMeta) (replicas : BlockStorage) : Scoped Unit := do
  let _ ← upsert file block info replicas

open Crew (Event Steady Rivals Ran meanwhile opened run)

variable {τ : Type} {perform : τ → Scoped Unit}

theorem addition_conflicts_with_deletion_iff (confined : ∀ task, Scoped.Confined (perform task))
    (entries : List Journal.Entry) (journal : Option Journal.Log) (events between : List (Event τ))
    {first second : Nat} {one two : Session (Option τ)}
    (steady : Steady perform (opened entries journal)
      ((events ++ .commit first :: between) ++ [.commit second])) :
    let world := run perform (opened entries journal) events
    let last := meanwhile perform world first between
    let final := (Crew.act perform last (.commit second)).store.committed
    let conflict := ∃ error, (two.tx.commit last.store).1 = .error error ∧ error.kind = .conflict
    world.store.committed.Lists file found → Rivals perform world first second between one two →
    Ran perform one (Tree.deleteFile file) ∧ Ran perform two (add file block info replicas) ∨
      Ran perform one (add file block info replicas) ∧ Ran perform two (Tree.deleteFile file) →
    (world.store.logged one.tx).1 = .ok () →
      (one.tx.commit world.store).1 = .ok () ∧ (conflict ↔ Contended found block) ∧
      (conflict → final = world.store.committed.write one.tx.writes ∧
        (Ran perform one (Tree.deleteFile file) → final.Erased file found)) ∧
      (¬ conflict → (last.store.logged two.tx).1 = .ok () → (two.tx.commit last.store).1 = .ok () ∧
        final (Key.inode file).bytes = none ∧ ∃ next, final.Holds
          (.fileBlock file (position found block).index) (FileBlock.mk block info.numberBytes next)) := by
  intro world last final conflict lists rivals ran logged
  obtain ⟨steady, forward, _⟩ := Crew.steady_append steady
  rw [Crew.run_commit] at forward
  obtain ⟨tended, later⟩ := Crew.tended_rivals confined entries journal steady
  obtain ⟨succeeds, meets, free, alone⟩ := rivals.settle tended.sound later.sound logged
  have deletes : Ensures world.store.committed (Tree.deleteFile file) .empty fun _ writes =>
      ∃ links, writes = .apply .empty (deletions file found links) := ensures_deleteFile_deletions lists
  have adds : Ensures world.store.committed (add file block info replicas) .empty fun _ writes =>
      ∃ merged, writes = .apply .empty (additions file found { info with id := block } merged) :=
    .bind ((ensures_upsert_additions lists).mono fun _ _ added => .pure added)
  have erased (deleting : Ran perform one (Tree.deleteFile file)) :
      (world.store.committed.write one.tx.writes).Erased file found := by
    obtain ⟨links, same⟩ := rivals.holds_one tended deleting deletes
    rw [same]
    exact erased_of_deletions lists links
  -- Whichever of the two came first, their writes are those of an addition and of a deletion on one chain.
  have opposed : Opposed file found { info with id := block } one.tx.writes two.tx.writes := by
    rcases ran with ⟨deleting, adding⟩ | ⟨adding, deleting⟩
    · obtain ⟨links, deleted⟩ := rivals.holds_one tended deleting deletes
      obtain ⟨merged, added⟩ := rivals.holds_two tended later succeeds adding adds
      exact ⟨links, merged, .inl ⟨deleted, added⟩⟩
    · obtain ⟨merged, added⟩ := rivals.holds_one tended adding adds
      obtain ⟨links, deleted⟩ := rivals.holds_two tended later succeeds deleting deletes
      exact ⟨links, merged, .inr ⟨added, deleted⟩⟩
  have exact : conflict ↔ Contended found block := meets.trans opposed.meet_iff
  refine ⟨succeeds, exact, fun conflict => ⟨alone conflict, fun deleting => ?_⟩, fun clear accepted => ?_⟩
  · rw [show final = _ from alone conflict]
    exact erased deleting
  · have also := free clear accepted
    rw [show final = _ from rivals.committed_both tended.sound later.sound succeeds also forward]
    exact ⟨also, opposed.left (mt exact.2 clear)⟩

def memo : INode := { id := 2, name := "a", kind := .file, parentId := 1 }

def stocked : List Journal.Entry :=
  Tree.planted [memo] ++ [{ lsn := 2, commitTime := 2, timestamp := 0, operations := [
    .put (Key.fileBlock 2 0).bytes (Record.encode (FileBlock.mk 10 512 0)),
    .put (Key.blockMeta 10).bytes (Record.encode ({ id := 10, numberBytes := 512 } : BlockMeta)),
    .put (Key.blockStorage 10).bytes (Record.encode ({ id := 10 } : BlockStorage))] }]

theorem lists_stocked : (Contents.replay stocked).Lists 2 (numbered 0 [FileBlock.mk 10 512 0]) where
  ascending := List.pairwise_singleton _ _
  entries := by
    intro entry member
    obtain rfl := List.mem_singleton.1 member
    exact ⟨_, by decide +kernel, Record.decode_encode_fileBlock _⟩
  keyed := by
    intro key written begins
    refine ⟨_, List.mem_singleton_self _, ?_⟩
    have elsewhere (known : Key) (marker : known.marker ≠ .fileBlock) : key ≠ known.bytes := by
      rintro rfl
      exact marker (Key.marker_of_isPrefixOf begins)
    have replayed : Contents.replay stocked = (((Tree.plant .empty memo).put (.fileBlock 2 0)
        (some (Record.encode (FileBlock.mk 10 512 0)))).put (.blockMeta 10)
        (some (Record.encode ({ id := 10, numberBytes := 512 } : BlockMeta)))).put (.blockStorage 10)
        (some (Record.encode ({ id := 10 } : BlockStorage))) := rfl
    change key = (Key.fileBlock 2 0).bytes
    by_contra other
    have absent : Contents.replay stocked key = none := by
      rw [replayed]
      simp only [Contents.put, Tree.plant]
      rw [if_neg (elsewhere (.blockStorage 10) (by decide)), if_neg (elsewhere (.blockMeta 10) (by decide)),
        if_neg other, if_neg (elsewhere (.child memo.parentId memo.name) (by decide)),
        if_neg (elsewhere (.inode memo.id) (by decide))]
      rfl
    rw [absent] at written
    cases written

-- One deletes the file, the other one puts a block behind the others.
def fileWork : Bool → Scoped Unit
  | true => Tree.deleteFile 2
  | false => add 2 11 { numberBytes := 512 } {}

theorem confined_fileWork (task : Bool) : Scoped.Confined (fileWork task) := by
  cases task with
  | true => exact (Tree.only_deleteFile 2).anything.confined
  | false => exact ((only_upsert 2 11 _ _).bind fun _ => .pure ()).anything.confined

-- The block is put into the chain while the file is there, and the file is deleted before that is committed.
theorem addition_conflicts_with_deletion_iff_late :
    let world := run fileWork (opened stocked none) [.begin, .begin, .perform 0 true .never [] false]
    let last := meanwhile fileWork world 0 [.perform 1 false .never [] false]
    ∃ two, last.sessions[1]? = some two ∧
      (∃ error, (two.tx.commit last.store).1 = .error error ∧ error.kind = .conflict) ∧
      (Crew.act fileWork last (.commit 1)).store.committed.Erased 2 (numbered 0 [FileBlock.mk 10 512 0]) := by
  intro world last
  have steady : Steady fileWork (opened stocked none)
      (([.begin, .begin, .perform 0 true .never [] false] ++ .commit 0 :: [.perform 1 false .never [] false]) ++
        [.commit 1]) := Crew.steady_of_length_lt (by decide)
  obtain ⟨one, two, rivals, deleting, adding⟩ : ∃ one two,
      Rivals fileWork world 0 1 [.perform 1 false .never [] false] one two ∧
        one.note = some true ∧ two.note = some false :=
    Crew.exists_rivals (by decide) (by decide +kernel) (by decide +kernel)
  have same : world.store.committed = Contents.replay stocked :=
    Crew.committed_of_quiet confined_fileWork _ _ (Crew.steady_of_length_lt (by decide)) (by decide)
  have deletes : Ran fileWork one (Tree.deleteFile 2) := ⟨true, deleting, rfl⟩
  obtain ⟨_, exact, excludes, _⟩ := addition_conflicts_with_deletion_iff confined_fileWork stocked none _ _ steady
    (same ▸ lists_stocked) rivals (.inl ⟨deletes, false, adding, rfl⟩)
    (Crew.logged_of_unjournaled (by decide +kernel) _)
  have linked : Linked [FileBlock.mk 10 512 0] := linked_single (by decide) 512
  have conflict := exact.2 ((contended_numbered_iff linked (by decide)).2 (List.cons_ne_nil _ _))
  exact ⟨two, rivals.trails, conflict, (excludes conflict).2 deletes⟩

-- In the chain there is no entry yet.
theorem both_committed_of_empty :
    let world := run fileWork (opened (Tree.planted [memo]) none)
      [.begin, .begin, .perform 0 true .never [] false, .perform 1 false .never [] false, .commit 0, .commit 1]
    (Contents.replay (Tree.planted [memo])).Holds (.inode 2) memo ∧
      world.commits.map (·.session.note) = [some true, some false] ∧
      world.store.committed (Key.inode 2).bytes = none ∧
      world.store.committed (Key.fileBlock 2 0).bytes = some (Record.encode (FileBlock.mk 11 512 0)) :=
  ⟨⟨_, by decide +kernel, Record.decode_encode_inode ⟨by decide, by decide, by decide⟩⟩, by decide +kernel,
    by decide +kernel, by decide +kernel⟩

end Chain

end FsMeta

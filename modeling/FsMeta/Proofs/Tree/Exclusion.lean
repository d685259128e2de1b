import FsMeta.Proofs.Store.Rivals
import FsMeta.Proofs.Tree.Moves
import FsMeta.Proofs.Tree.Walk

set_option autoImplicit false

/-!
Deleting a directory while others put something below it. Whoever deletes it writes the inode of every
directory below, at any depth; whoever puts an inode into a directory writes the inode of that directory,
even if it stays as it is. So the two run into each other.
-/
namespace FsMeta

namespace Writes

variable {writes later : Writes} {key : Key}

theorem touch_insert_bytes (touch : writes.Touch key) (bytes : Bytes) (value : Option Bytes) :
    Touch (writes.insert bytes value) key := by
  rw [Touch, Table.find?_insert]
  split
  · rfl
  · exact touch

theorem Extended.touch {allowed : Bytes → Option Bytes → Prop} (extended : writes.Extended allowed later)
    (touch : writes.Touch key) : later.Touch key := by
  rcases extended key.bytes with same | ⟨value, written, _⟩
  · rwa [Touch, same]
  · rw [Touch, written]
    rfl

end Writes

namespace Contents

def Below (contents : Contents) (id child : Int64) : Prop :=
  ∃ (name : String) (node : INode), contents.Holds (.child id name) (ChildLink.mk child) ∧
    contents.Holds (.inode child) node ∧ node.kind = .directory

end Contents

namespace Tree

open Contents (Below Thinned)
open Scoped (Ensures)

variable {base : Contents} {writes later : Writes} {root id : Int64} {removal after : Removal}
variable {key value : Bytes} {left : List (Bytes × Bytes)} {node : INode}

theorem Tied.identified {contents : Contents} {hand : List Int64} {whole : Prop}
    (tied : Tied contents hand whole) : contents.Identified :=
  fun _ _ ⟨_, held, decoded⟩ => (tied.kept.inode_of_decode held decoded).2.own

def Removal.Found (removal : Removal) (id : Int64) : Prop := id ∈ removal.pending ∨ id ∈ removal.visited

namespace Removed

theorem touch (removed : Removed base writes removal key id after later) {place : Key}
    (touch : writes.Touch place) : later.Touch place := by
  cases removed with
  | absent | visited => exact Writes.touch_insert_bytes touch _ _
  | file _ _ discarded =>
    exact Writes.touch_insert_bytes (Writes.touch_insert_bytes (discarded.touch touch) _ _) _ _
  | directory => exact Writes.touch_insert_bytes (Writes.touch_insert_bytes touch _ _) _ _

theorem found (removed : Removed base writes removal key id after later) {other : Int64}
    (found : removal.Found other) : after.Found other := by
  cases removed with
  | absent | visited | file => exact found
  | directory => exact found.imp_left fun member => List.mem_cons_of_mem _ member

theorem found_cases (removed : Removed base writes removal key id after later) {other : Int64}
    (found : after.Found other) : removal.Found other ∨ later.Touch (.inode other) := by
  cases removed with
  | absent | visited | file => exact .inl found
  | directory =>
    rcases found with member | visited
    · rcases List.mem_cons.1 member with rfl | member
      · exact .inr (Writes.touch_insert_bytes (Writes.touch_insert_self _ _ _) _ _)
      · exact .inl (.inl member)
    · exact .inl (.inr visited)

theorem unchanged (removed : Removed base writes removal key id after later)
    (identified : (base.write writes).Identified)
    (place : Key) (tree : place.OnTree) (other : place.bytes ≠ key) (apart : place ≠ .inode id) :
    base.write later place.bytes = base.write writes place.bytes := by
  have inode : place.bytes ≠ (Key.inode id).bytes := fun same => apart (Key.bytes_injective same)
  cases removed with
  | absent | visited => rw [Contents.write_insert_none, Contents.drop_other other]
  | file held _ discarded =>
    rw [Contents.write_insert_none, Contents.drop_other other, Contents.write_insert_none, identified _ _ held,
      Contents.drop_other inode]
    exact Contents.eq_of_offTree base (discarded.mono fun _ _ => And.left) tree
  | directory held =>
    rw [Contents.write_insert_none, Contents.drop_other other, Contents.write_insert_none, identified _ _ held,
      Contents.drop_other inode]

end Removed

/-- The walk has found every directory that a link leads to which it has passed, and has written its inode.
Of the others the inodes and links are as they were. -/
structure Covering (base : Contents) (root : Int64) (removal : Removal) (left : List (Bytes × Bytes))
    (writes : Writes) : Prop where
  thinned : Thinned base (base.write writes)
  started : removal.Found root
  waits : ∀ (id : Int64) (node : INode), base.Holds (.inode id) node → node.kind = .directory →
    ¬ removal.Found id → (base.write writes).Holds (.inode id) node
  links : ∀ id ∉ removal.visited, ∀ name,
    base.write writes (Key.child id name).bytes = base (Key.child id name).bytes
  passed : ∀ id ∈ removal.visited, ∀ (name : String) (value : Bytes) (link : ChildLink) (node : INode),
    base (Key.child id name).bytes = some value → Record.decode value = .ok link →
    base.Holds (.inode link.id) node → node.kind = .directory →
      removal.Found link.id ∨ ((Key.child id name).bytes, value) ∈ left
  wrote : ∀ id, removal.Found id → id = root ∨ writes.Touch (.inode id)

namespace Covering

theorem start (base : Contents) (root : Int64) : Covering base root { pending := [root] } [] .empty where
  thinned := by
    rw [Contents.write_empty]
    exact .refl base
  started := .inl List.mem_cons_self
  waits := by
    intro id node held _ _
    rwa [Contents.write_empty]
  links := fun _ _ _ => congrFun (Contents.write_empty base) _
  passed := by simp
  wrote := by simp [Removal.Found]

theorem finds (covering : Covering base root removal ((key, value) :: left) writes) (identified : base.Identified)
    (removed : Removed base writes removal key id after later) (held : base.Holds (.inode id) node)
    (kind : node.kind = .directory) : after.Found id := by
  by_cases known : removal.Found id
  · exact removed.found known
  have still : (base.write writes).Holds (.inode id) node := covering.waits id node held kind known
  have own := identified id node held
  cases removed with
  | absent gone =>
    obtain ⟨bytes, stored, _⟩ := still
    rw [gone] at stored
    cases stored
  | file also file =>
    rw [also.unique still, kind] at file
    cases file
  | visited also _ visited =>
    rw [also.unique still, own] at visited
    exact .inr visited
  | directory also =>
    rw [also.unique still, own]
    exact .inl List.mem_cons_self

theorem removes (covering : Covering base root removal ((key, value) :: left) writes) (identified : base.Identified)
    {opened : Int64} (visited : opened ∈ removal.visited) (begins : (Key.children opened).isPrefixOf key = true)
    {link : ChildLink} (decoded : Record.decode value = .ok link)
    (removed : Removed base writes removal key link.id after later) : Covering base root after left later := by
  have still := covering.thinned.identified identified
  constructor
  · exact covering.thinned.trans removed.thinned
  · exact removed.found covering.started
  · intro id node held kind unknown
    have before := covering.waits id node held kind fun known => unknown (removed.found known)
    have apart : Key.inode id ≠ .inode link.id := by
      rintro ⟨⟩
      exact unknown (covering.finds identified removed held kind)
    have other : (Key.inode id).bytes ≠ key := by
      rintro rfl
      cases Key.marker_of_isPrefixOf begins
    rwa [Contents.Holds, removed.unchanged still (.inode id) trivial other apart]
  · intro id unvisited name
    rw [removed.visited_eq] at unvisited
    have other : (Key.child id name).bytes ≠ key := by
      rintro rfl
      obtain rfl : id = opened := Key.owner_of_isPrefixOf begins
      exact unvisited visited
    rw [removed.unchanged still (.child id name) trivial other (by simp), covering.links id unvisited]
  · intro id passed name stored other node held known directory kind
    rw [removed.visited_eq] at passed
    -- The child behind this link was still to be removed, and is found now; the others keep waiting.
    rcases covering.passed id passed name stored other node held known directory kind with found | listed
    · exact .inl (removed.found found)
    · rcases List.mem_cons.1 listed with same | listed
      · cases same
        rw [decoded] at known
        cases known
        exact .inl (covering.finds identified removed directory kind)
      · exact .inr listed
  · intro id found
    rcases removed.found_cases found with before | touch
    · exact (covering.wrote id before).imp_right removed.touch
    · exact .inr touch

theorem opens (covering : Covering base root removal [] writes) {rest : List Int64}
    {pairs : List (Bytes × Bytes)} (pending : removal.pending = id :: rest) (fresh : id ∉ removal.visited)
    (members : ∀ key value, (key, value) ∈ pairs ↔
      base.write writes key = some value ∧ (Key.children id).isPrefixOf key = true) :
    Covering base root { removal with pending := rest, visited := id :: removal.visited } pairs writes := by
  have moved (other : Int64) :
      Removal.Found { removal with pending := rest, visited := id :: removal.visited } other ↔
      removal.Found other := by
    simp only [Removal.Found, pending, List.mem_cons]
    tauto
  constructor
  · exact covering.thinned
  · exact (moved root).2 covering.started
  · exact fun other node held kind unknown => covering.waits other node held kind (mt (moved other).2 unknown)
  · exact fun other unvisited => covering.links other (mt (List.mem_cons_of_mem _) unvisited)
  · intro other visited name value link node stored decoded held kind
    rcases List.mem_cons.1 visited with rfl | visited
    · refine .inr ((members _ _).2 ⟨?_, Key.begins (.child _ _)⟩)
      rwa [covering.links other fresh]
    · have found := covering.passed other visited name value link node stored decoded held kind
      exact .inl ((moved _).2 (found.resolve_right List.not_mem_nil))
  · exact fun other found => covering.wrote other ((moved other).1 found)

theorem skips (covering : Covering base root removal [] writes) {rest : List Int64}
    (pending : removal.pending = id :: rest) (visited : id ∈ removal.visited) :
    Covering base root { removal with pending := rest } [] writes := by
  have moved (other : Int64) : Removal.Found { removal with pending := rest } other ↔ removal.Found other := by
    simp only [Removal.Found, pending, List.mem_cons]
    constructor
    · tauto
    · rintro ((rfl | member) | member)
      · exact .inr visited
      · exact .inl member
      · exact .inr member
  constructor
  · exact covering.thinned
  · exact (moved root).2 covering.started
  · exact fun other node held kind unknown => covering.waits other node held kind (mt (moved other).2 unknown)
  · exact covering.links
  · intro other visited name value link node stored decoded held kind
    have found := covering.passed other visited name value link node stored decoded held kind
    exact .inl ((moved _).2 (found.resolve_right List.not_mem_nil))
  · exact fun other found => covering.wrote other ((moved other).1 found)

theorem touch_below (covering : Covering base root removal [] writes) (done : removal.pending = [])
    {place : Int64} (below : Relation.ReflTransGen base.Below root place) :
    place = root ∨ writes.Touch (.inode place) := by
  have all (id : Int64) (found : removal.Found id) : id ∈ removal.visited := by
    rcases found with member | visited
    · rw [done] at member
      cases member
    · exact visited
  suffices removal.Found place from covering.wrote place this
  induction below with
  | refl => exact covering.started
  | tail _ step ih =>
    obtain ⟨name, node, ⟨value, stored, decoded⟩, held, kind⟩ := step
    exact (covering.passed _ (all _ ih) name value _ node stored decoded held kind).resolve_right List.not_mem_nil

end Covering

theorem keeps_covering (identified : base.Identified) : Keeps base (Covering base root) where
  skips _ _ _ _ pending visited covering := covering.skips pending visited
  opens _ _ _ _ _ pending fresh members covering := covering.opens pending fresh members
  removes _ _ _ _ _ _ _ _ _ visited begins decoded removed covering :=
    covering.removes identified visited begins decoded removed

theorem ensures_deleteDirectory_touches (identified : base.Identified) {place : Int64}
    (below : Relation.ReflTransGen base.Below root place) :
    Ensures base (deleteDirectory root) .empty fun _ writes => writes.Touch (.inode place) := by
  refine .bind (.bind (.lift fun _ _ => ensures_find fun node _ => ?_))
  dsimp only
  split
  · exact .bind .throw
  · refine .bind (.visibleCount_le fun count counts => .bind ?_)
    rw [Contents.write_empty] at counts
    have pushing : Pushing base (base.write .empty) [] := by
      rw [Contents.write_empty]
      exact .start base
    refine (ensures_removeBelow_walk (keeps_covering identified) identified counts pushing (.start base root)
      (by simp; omega)).mono ?_
    intro after between ⟨done, covering⟩
    have touch : Writes.Touch (between.insert (Key.inode root).bytes none) (.inode place) := by
      rcases covering.touch_below done below with rfl | touch
      · exact Writes.touch_insert_self _ _ _
      · exact Writes.touch_insert touch
    refine .bind (.delete (.bind ?_))
    exact (only_unlink node base _).mono fun _ _ extended => .pure (extended.touch touch)

inductive Adds (place : Int64) : Scoped Unit → Prop
  | creates (node : INode) (parent : node.parentId = place) : Adds place (create node)
  | moves (id source : Int64) (differ : source ≠ place) : Adds place (reparent id source place)

theorem Adds.ensures_touches {place : Int64} {action : Scoped Unit} (adds : Adds place action)
    (held : base.Holds (.inode place) node) :
    Ensures base action .empty fun _ writes => writes.Touch (.inode place) := by
  cases adds with
  | creates created parent =>
    subst parent
    refine ensures_create_writes fun between touched _ _ prepared _ touch => ?_
    have still : (base.write between).Holds (.inode created.parentId) node := by
      rwa [Contents.Holds, prepared.inodes, Contents.write_empty]
    exact Writes.touch_insert (Writes.touch_insert (touch node still))
  | moves id source differ =>
    refine ensures_reparent_relocated.mono fun _ later result => ?_
    rcases result with ⟨_, same⟩ | ⟨_, _, _, touch⟩
    · exact absurd same differ
    · exact touch

def clear (root : Int64) : Scoped Unit := do
  let _ ← deleteDirectory root

open Crew (Event Steady Rivals Ran meanwhile opened run)

variable {τ : Type} {perform : τ → Scoped Unit}

/-- Of what is stored nothing is asked but that each inode is stored under its own id. -/
theorem addition_conflicts_with_deletion (confined : ∀ task, Scoped.Confined (perform task))
    (entries : List Journal.Entry) (journal : Option Journal.Log) (events between : List (Event τ))
    {first second : Nat} {one two : Session (Option τ)} {root place : Int64} {adds : Scoped Unit} {node : INode}
    (steady : Steady perform (opened entries journal) (events ++ .commit first :: between)) :
    let world := run perform (opened entries journal) events
    let last := meanwhile perform world first between
    world.store.committed.Identified → Relation.ReflTransGen world.store.committed.Below root place →
    world.store.committed.Holds (.inode place) node → Adds place adds →
    Rivals perform world first second between one two →
    Ran perform one (clear root) ∧ Ran perform two adds ∨ Ran perform one adds ∧ Ran perform two (clear root) →
    (world.store.logged one.tx).1 = .ok () →
      (one.tx.commit world.store).1 = .ok () ∧
        (∃ error, (two.tx.commit last.store).1 = .error error ∧ error.kind = .conflict) ∧
        (Crew.act perform last (.commit second)).store.committed =
          world.store.committed.write one.tx.writes := by
  intro world last identified below held puts rivals ran logged
  obtain ⟨tended, later⟩ := Crew.tended_rivals confined entries journal steady
  obtain ⟨succeeds, conflict, _, alone⟩ := rivals.settle tended.sound later.sound logged
  have deletes : Ensures world.store.committed (clear root) .empty fun _ writes => writes.Touch (.inode place) :=
    .bind ((ensures_deleteDirectory_touches identified below).mono fun _ _ touch => .pure touch)
  have touches := puts.ensures_touches held
  have meet : Crew.Meet one.tx.writes two.tx.writes := by
    refine ⟨(Key.inode place).bytes, ?_⟩
    rcases ran with ⟨deleting, adding⟩ | ⟨adding, deleting⟩
    · exact ⟨rivals.holds_one tended deleting deletes, rivals.holds_two tended later succeeds adding touches⟩
    · exact ⟨rivals.holds_one tended adding touches, rivals.holds_two tended later succeeds deleting deletes⟩
  exact ⟨succeeds, conflict.2 meet, alone (conflict.2 meet)⟩

-- One deletes a branch and the other puts a directory at its end.
def branchWork : Bool → Scoped Unit
  | true => clear 2
  | false => create (directory 6 4 "e")

theorem confined_branchWork (task : Bool) : Scoped.Confined (branchWork task) := by
  cases task with
  | true => exact ((only_deleteDirectory 2).anything.bind fun _ => .pure ()).confined
  | false => exact (only_create _).anything.confined

-- The addition is begun before the deletion is committed, and done after it.
theorem addition_conflicts_with_deletion_late :
    let world := run branchWork (opened (planted branches) none) [.begin, .begin, .perform 0 true .never [] false]
    let last := meanwhile branchWork world 0 [.perform 1 false .never [] false]
    ∃ one two, world.sessions[0]? = some one ∧ last.sessions[1]? = some two ∧
      (one.tx.commit world.store).1 = .ok () ∧
      (∃ error, (two.tx.commit last.store).1 = .error error ∧ error.kind = .conflict) ∧
      (Crew.act branchWork last (.commit 1)).store.committed = world.store.committed.write one.tx.writes := by
  intro world last
  have steady : Steady branchWork (opened (planted branches) none)
      ([.begin, .begin, .perform 0 true .never [] false] ++ .commit 0 :: [.perform 1 false .never [] false]) := by
    decide +kernel
  obtain ⟨one, two, rivals, deleting, adding⟩ : ∃ one two,
      Rivals branchWork world 0 1 [.perform 1 false .never [] false] one two ∧
        one.note = some true ∧ two.note = some false :=
    Crew.exists_rivals (by decide) (by decide +kernel) (by decide +kernel)
  have same : world.store.committed = Contents.replay (planted branches) :=
    Crew.committed_of_quiet confined_branchWork _ _ (Crew.steady_append steady).1 (by decide)
  have held : world.store.committed.Holds (.inode 4) (directory 4 2 "c") :=
    holds_directory (by decide) (by decide +kernel)
  have below : world.store.committed.Below 2 4 :=
    ⟨"c", _, ⟨Record.encode (ChildLink.mk 4), by decide +kernel, Record.decode_encode_link _⟩, held, rfl⟩
  refine ⟨one, two, rivals.leads, rivals.trails, ?_⟩
  exact addition_conflicts_with_deletion confined_branchWork (planted branches) none _ _ steady
    (same ▸ grown_branches.tied.identified) (.single below) held (.creates _ rfl) rivals
    (.inl ⟨⟨true, deleting, rfl⟩, false, adding, rfl⟩) (Crew.logged_of_unjournaled (by decide +kernel) _)

end Tree

end FsMeta

import FsMeta.Proofs.Store.Crew
import FsMeta.Proofs.Tree.Acyclicity

set_option autoImplicit false

/-!
Moves side by side. Each looks at the way up from its destination in its own snapshot, but writes only
the inode and the destination. So two moves may each put its inode below the other's, and both commit.
-/
namespace FsMeta.Tree

structure Move where
  id : Int64
  source : Int64
  destination : Int64
  deriving DecidableEq

namespace Move

open Contents (Moved Relocated)

variable {old now : Contents} {move : Move} {writes : Writes} {since : List (Move × Writes)}

def perform (move : Move) : Scoped Unit := reparent move.id move.source move.destination

def Goes (move : Move) : Prop := move.source ≠ move.destination

instance decidableGoes (move : Move) : Decidable move.Goes := inferInstanceAs (Decidable (_ ≠ _))

def Does (old : Contents) (move : Move) (writes : Writes) : Prop :=
  writes = .empty ∧ ¬ move.Goes ∨
    move.Goes ∧ Relocated old (old.write writes) move.id move.destination ∧ writes.Touch (.inode move.id)

/-- Of what was moved since, nothing is on the way up from the destination. -/
def Uncrossed (old : Contents) (move : Move) (since : List Move) : Prop :=
  ∀ other ∈ since, other.Goes → ¬ old.Reaches move.destination other.id

def Turn (now : Contents) (move : Move) (writes : Writes) : Prop :=
  ∀ id, ¬ (move.Goes ∧ move.id = id) → ∀ node : INode,
    (now.write writes).Holds (.inode id) node ↔ now.Holds (.inode id) node

theorem ensures_perform (old : Contents) (move : Move) :
    Scoped.Ensures old move.perform .empty fun _ writes => Does old move writes := by
  apply ensures_reparent_relocated.mono
  rw [Contents.write_empty]
  rintro _ writes (⟨rfl, stays⟩ | ⟨goes, relocated, touch, _⟩)
  · exact .inl ⟨rfl, fun goes => goes stays⟩
  · exact .inr ⟨goes, relocated, touch⟩

theorem holds_of_passage (passage : Crew.Passage Turn old since now) {id : Int64}
    (unmoved : ∀ other ∈ since.map Prod.fst, other.Goes → id ≠ other.id) (node : INode) :
    now.Holds (.inode id) node ↔ old.Holds (.inode id) node := by
  induction passage with
  | refl => rfl
  | @step since now other writes _ turn ih =>
    simp only [List.map_append, List.mem_append] at unmoved
    have apart : ¬ (other.Goes ∧ other.id = id) := fun ⟨goes, same⟩ =>
      unmoved other (.inr (by simp)) goes same.symm
    rw [turn id apart]
    exact ih fun other member => unmoved other (.inl member)

-- The way up from the destination is the one that was there in the snapshot.
theorem reaches_of_passage (passage : Crew.Passage Turn old since now)
    (uncrossed : Uncrossed old move (since.map Prod.fst)) {top : Int64}
    (reaches : now.Reaches move.destination top) : old.Reaches move.destination top := by
  induction reaches with
  | refl => exact .refl
  | @tail place above _ step ih =>
    obtain ⟨node, held, named⟩ := step
    have unmoved : ∀ other ∈ since.map Prod.fst, other.Goes → place ≠ other.id := by
      rintro other member goes rfl
      exact uncrossed other member goes ih
    exact ih.tail ⟨node, (holds_of_passage passage unmoved node).1 held, named⟩

/-- A move that runs into nothing can be made on what the others have left, and closes no cycle there if
none of them has crossed it. -/
theorem publish (owned : old.Owned) (acyclic : old.Acyclic) (nowOwned : now.Owned) (nowAcyclic : now.Acyclic)
    (passage : Crew.Passage Turn old since now) (does : Does old move writes)
    (uncrossed : move.Goes → Uncrossed old move (since.map Prod.fst))
    (clear : ∀ deed ∈ since, ∀ key, (writes.find? key).isSome → deed.2.find? key = none) :
    ((now.write writes).Owned ∧ (now.write writes).Acyclic) ∧ Turn now move writes := by
  rcases does with ⟨rfl, stays⟩ | ⟨goes, relocated, touch⟩
  · rw [Turn, Contents.write_empty]
    exact ⟨⟨nowOwned, nowAcyclic⟩, fun _ _ _ => .rfl⟩
  · have same {key : Key} (touch : writes.Touch key) : now key.bytes = old key.bytes :=
      passage.unwritten fun deed member => clear deed member key.bytes touch
    have others (id : Int64) (differ : id ≠ move.id) (node : INode) :
        (now.write writes).Holds (.inode id) node ↔ now.Holds (.inode id) node :=
      Contents.holds_write_of_same same (relocated.others id differ node)
    obtain ⟨node, before, after⟩ := relocated.found
    have own : (now.write writes).Holds (.inode move.id) { node with parentId := move.destination } := by
      obtain ⟨bytes, held, decoded⟩ := after
      exact ⟨bytes, (Contents.write_of_touch touch).trans held, decoded⟩
    have moved : Moved now (now.write writes) move.id move.destination := Contents.moved_of_holds own others
    have turns : Turn now move writes := fun id apart => others id fun equal => apart ⟨goes, equal.symm⟩
    refine ⟨⟨?_, ?_⟩, turns⟩
    · exact Contents.owned_of_holds nowOwned own (owned move.id node before) others
    · rw [moved.acyclic_iff nowAcyclic]
      intro reaches
      exact relocated.apart owned acyclic (reaches_of_passage passage (uncrossed goes) reaches)

def discipline : Crew.Discipline perform where
  State contents := contents.Owned ∧ contents.Acyclic
  Does := Does
  Fair old move since := move.Goes → Uncrossed old move since
  turn := Turn
  confined move := (only_reparent move.id move.source move.destination).anything.confined
  performs old move _ := ensures_perform old move
  publishes _ _ _ _ _ old now passage does fair clear :=
    publish old.1 old.2 now.1 now.2 passage does fair clear

end Move

/-- A tree that has grown one inode after another, each below a lower id. -/
structure Grown (contents : Contents) : Prop where
  tied : Tied contents [] True
  lower : ∀ (id : Int64) (node : INode), contents.HasInode id node → node.parentId < id

namespace Grown

variable {contents : Contents} {node : INode}

theorem empty : Grown .empty where
  tied :=
    { kept := Contents.kept_empty
      down := fun _ _ _ _ link => (by cases link)
      up := fun _ _ _ _ inode => (by cases inode.1) }
  lower _ _ inode := by cases inode.1

theorem owned (grown : Grown contents) : contents.Owned := by
  rintro id node ⟨bytes, held, decoded⟩
  have inode := grown.tied.kept.inode_of_decode held decoded
  exact ⟨inode.2.own, Int64.lt_trans inode.2.parent (grown.lower id node inode)⟩

theorem lower_of_parent (grown : Grown contents) {id parent : Int64} (step : contents.Parent id parent) :
    parent < id := by
  obtain ⟨node, ⟨bytes, held, decoded⟩, rfl⟩ := step
  exact grown.lower id node (grown.tied.kept.inode_of_decode held decoded)

theorem lower_of_climb (grown : Grown contents) {id top : Int64}
    (climbs : Relation.TransGen contents.Parent id top) : top < id := by
  induction climbs with
  | single step => exact grown.lower_of_parent step
  | tail _ step ih => exact Int64.lt_trans (grown.lower_of_parent step) ih

theorem acyclic (grown : Grown contents) : contents.Acyclic :=
  fun _ cycle => Int64.lt_irrefl (grown.lower_of_climb cycle)

end Grown

def plant (contents : Contents) (node : INode) : Contents :=
  (contents.put (.inode node.id) (some (Record.encode node))).put (.child node.parentId node.name)
    (some (Record.encode (ChildLink.mk node.id)))

theorem hasInode_plant {contents : Contents} {node found : INode} {id : Int64} (placed : node.Placed node.id) :
    (plant contents node).HasInode id found ↔
      if id = node.id then found = node else contents.HasInode id found := by
  rw [plant, Contents.hasInode_put (by simp)]
  split
  · rename_i same
    subst same
    have own : (contents.put (.inode node.id) (some (Record.encode node))).HasInode node.id node :=
      Contents.hasInode_put_self placed
    exact ⟨fun inode => inode.unique own, fun same => same ▸ own⟩
  · rename_i differ
    exact Contents.hasInode_put (by simpa using differ)

theorem hasLink_plant {contents : Contents} {node : INode} {parent id : Int64} {name : String} :
    (plant contents node).HasLink parent name id ↔
      if parent = node.parentId ∧ name = node.name then id = node.id else contents.HasLink parent name id := by
  rw [plant]
  split
  · rename_i same
    obtain ⟨rfl, rfl⟩ := same
    exact ⟨fun link => link.unique Contents.hasLink_put_self, fun same => same ▸ Contents.hasLink_put_self⟩
  · rename_i differ
    rw [Contents.hasLink_put (by simpa using differ), Contents.hasLink_put (by simp)]

theorem Grown.plant {contents : Contents} {node : INode} (grown : Grown contents)
    (placed : node.Placed node.id) (lower : node.parentId < node.id)
    (free : contents (Key.inode node.id).bytes = none)
    (vacant : contents (Key.child node.parentId node.name).bytes = none) : Grown (plant contents node) := by
  constructor
  · constructor
    · exact (grown.tied.kept.put_inode placed).put_link _ _ _
    · -- A link is the new one or an old one, and an old one does not lead to the new inode: its id was free.
      intro parent name id hand link
      rw [hasLink_plant] at link
      split at link
      · rename_i same
        obtain ⟨rfl, rfl⟩ := same
        subst link
        exact ⟨node, (hasInode_plant placed).2 (by simp), rfl, rfl⟩
      · obtain ⟨found, inode, named⟩ := grown.tied.down parent name id hand link
        have differ : id ≠ node.id := by
          rintro rfl
          exact absurd inode.1 (by simp [free])
        exact ⟨found, (hasInode_plant placed).2 (by simpa [differ] using inode), named⟩
    · intro full id found hand inode
      rw [hasInode_plant placed] at inode
      rw [hasLink_plant]
      split at inode
      · rename_i same
        subst same inode
        simp
      · have link := grown.tied.up full id found hand inode
        have differ : ¬ (found.parentId = node.parentId ∧ found.name = node.name) := by
          rintro ⟨parent, name⟩
          rw [parent, name] at link
          exact absurd link (by simp [Contents.HasLink, vacant])
        rwa [if_neg differ]
  · intro id found inode
    rw [hasInode_plant placed] at inode
    split at inode
    · rename_i same
      subst same inode
      exact lower
    · exact grown.lower id found inode

open Crew (Event Steady Committed opened run)

theorem acyclic_of_uncrossed (entries : List Journal.Entry) (journal : Option Journal.Log)
    (events : List (Event Move)) (steady : Steady Move.perform (opened entries journal) events)
    (owned : (Contents.replay entries).Owned) (acyclic : (Contents.replay entries).Acyclic)
    (uncrossed : Committed (Contents.replay entries) (run Move.perform (opened entries journal) events).commits
      fun old move since => move.Goes → move.Uncrossed old since) :
    (run Move.perform (opened entries journal) events).store.committed.Acyclic :=
  (Move.discipline.state_run entries journal steady ⟨owned, acyclic⟩ uncrossed).2

def planted (nodes : List INode) : List Journal.Entry :=
  [{ lsn := 1, commitTime := 1, timestamp := 0, operations := nodes.flatMap fun node =>
    [.put (Key.inode node.id).bytes (Record.encode node),
      .put (Key.child node.parentId node.name).bytes (Record.encode (ChildLink.mk node.id))] }]

theorem replay_planted (nodes : List INode) :
    Contents.replay (planted nodes) = nodes.foldl plant .empty := by
  simp only [Contents.replay, planted, List.flatMap_cons, List.flatMap_nil, List.append_nil, List.foldl_flatMap]
  rfl

def branches : List INode := [directory 2 1 "a", directory 3 1 "b", directory 4 2 "c", directory 5 3 "d"]

theorem grown_branches : Grown (Contents.replay (planted branches)) := by
  have place (id parent : Int64) (name : String) (positive : 0 < parent) (named : name.isEmpty = false)
      (short : (Utf8.encode name).length < UInt64.size) : (directory id parent name).Placed id :=
    ⟨rfl, positive, named, sized_directory short⟩
  rw [replay_planted]
  have one := Grown.empty.plant (place 2 1 "a" (by decide) rfl (by decide)) (by decide) (by decide) (by decide)
  have two := one.plant (place 3 1 "b" (by decide) rfl (by decide)) (by decide)
    (by decide +kernel) (by decide +kernel)
  have three := two.plant (place 4 2 "c" (by decide) rfl (by decide)) (by decide)
    (by decide +kernel) (by decide +kernel)
  exact three.plant (place 5 3 "d" (by decide) rfl (by decide)) (by decide)
    (by decide +kernel) (by decide +kernel)

def together (first second : Move) : List (Event Move) :=
  [.begin, .begin, .perform 0 first .never [] false, .perform 1 second .never [] false, .commit 0, .commit 1]

-- The inner directories change places.
theorem acyclic_of_uncrossed_branches :
    let world := run Move.perform (opened (planted branches) none) (together ⟨4, 2, 3⟩ ⟨5, 3, 2⟩)
    world.commits.length = 2 ∧ world.store.committed.Acyclic := by
  intro world
  have known : world.commits.map (fun commit => (commit.session.note, commit.session.born)) =
      [(some ⟨4, 2, 3⟩, 0), (some ⟨5, 3, 2⟩, 0)] := by decide +kernel
  have length : world.commits.length = 2 := by decide +kernel
  refine ⟨length, acyclic_of_uncrossed (planted branches) none _ (by decide +kernel) grown_branches.owned
    grown_branches.acyclic ?_⟩
  obtain ⟨first, second, same⟩ := List.length_eq_two.1 length
  rw [same] at known ⊢
  obtain ⟨⟨one, _⟩, two, begun⟩ : (first.session.note = some ⟨4, 2, 3⟩ ∧ first.session.born = 0) ∧
      second.session.note = some ⟨5, 3, 2⟩ ∧ second.session.born = 0 := by simpa using known
  intro count commit move recorded noted goes other member _ reaches
  rcases count with _ | _ | _
  · simp_all
  · obtain rfl : second = commit := by simpa using recorded
    obtain rfl : ⟨5, 3, 2⟩ = move := by simpa [two] using noted
    obtain rfl : other = ⟨4, 2, 3⟩ := by simpa [begun, one] using member
    rw [begun] at reaches
    rcases Relation.reflTransGen_iff_eq_or_transGen.1 reaches with same | climbs
    · exact absurd same (by decide)
    · exact absurd (grown_branches.lower_of_climb climbs) (by decide)
  · simp at recorded

-- Each outer directory is moved into the inner directory of the other branch.
theorem cycle_of_crossed :
    let base := Contents.replay (planted branches)
    let world := run Move.perform (opened (planted branches) none) (together ⟨2, 1, 5⟩ ⟨3, 1, 4⟩)
    (Tied base [] True ∧ base.Acyclic) ∧ world.commits.length = 2 ∧ ¬ world.store.committed.Acyclic := by
  intro base world
  have parent (id above : Int64) (name : String) (short : (Utf8.encode name).length < UInt64.size)
      (held : world.store.committed (Key.inode id).bytes = some (Record.encode (directory id above name))) :
      world.store.committed.Parent id above :=
    ⟨_, holds_directory short held, rfl⟩
  have one := parent 2 5 "a" (by decide) (by decide +kernel)
  have two := parent 5 3 "d" (by decide) (by decide +kernel)
  have three := parent 3 4 "b" (by decide) (by decide +kernel)
  have four := parent 4 2 "c" (by decide) (by decide +kernel)
  refine ⟨⟨grown_branches.tied, grown_branches.acyclic⟩, by decide +kernel, fun acyclic => acyclic 2 ?_⟩
  exact .head one (.head two (.head three (.single four)))

end FsMeta.Tree

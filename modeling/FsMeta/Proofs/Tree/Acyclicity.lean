import FsMeta.Proofs.Store.Calls
import FsMeta.Proofs.Tree.Changes
import FsMeta.Proofs.Tree.Clients

set_option autoImplicit false

namespace FsMeta.Tree

open Contents (Created Relocated Thinned)

variable {earlier later : Contents}

def Change.Effect : Change → Contents → Contents → Prop
  | create node _, earlier, later => Created earlier later node
  | reparent id _ destination, earlier, later => later = earlier ∨ Relocated earlier later id destination
  | deleteFile _, earlier, later | deleteDirectory _, earlier, later | deleteChild _ _, earlier, later =>
    Thinned earlier later

def Change.Closes (change : Change) (contents : Contents) : Prop :=
  ∃ node sized, change = create node sized ∧ contents.Reaches node.parentId node.id

theorem ensures_perform_effect (base : Contents) (writes : Writes) (change : Change) :
    Scoped.Ensures base change.perform writes fun _ later =>
      change.Effect (base.write writes) (base.write later) := by
  have thins {α : Type} {action : Scoped α} (only : Scoped.Only Deleting action) :
      Scoped.Ensures base action writes fun _ later => Thinned (base.write writes) (base.write later) :=
    (only base writes).mono fun _ _ => Contents.thinned_of_deleting base
  cases change with
  | create node sized => exact ensures_create_created sized
  | reparent id source destination =>
    apply ensures_reparent_relocated.mono
    rintro _ _ (⟨rfl, _⟩ | ⟨_, relocated, _⟩)
    · exact .inl rfl
    · exact .inr relocated
  | deleteFile id => exact thins (only_deleteFile id)
  | deleteDirectory id => exact .bind ((thins (only_deleteDirectory id)).mono fun _ _ thinned => .pure thinned)
  | deleteChild parent name => exact thins (only_deleteChild parent name)

namespace Change.Effect

variable {change : Change}

theorem owned (effect : change.Effect earlier later) (owned : earlier.Owned) : later.Owned := by
  cases change with
  | create node sized => exact Created.owned effect owned
  | reparent id source destination =>
    rcases effect with rfl | relocated
    · exact owned
    · exact relocated.owned owned
  | _ => exact Thinned.owned effect owned

theorem acyclic_iff (effect : change.Effect earlier later) (owned : earlier.Owned) (acyclic : earlier.Acyclic) :
    later.Acyclic ↔ ¬ change.Closes earlier := by
  have keeps (after : later.Acyclic) (other : ∀ node sized, change ≠ create node sized) :
      later.Acyclic ↔ ¬ change.Closes earlier :=
    iff_of_true after fun ⟨node, sized, same, _⟩ => other node sized same
  cases change with
  | create node sized =>
    rw [(Created.moved effect).acyclic_iff acyclic, not_iff_not]
    constructor
    · exact fun reaches => ⟨node, sized, rfl, reaches⟩
    · rintro ⟨_, _, same, reaches⟩
      cases same
      exact reaches
  | reparent id source destination =>
    refine keeps ?_ (by simp)
    rcases effect with rfl | relocated
    · exact acyclic
    · exact relocated.acyclic owned acyclic
  | _ => exact keeps (Thinned.acyclic effect acyclic) (by simp)

end Change.Effect

def changes : Server Engine (Interrupts × Change) where
  store engine := engine.storage.store
  serve engine call := (engine.run call.1 call.2.perform).2

theorem changes_step {engine : Engine} {call : Interrupts × Change}
    (regular : changes.Current engine ∧ (changes.contents engine).Owned)
    (acyclic : (changes.contents engine).Acyclic) (forward : changes.Forward engine call) :
    (changes.Current (changes.serve engine call) ∧ (changes.contents (changes.serve engine call)).Owned) ∧
      ((changes.contents (changes.serve engine call)).Acyclic ↔
        ((engine.run call.1 call.2.perform).1 = .ok () → ¬ call.2.Closes (changes.contents engine))) := by
  obtain ⟨current, owned⟩ := regular
  have ensures := ensures_perform_effect (changes.contents engine) .empty call.2
  obtain ⟨settles, holds⟩ := engine.run_ensures call.1 ensures
  obtain ⟨stays, outcome⟩ := settles.outcome current forward
  refine (and_assoc.2 ⟨stays, ?_⟩)
  rcases outcome with ⟨⟨error, failed⟩, same⟩ | ⟨_, done, same⟩
  · have contents : changes.contents (changes.serve engine call) = changes.contents engine := same
    rw [contents]
    exact ⟨owned, iff_of_true acyclic fun done => by simp [failed] at done⟩
  · have contents : changes.contents (changes.serve engine call) =
        (changes.contents engine).write (engine.buffered call.1 call.2.perform) := same
    have effect := holds () done
    rw [Contents.write_empty] at effect
    rw [contents]
    exact ⟨effect.owned owned, (effect.acyclic_iff owned acyclic).trans ⟨fun not _ => not, fun all => all done⟩⟩

def fresh (journal : Option Journal.Log) (loose : Bool) (schedule : Schedule) : Engine :=
  { storage := { store := { journal }, loose }, schedule }

/-- Moves and deletions never close a cycle. -/
theorem acyclic_always_iff (journal : Option Journal.Log) (loose : Bool) (schedule : Schedule)
    (calls : List (Interrupts × Change)) (steady : changes.Steady (fresh journal loose schedule) calls) :
    let after := changes.run (fresh journal loose schedule)
    (∀ earlier, earlier <+: calls → (changes.contents (after earlier)).Acyclic) ↔
      ∀ earlier interrupts node sized, earlier ++ [(interrupts, .create node sized)] <+: calls →
        ((after earlier).run interrupts (create node)).1 = .ok () →
          ¬ (changes.contents (after earlier)).Reaches node.parentId node.id := by
  intro after
  let start : Engine := fresh journal loose schedule
  have empty : changes.contents start = Contents.empty := rfl
  have regular : changes.Current start ∧ (changes.contents start).Owned :=
    ⟨fun _ _ found => (by cases found), Contents.owned_empty⟩
  rw [Server.always_iff (fun _ _ => changes_step) regular Contents.acyclic_empty steady]
  constructor
  · intro harmless earlier interrupts node sized leads done reaches
    exact harmless earlier _ leads done ⟨node, sized, rfl, reaches⟩
  · rintro harmless earlier ⟨interrupts, change⟩ leads done ⟨node, sized, rfl, reaches⟩
    exact harmless earlier interrupts node sized leads done reaches

def directory (id parentId : Int64) (name : String) : INode := { id, name, kind := .directory, parentId }

theorem sized_directory {id parentId : Int64} {name : String}
    (short : (Utf8.encode name).length < UInt64.size) : (directory id parentId name).Sized :=
  have empty : (Utf8.encode "").length < UInt64.size := by decide
  ⟨short, empty, empty⟩

theorem holds_directory {contents : Contents} {id parentId : Int64} {name : String}
    (short : (Utf8.encode name).length < UInt64.size)
    (held : contents (Key.inode id).bytes = some (Record.encode (directory id parentId name))) :
    contents.Holds (.inode id) (directory id parentId name) :=
  ⟨_, held, Record.decode_encode_inode (sized_directory short)⟩

-- A directory is moved from one branch to the other, and the first branch is written again below it. So the other
-- branch cannot be moved below the first any more.
def nested : List (Interrupts × Change) :=
  [(.never, .create (directory 1 9 "etc") (sized_directory (by decide))),
    (.never, .create (directory 2 1 "conf") (sized_directory (by decide))),
    (.never, .create (directory 3 9 "var") (sized_directory (by decide))),
    (.never, .reparent 2 1 3),
    (.never, .create (directory 1 2 "etc") (sized_directory (by decide))),
    (.never, .reparent 3 9 1)]

theorem acyclic_always_iff_nested :
    let after := changes.run (fresh none false [])
    (∀ count : Fin nested.length,
      ((after (nested.take count)).run nested[count].1 nested[count].2.perform).1 = .ok () ↔ count.val ≠ 5) ∧
      ((changes.contents (after (nested.take 2))).Parent 2 1 ∧ (changes.contents (after nested)).Parent 2 3) ∧
      ((changes.contents (after (nested.take 4))).Parent 1 9 ∧ (changes.contents (after nested)).Parent 1 2) ∧
      ∀ earlier, earlier <+: nested → (changes.contents (after earlier)).Acyclic := by
  intro after
  let contents (count : Nat) : Contents := changes.contents (after (nested.take count))
  have first : (contents 1).Holds (.inode 1) (directory 1 9 "etc") := holds_directory (by decide) (by decide +kernel)
  have before : (contents 2).Holds (.inode 2) (directory 2 1 "conf") := holds_directory (by decide) (by decide +kernel)
  have kept : (contents 4).Holds (.inode 1) (directory 1 9 "etc") := holds_directory (by decide) (by decide +kernel)
  have moved : (contents 4).Holds (.inode 2) (directory 2 3 "conf") := holds_directory (by decide) (by decide +kernel)
  have other : (contents 4).Holds (.inode 3) (directory 3 9 "var") := holds_directory (by decide) (by decide +kernel)
  have still : (contents 6).Holds (.inode 2) (directory 2 3 "conf") := holds_directory (by decide) (by decide +kernel)
  have below : (contents 6).Holds (.inode 1) (directory 1 2 "etc") := holds_directory (by decide) (by decide +kernel)
  have rootless : ∀ count ∈ [0, 1, 2, 4], contents count (Key.inode 9).bytes = none := by decide +kernel
  have ends {count : Nat} (member : count ∈ [0, 1, 2, 4]) {id : Int64} (differ : 9 ≠ id) :
      ¬ (contents count).Reaches 9 id := Contents.not_reaches_of_absent (rootless count member) differ
  refine ⟨by decide +kernel, ⟨⟨_, before, rfl⟩, _, still, rfl⟩, ⟨⟨_, kept, rfl⟩, _, below, rfl⟩, ?_⟩
  refine (acyclic_always_iff none false [] nested (by decide +kernel)).2 ?_
  intro earlier interrupts node sized leads _
  obtain ⟨place, here, rfl⟩ := Server.exists_take_of_prefix leads
  rcases place with _ | _ | _ | _ | _ | _ | place <;> cases here
  · exact ends (by decide) (by decide)
  · intro reaches
    exact ends (by decide) (by decide) ((Contents.reaches_iff first (by decide)).1 reaches)
  · exact ends (by decide) (by decide)
  · intro reaches
    have up : (contents 4).Reaches 3 1 := (Contents.reaches_iff moved (by decide)).1 reaches
    exact ends (by decide) (by decide) ((Contents.reaches_iff other (by decide)).1 up)

-- A directory is written again, below a directory that is in it.
def looped : List (Interrupts × Change) :=
  [(.never, .create (directory 1 9 "a") (sized_directory (by decide))),
    (.never, .create (directory 2 1 "b") (sized_directory (by decide))),
    (.never, .create (directory 1 2 "a") (sized_directory (by decide)))]

theorem cycle_of_looped :
    (∀ count : Fin looped.length, ((changes.run (fresh none false []) (looped.take count)).run
      looped[count].1 looped[count].2.perform).1 = .ok ()) ∧
    ¬ (changes.contents (changes.run (fresh none false []) looped)).Acyclic := by
  let contents := changes.contents (changes.run (fresh none false []) looped)
  have one : contents.Holds (.inode 1) (directory 1 2 "a") := holds_directory (by decide) (by decide +kernel)
  have two : contents.Holds (.inode 2) (directory 2 1 "b") := holds_directory (by decide) (by decide +kernel)
  exact ⟨by decide +kernel, fun acyclic => acyclic 1 (.head ⟨_, one, rfl⟩ (.single ⟨_, two, rfl⟩))⟩

end FsMeta.Tree

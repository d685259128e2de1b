import FsMeta.Proofs.Chain.Within
import FsMeta.Proofs.Record.Replicas
import FsMeta.Proofs.Store.Crew

set_option autoImplicit false

namespace FsMeta

namespace Contents

def replicas (contents : Contents) (block : Int64) : List StorageLocation :=
  match contents (Key.blockStorage block).bytes with
  | none => []
  | some bytes =>
    match (Record.decode bytes : Except Error BlockStorage) with
    | .ok stored => stored.nodes
    | .error _ => []

def Distinct (contents : Contents) (block : Int64) : Prop :=
  contents (Key.blockStorage block).bytes = none ∨
    ∃ stored : BlockStorage, contents.Holds (.blockStorage block) stored ∧ stored.nodes.Nodup

variable {contents other : Contents} {block : Int64} {stored : BlockStorage}

theorem replicas_of_absent (absent : contents (Key.blockStorage block).bytes = none) :
    contents.replicas block = [] := by
  rw [replicas, absent]

theorem replicas_of_holds (held : contents.Holds (.blockStorage block) stored) :
    contents.replicas block = stored.nodes := by
  obtain ⟨bytes, held, decoded⟩ := held
  rw [replicas, held]
  dsimp only
  rw [decoded]

theorem replicas_congr (same : contents (Key.blockStorage block).bytes = other (Key.blockStorage block).bytes) :
    contents.replicas block = other.replicas block := by
  rw [replicas, replicas, same]

theorem Distinct.congr (distinct : contents.Distinct block)
    (same : other (Key.blockStorage block).bytes = contents (Key.blockStorage block).bytes) :
    other.Distinct block := by
  rcases distinct with absent | ⟨stored, ⟨bytes, held, decoded⟩, distinct⟩
  · exact .inl (same.trans absent)
  · exact .inr ⟨stored, ⟨bytes, same.trans held, decoded⟩, distinct⟩

theorem Distinct.nodup (distinct : contents.Distinct block) : (contents.replicas block).Nodup := by
  rcases distinct with absent | ⟨stored, held, distinct⟩
  · rw [replicas_of_absent absent]
    exact List.nodup_nil
  · rwa [replicas_of_holds held]

end Contents

namespace Replication

open Scoped (Ensures Only)

inductive Task where
  | add (block : Int64) (location : StorageLocation) (sized : location.Sized)
  | remove (block : Int64) (location : StorageLocation)
  | upsert (file block : Int64) (info : BlockMeta) (replicas : BlockStorage) (sized : replicas.Sized)

namespace Task

def block : Task → Int64
  | .add block .. | .remove block _ | .upsert _ block .. => block

def perform : Task → Scoped Unit
  | .add block location _ => Service.addReplica block location
  | .remove block location => Service.removeReplica block location
  | .upsert file block info replicas _ => do
    let _ ← Chain.upsert file block info replicas
    pure ()

def outcome (nodes : List StorageLocation) : Task → List StorageLocation
  | .add _ location _ => BlockStorage.added nodes location
  | .remove _ location => nodes.erase location
  | .upsert _ _ _ replicas _ => BlockStorage.union nodes replicas.nodes

theorem nodup_outcome {nodes : List StorageLocation} (distinct : nodes.Nodup) (task : Task) :
    (task.outcome nodes).Nodup := by
  cases task with
  | add block location => exact BlockStorage.nodup_added distinct location
  | remove block location => exact distinct.erase location
  | upsert => exact nodup_eraseDups _

theorem confined_perform (task : Task) : Scoped.Confined task.perform := by
  cases task with
  | add block location => exact (Service.only_addReplica fun _ => trivial : Only Anything _).confined
  | remove block location => exact (Service.only_removeReplica fun _ => trivial : Only Anything _).confined
  | upsert file block info replicas =>
    exact ((Chain.only_upsert file block info replicas).anything.bind fun _ => .pure ()).confined

end Task

variable {base old now : Contents} {writes : Writes} {block : Int64} {task : Task}

def Wrote (block : Int64) (nodes : List StorageLocation) (writes : Writes) : Prop :=
  ∃ stored : BlockStorage, stored.Sized ∧ stored.nodes = nodes ∧
    writes.find? (Key.blockStorage block).bytes = some (some (Record.encode stored))

theorem wrote_insert {stored : BlockStorage} (sized : stored.Sized) {nodes : List StorageLocation}
    (same : stored.nodes = nodes) (writes : Writes) :
    Wrote block nodes (writes.insert (Key.blockStorage block).bytes (some (Record.encode stored))) :=
  ⟨stored, sized, same, by rw [Table.find?_insert, if_pos rfl]⟩

theorem sized_of_holds {stored : BlockStorage} (held : base.Holds (.blockStorage block) stored) : stored.Sized := by
  obtain ⟨bytes, _, decoded⟩ := held
  exact Record.sized_blockStorage decoded

theorem sized_empty (id : Int64) : BlockStorage.Sized { id } := fun _ member => by cases member

theorem ensures_putChanged {change : BlockStorage × Bool} (sized : change.1.Sized) :
    Ensures base (Service.putChanged block change) writes fun _ later =>
      later = writes ∧ change.2 = false ∨ Wrote block change.1.nodes later := by
  obtain ⟨replicas, changed⟩ := change
  cases changed with
  | false => exact .pure (.inl ⟨rfl, rfl⟩)
  | true => exact .put (.inr (wrote_insert sized rfl _))

theorem ensures_addReplica {location : StorageLocation} (sized : location.Sized) :
    Ensures old (Service.addReplica block location) .empty fun _ later =>
      later = .empty ∧ BlockStorage.added (old.replicas block) location = old.replicas block ∨
        Wrote block (BlockStorage.added (old.replicas block) location) later := by
  have adds {known : BlockStorage} (fit : known.Sized) (same : old.replicas block = known.nodes) :
      Ensures old (Service.putChanged block (known.insert location)) .empty fun _ later =>
        later = .empty ∧ BlockStorage.added (old.replicas block) location = old.replicas block ∨
          Wrote block (BlockStorage.added (old.replicas block) location) later := by
    refine (ensures_putChanged (fit.insert sized)).mono ?_
    rw [same, BlockStorage.nodes_insert]
    rintro _ later (⟨bare, unchanged⟩ | wrote)
    · exact .inl ⟨bare, BlockStorage.added_of_unchanged unchanged⟩
    · exact .inr wrote
  refine .bind (ensures_find? (fun absent => ?_) fun known held => ?_)
  · rw [Contents.write_empty] at absent
    exact adds (sized_empty block) (Contents.replicas_of_absent absent)
  · rw [Contents.write_empty] at held
    exact adds (sized_of_holds held) (Contents.replicas_of_holds held)

theorem ensures_removeReplica (distinct : old.Distinct block) (location : StorageLocation) :
    Ensures old (Service.removeReplica block location) .empty fun _ later =>
      later = .empty ∧ (old.replicas block).erase location = old.replicas block ∨
        Wrote block ((old.replicas block).erase location) later := by
  refine .bind (ensures_find fun known held => ?_)
  rw [Contents.write_empty] at held
  have same := Contents.replicas_of_holds held
  have distinct : known.nodes.Nodup := same ▸ distinct.nodup
  refine (ensures_putChanged ((sized_of_holds held).remove location)).mono ?_
  rw [same, BlockStorage.nodes_remove distinct]
  rintro _ later (⟨bare, unchanged⟩ | wrote)
  · exact .inl ⟨bare, BlockStorage.erase_of_unchanged distinct unchanged⟩
  · exact .inr wrote

theorem ensures_addReplicas (distinct : old.Distinct block)
    (clear : writes.find? (Key.blockStorage block).bytes = none) {replicas : BlockStorage} (sized : replicas.Sized) :
    Ensures old (Chain.addReplicas block replicas) writes fun _ later =>
      Wrote block (BlockStorage.union (old.replicas block) replicas.nodes) later := by
  have still : old.write writes (Key.blockStorage block).bytes = old (Key.blockStorage block).bytes := by
    rw [Contents.write_apply, clear]
    rfl
  have merges {known : BlockStorage} (fit : known.Sized) (same : old.replicas block = known.nodes) :
      Wrote block (BlockStorage.union (old.replicas block) replicas.nodes)
        (writes.insert (Key.blockStorage block).bytes
          (some (Record.encode ({ known with id := block }.merge replicas)))) := by
    have own : BlockStorage.Sized { known with id := block } := fit
    refine wrote_insert (own.merge sized) ?_ writes
    rw [BlockStorage.nodes_merge (same ▸ distinct.nodup), same]
  refine .bind (ensures_find? (fun absent => .put ?_) fun known held => .put ?_)
  · exact merges (sized_empty 0) (Contents.replicas_of_absent (still ▸ absent))
  · have held : old.Holds (.blockStorage block) known := by rwa [Contents.Holds, still] at held
    exact merges (sized_of_holds held) (Contents.replicas_of_holds held)

theorem ensures_upsert_wrote (distinct : old.Distinct block) {replicas : BlockStorage} (sized : replicas.Sized)
    (file : Int64) (info : BlockMeta) :
    Ensures old (Chain.upsert file block info replicas) .empty fun _ later =>
      Wrote block (BlockStorage.union (old.replicas block) replicas.nodes) later := by
  refine .bind (.lift fun _ _ => .bind (.lift fun _ _ => .bind (.lift fun _ _ => ?_)))
  refine .bind ((Chain.only_entries file : Only Nothing _).reads old .empty |>.mono ?_)
  rintro chain _ rfl
  have relinks : Only (Chain.Within file fun _ => False) _ :=
    Chain.only_relinked_within (Chain.position chain block).predecessor block
  refine .bind ((relinks old .empty).mono fun _ between relinked => .bind (.put (.bind (.put (.bind ?_)))))
  refine (ensures_addReplicas distinct ?_ sized).mono fun _ _ wrote => .pure wrote
  rw [Table.find?_insert, if_neg (by simp), Table.find?_insert, if_neg (by simp)]
  rcases relinked (Key.blockStorage block).bytes with same | ⟨_, _, ⟨known, same, permits⟩⟩
  · exact same
  · cases Key.bytes_injective same
    exact permits.elim

inductive Does (block : Int64) (old : Contents) (task : Task) (writes : Writes) : Prop
  | apart (other : task.block ≠ block) (clear : writes.find? (Key.blockStorage block).bytes = none)
  | idle (own : task.block = block) (bare : writes = .empty)
    (same : task.outcome (old.replicas block) = old.replicas block)
  | wrote (own : task.block = block) (wrote : Wrote block (task.outcome (old.replicas block)) writes)

theorem clear_of_only (only : Only (fun key _ => key ≠ (Key.blockStorage block).bytes) task.perform)
    (other : task.block ≠ block) : Ensures old task.perform .empty fun _ writes => Does block old task writes := by
  refine (only old .empty).mono fun _ writes extended => .apart other ?_
  rcases extended (Key.blockStorage block).bytes with same | ⟨_, _, differ⟩
  · exact same
  · exact absurd rfl differ

theorem ensures_perform_apart (other : task.block ≠ block) :
    Ensures old task.perform .empty fun _ writes => Does block old task writes := by
  have differ : (Key.blockStorage task.block).bytes ≠ (Key.blockStorage block).bytes := by simpa using other
  refine clear_of_only ?_ other
  cases task with
  | add => exact Service.only_addReplica fun _ => differ
  | remove => exact Service.only_removeReplica fun _ => differ
  | upsert file own info replicas =>
    have within : Only (Chain.Within file (own = ·)) (Chain.upsert file own info replicas) :=
      Chain.only_upsert_within rfl info replicas
    refine (within.mono ?_).bind fun _ => .pure ()
    rintro _ _ ⟨known, rfl, permits⟩ same
    obtain rfl := Key.bytes_injective same
    exact other permits

theorem ensures_perform (distinct : old.Distinct block) (task : Task) :
    Ensures old task.perform .empty fun _ writes => Does block old task writes := by
  by_cases own : task.block = block
  · cases task with
    | add place location sized =>
      obtain rfl : place = block := own
      refine (ensures_addReplica sized).mono fun _ writes done => ?_
      rcases done with ⟨bare, same⟩ | wrote
      · exact .idle rfl bare same
      · exact .wrote rfl wrote
    | remove place location =>
      obtain rfl : place = block := own
      refine (ensures_removeReplica distinct location).mono fun _ writes done => ?_
      rcases done with ⟨bare, same⟩ | wrote
      · exact .idle rfl bare same
      · exact .wrote rfl wrote
    | upsert file place info replicas sized =>
      obtain rfl : place = block := own
      refine .bind ((ensures_upsert_wrote distinct sized file info).mono fun _ _ wrote => .pure ?_)
      exact .wrote rfl wrote
  · exact ensures_perform_apart own

def Turn (block : Int64) (now : Contents) (task : Task) (writes : Writes) : Prop :=
  (now.write writes).replicas block =
    if (writes.find? (Key.blockStorage block).bytes).isSome then task.outcome (now.replicas block)
    else now.replicas block

theorem Turn.of_clear (now : Contents) (task : Task)
    (clear : writes.find? (Key.blockStorage block).bytes = none) : Turn block now task writes := by
  have same : now.write writes (Key.blockStorage block).bytes = now (Key.blockStorage block).bytes := by
    rw [Contents.write_apply, clear]
    rfl
  rw [Turn, clear]
  exact Contents.replicas_congr same

-- Who writes the list has not been overtaken, so it is still the list that was read.
theorem Does.publish {since : List (Task × Writes)} (does : Does block old task writes)
    (before : old.Distinct block) (distinct : now.Distinct block) (passage : Crew.Passage (Turn block) old since now)
    (short : task.block = block → (task.outcome (old.replicas block)).length < UInt64.size)
    (fresh : ∀ deed ∈ since, ∀ key, (writes.find? key).isSome → deed.2.find? key = none) :
    (now.write writes).Distinct block ∧ Turn block now task writes := by
  have stays (clear : writes.find? (Key.blockStorage block).bytes = none) :
      (now.write writes).Distinct block ∧ Turn block now task writes := by
    refine ⟨distinct.congr ?_, .of_clear now task clear⟩
    rw [Contents.write_apply, clear]
    rfl
  cases does with
  | apart _ clear => exact stays clear
  | idle _ bare => exact stays (bare ▸ rfl)
  | wrote own wrote =>
    obtain ⟨stored, sized, same, written⟩ := wrote
    have known : now (Key.blockStorage block).bytes = old (Key.blockStorage block).bytes :=
      passage.unwritten fun deed member => fresh deed member _ (by rw [written]; rfl)
    have fit : stored.nodes.length < UInt64.size := same ▸ short own
    have held : (now.write writes).Holds (.blockStorage block) stored := by
      refine ⟨_, ?_, Record.decode_encode_blockStorage sized fit⟩
      rw [Contents.write_apply, written]
      rfl
    constructor
    · exact .inr ⟨stored, held, same ▸ task.nodup_outcome before.nodup⟩
    · rw [Turn, Contents.replicas_of_holds held, same, written, Contents.replicas_congr known]
      rfl

def discipline (block : Int64) : Crew.Discipline Task.perform where
  State contents := contents.Distinct block
  Does := Does block
  Fair old task _ := task.block = block → (task.outcome (old.replicas block)).length < UInt64.size
  turn := Turn block
  confined := Task.confined_perform
  performs _ task distinct := ensures_perform distinct task
  publishes _ _ _ _ _ before distinct passage does short fresh := does.publish before distinct passage short fresh

def changes (block : Int64) (deeds : List (Task × Writes)) : List Task :=
  (deeds.filter fun deed => (deed.2.find? (Key.blockStorage block).bytes).isSome).map Prod.fst

theorem replicas_of_passage {start : Contents} {since : List (Task × Writes)}
    (passage : Crew.Passage (Turn block) start since now) :
    now.replicas block = (changes block since).foldl Task.outcome (start.replicas block) := by
  -- One turn of the passage is one commit; it moves the list exactly if it writes the record.
  induction passage with
  | refl => rfl
  | @step since now task writes _ turn ih =>
    rw [turn, changes, List.filter_append, List.map_append, List.foldl_append, ← changes, ← ih]
    cases wrote : (writes.find? (Key.blockStorage block).bytes).isSome with
    | true => simp [wrote]
    | false => simp [wrote]

open Crew (Steady contentsOf deeds opened run)

/-- No task comes to more replicas of the block than can be counted in a record; no list in memory is that long. -/
def Short (block : Int64) (base : Contents) (commits : List (Commit (Option Task))) : Prop :=
  ∀ commit ∈ commits, ∀ task ∈ commit.session.note, task.block = block →
    (task.outcome ((contentsOf base (commits.take commit.session.born)).replicas block)).length < UInt64.size

instance decidableShort (block : Int64) (base : Contents) (commits : List (Commit (Option Task))) :
    Decidable (Short block base commits) :=
  inferInstanceAs (Decidable (∀ commit ∈ commits, ∀ task ∈ commit.session.note, task.block = block →
    (task.outcome ((contentsOf base (commits.take commit.session.born)).replicas block)).length < UInt64.size))

theorem replicas_serial (entries : List Journal.Entry) (journal : Option Journal.Log)
    (events : List (Crew.Event Task)) (steady : Steady Task.perform (opened entries journal) events)
    (block : Int64) (start : (Contents.replay entries).Distinct block)
    (short : Short block (Contents.replay entries) (run Task.perform (opened entries journal) events).commits) :
    let base := Contents.replay entries
    let world := run Task.perform (opened entries journal) events
    world.store.committed = contentsOf base world.commits ∧
      (∀ count ≤ world.commits.length,
        let now := contentsOf base (world.commits.take count)
        now.replicas block =
          (changes block (deeds (world.commits.take count))).foldl Task.outcome (base.replicas block) ∧
        (now.replicas block).Nodup) ∧
      ∀ commit ∈ world.commits, ∀ task ∈ commit.session.note,
        let seen := contentsOf base (world.commits.take commit.session.born)
        if (commit.writes.find? (Key.blockStorage block).bytes).isSome then task.block = block
        else task.block = block →
          commit.writes = .empty ∧ task.outcome (seen.replicas block) = seen.replicas block := by
  intro base world
  have tended := ((discipline block).tended_opened entries journal).run steady
  have fair : Crew.Committed base world.commits (discipline block).Fair := by
    intro count commit task recorded noted own
    exact short commit (List.mem_of_getElem? recorded) task noted own
  have states {count : Nat} (within : count ≤ world.commits.length) :=
    tended.state_take start fair within
  refine ⟨tended.sound.committed, fun count within => ?_, fun commit member task noted => ?_⟩
  · obtain ⟨states, passages⟩ := states within
    have distinct : (contentsOf base (world.commits.take count)).Distinct block := states count (Nat.le_refl _)
    exact ⟨replicas_of_passage (passages 0 (Nat.zero_le _)), distinct.nodup⟩
  · obtain ⟨count, recorded⟩ := List.getElem?_of_mem member
    obtain ⟨bound, _⟩ := List.getElem?_eq_some_iff.1 recorded
    have born := (tended.sound.fresh count commit recorded).1
    have seen := (states (Nat.le_refl _)).1 commit.session.born (by omega)
    have past : world.past.take commit.session.born =
        (world.commits.take commit.session.born).map Commit.writes := by
      rw [World.past, List.map_take]
    -- A task is judged by the state that its snapshot shows, which has no duplicates like every committed one.
    have does : Does block (contentsOf base (world.commits.take commit.session.born)) task commit.writes := by
      have done := tended.commits commit member
      rw [Crew.Discipline.Done, Option.mem_def.1 noted, past] at done
      exact done seen
    cases does with
    | apart other clear =>
      rw [clear]
      exact fun own => absurd own other
    | idle own bare same =>
      rw [bare]
      exact fun _ => ⟨rfl, same⟩
    | wrote own wrote =>
      obtain ⟨_, _, _, written⟩ := wrote
      rw [written]
      exact own

def first : StorageLocation := { dataNodeId := "dn1", storageId := "s1" }

def second : StorageLocation := { dataNodeId := "dn2", storageId := "s1" }

theorem sized_first : first.Sized := ⟨by decide, by decide⟩

theorem sized_second : second.Sized := ⟨by decide, by decide⟩

def merging : Task :=
  .upsert 1 7 {} { nodes := [second, first] } (by simp [BlockStorage.Sized, sized_first, sized_second])

/-- Four transactions on a block with one replica: one adds another, one removes the first, one adds what is
there already, and one merges. The second and the last one come too late, and the third writes nothing. Then
the first replica is removed. -/
def raced : List (Crew.Event Task) :=
  [.begin, .perform 0 (.add 7 first sized_first) .never [] false, .commit 0,
    .begin, .begin, .begin, .begin,
    .perform 1 (.add 7 second sized_second) .never [] false,
    .perform 2 (.remove 7 first) .never [] false,
    .perform 3 (.add 7 first sized_first) .never [] false,
    .perform 4 merging .never [] false,
    .commit 1, .commit 2, .commit 3, .commit 4,
    .begin, .perform 5 (.remove 7 first) .never [] false, .commit 5]

theorem replicas_serial_raced :
    let world := run Task.perform (opened [] none) raced
    world.commits.map (fun commit => (commit.session.note.isSome, commit.writes.entries.length)) =
        [(true, 1), (true, 1), (true, 0), (true, 1)] ∧
      world.store.committed.replicas 7 = [second] := by
  intro world
  have steady : Steady Task.perform (opened [] none) raced := Crew.steady_of_length_lt (by decide)
  obtain ⟨committed, serial, _⟩ := replicas_serial [] none raced steady 7 (.inl rfl) (by decide +kernel)
  have last := (serial world.commits.length (Nat.le_refl _)).1
  rw [List.take_length, ← committed] at last
  refine ⟨by decide +kernel, last.trans ?_⟩
  decide +kernel

end Replication

end FsMeta

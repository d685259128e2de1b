import FsMeta.Proofs.Chain.Insertion
import FsMeta.Proofs.Chain.Truncation

set_option autoImplicit false

namespace FsMeta.Chain

inductive Task where
  | upsert (file block : Int64) (info : BlockMeta) (replicas : BlockStorage) (sized : info.Sized)
      (listed : replicas.Sized)
  | truncate (file size : Int64)
  | replace (file : Int64) (blocks : List Block) (sized : ∀ block ∈ blocks, block.Sized)
  | deleteAll (file : Int64)

namespace Task

def file : Task → Int64
  | .upsert file .. | .truncate file _ | .replace file .. | .deleteAll file => file

def blocks : Task → List Int64
  | .upsert _ block .. => [block]
  | .replace _ blocks _ => blocks.map Block.id
  | .truncate .. | .deleteAll _ => []

def perform : Task → Scoped Unit
  | .upsert file block info replicas _ _ => do
    let _ ← Chain.upsert file block info replicas
    pure ()
  | .truncate file size => Chain.truncate file size
  | .replace file blocks _ => Chain.replace file blocks
  | .deleteAll file => do
    let _ ← Chain.deleteAll file
    pure ()

theorem only_perform (task : Task) : Scoped.Only OffTree task.perform := by
  cases task with
  | upsert file block info replicas => exact .bind (only_upsert file block info replicas) fun _ => .pure _
  | truncate file size => exact only_truncate file size
  | replace file blocks => exact only_replace file blocks
  | deleteAll file => exact .bind (only_deleteAll file).offTree fun _ => .pure _

def Does (old : Contents) (task : Task) (writes : Writes) : Prop :=
  ∃ chain next, Edited old task.file chain next writes ∧ ids next ⊆ task.blocks ++ ids chain

theorem ensures_perform {old : Contents} {task : Task} {chain : List FileBlock}
    (before : old.Stands task.file chain) :
    Scoped.Ensures old task.perform .empty fun _ writes => Does old task writes := by
  cases task with
  | upsert file block info replicas sized listed =>
    refine .bind ((ensures_upsert before sized listed).mono ?_)
    rintro _ writes ⟨next, edited, known⟩
    exact .pure ⟨chain, next, edited, known⟩
  | truncate file size =>
    refine (ensures_truncate before).mono ?_
    rintro _ writes ⟨next, edited, known⟩
    exact ⟨chain, next, edited, known⟩
  | replace file blocks sized =>
    refine (ensures_replace before sized).mono fun _ writes edited => ?_
    refine ⟨chain, laid blocks, edited, ?_⟩
    rw [ids_laid]
    exact List.subset_append_left _ _
  | deleteAll file =>
    refine .bind ((ensures_deleteAll before).mono fun _ writes edited => .pure ?_)
    exact ⟨chain, [], edited, List.nil_subset _⟩

end Task

variable {old now : Contents} {task : Task} {file other : Int64} {chain next current : List FileBlock}
variable {writes : Writes} {since : List (Task × Writes)}

def Turn (now : Contents) (_ : Task) (writes : Writes) : Prop :=
  ∀ file chain, now.Stands file chain → ∃ next, Turned now file chain next writes

structure Left (now : Contents) (file : Int64) (chain current : List FileBlock) (since : List Writes) : Prop where
  stands : now.Stands file current
  guarded : (∀ writes ∈ since, ¬ writes.Touch (guardKey file chain)) → ids current = ids chain
  parts : ∀ (index : UInt64) (id : Int64), (ids chain)[index.toNat]? = some id →
    (∀ writes ∈ since, ¬ writes.Touch (.fileBlock file index)) →
      (ids current)[index.toNat]? = some id ∧ ∀ writes ∈ since, ¬ Parts writes id

theorem Left.step {since : List Writes} (left : Left now file chain current since)
    (turned : Turned now file current next writes) :
    Left (now.write writes) file chain next (since ++ [writes]) := by
  have split {untouched : Writes → Prop} (all : ∀ made ∈ since ++ [writes], untouched made) :
      (∀ made ∈ since, untouched made) ∧ untouched writes := by
    rwa [List.forall_mem_append, List.forall_mem_singleton] at all
  refine ⟨turned.stands, fun all => ?_, fun index id known all => ?_⟩
  · obtain ⟨before, last⟩ := split all
    have same := left.guarded before
    have place : guardKey file current = guardKey file chain := by
      rw [guardKey, ← length_ids, same, length_ids, guardKey]
    exact (turned.guarded.resolve_right (place ▸ last)).trans same
  · obtain ⟨before, last⟩ := split all
    obtain ⟨here, apart⟩ := left.parts index id known before
    constructor
    · rw [getElem?_ids, turned.getElem?_of_not_touch left.stands last, ← getElem?_ids, here]
    · rw [List.forall_mem_append, List.forall_mem_singleton]
      exact ⟨apart, fun parts => last (turned.parts index id (.inl here) parts)⟩

theorem exists_left (stands : old.Stands file chain) (passage : Crew.Passage Turn old since now) :
    ∃ current, Left now file chain current (since.map Prod.snd) := by
  induction passage with
  | refl => exact ⟨chain, stands, fun _ => rfl, fun index id known _ => ⟨known, by simp⟩⟩
  | step _ turn ih =>
    obtain ⟨current, left⟩ := ih
    obtain ⟨next, turned⟩ := turn file current left.stands
    refine ⟨next, ?_⟩
    rw [List.map_append]
    exact left.step turned

theorem exists_fits (stands : old.Stands file chain) (passage : Crew.Passage Turn old since now)
    (clear : ∀ deed ∈ since, ∀ key, (writes.find? key).isSome → deed.2.find? key = none) :
    ∃ current, Fits old now file chain current writes := by
  obtain ⟨current, left⟩ := exists_left stands passage
  have untouched {key : Key} (touch : writes.Touch key) : ∀ made ∈ since.map Prod.snd, ¬ made.Touch key := by
    rw [List.forall_mem_map]
    intro deed member
    rw [Writes.Touch, clear deed member key.bytes touch]
    exact Bool.false_ne_true
  have same {key : Key} (unwritten : ∀ made ∈ since.map Prod.snd, ¬ made.Touch key) :
      now key.bytes = old key.bytes := by
    rw [List.forall_mem_map] at unwritten
    exact passage.unwritten fun deed member => Option.not_isSome_iff_eq_none.1 (unwritten deed member)
  refine ⟨current, left.stands, fun key touch => same (untouched touch),
    fun touch => left.guarded (untouched touch), fun index id known touch => ?_⟩
  obtain ⟨_, apart⟩ := left.parts index id known (untouched touch)
  exact ⟨same fun made member touch => apart made member (.inl touch),
    same fun made member touch => apart made member (.inr touch)⟩

theorem Edited.turned_other (edited : Edited old file chain next writes) (differ : other ≠ file)
    (stands : now.Stands other current) (apart : ∀ id ∈ ids current, id ∉ ids chain ++ ids next) :
    Turned now other current current writes := by
  have untouched (index : UInt64) : ¬ writes.Touch (.fileBlock other index) := by
    intro touch
    obtain ⟨key, same, concerns⟩ := edited.scope _ touch
    obtain rfl : key = .fileBlock other index := Key.bytes_injective same
    exact differ concerns
  have noParts {id : Int64} (member : id ∈ ids current) : ¬ Parts writes id :=
    fun parts => apart id member (concerns_of_parts edited parts)
  have after : (now.write writes).Stands other current := by
    apply stands.write edited.named stands.linked
    · intro index
      rw [Contents.write_of_not_touch (untouched index), stands.entries]
    · intro index entry held
      have member := List.mem_of_getElem? held
      obtain ⟨noInfo, noReplicas⟩ := not_or.1 (noParts (List.mem_map_of_mem member))
      exact (stands.backed entry member).of_not_touch noInfo noReplicas
  refine ⟨after, .inl rfl, fun index id known parts => ?_, fun index id known new => absurd known new⟩
  rw [or_self] at known
  exact absurd parts (noParts (List.mem_of_getElem? known))

def Kept (owner : Int64 → Int64) (contents : Contents) : Prop :=
  ∀ file, ∃ chain, contents.Stands file chain ∧ ∀ id ∈ ids chain, owner id = file

namespace Kept

variable {owner : Int64 → Int64}

theorem empty (owner : Int64 → Int64) : Kept owner .empty := by
  intro file
  refine ⟨[], ⟨linked_nil, fun index => rfl, fun key written _ => ?_, by simp⟩, by simp [ids]⟩
  simp [Contents.empty] at written

theorem owner_eq (kept : Kept owner now) (stands : now.Stands file chain) : ∀ id ∈ ids chain, owner id = file := by
  obtain ⟨found, also, owned⟩ := kept file
  rwa [stands.unique also]

theorem exists_turned (before : Kept owner old) (kept : Kept owner now) (passage : Crew.Passage Turn old since now)
    (does : Task.Does old task writes) (own : ∀ id ∈ task.blocks, owner id = task.file)
    (clear : ∀ deed ∈ since, ∀ key, (writes.find? key).isSome → deed.2.find? key = none) (file : Int64) :
    ∃ current next, Turned now file current next writes ∧ now.Stands file current ∧
      ∀ id ∈ ids next, owner id = file := by
  obtain ⟨chain, next, edited, known⟩ := does
  have ownChain := before.owner_eq edited.before
  have ownNext : ∀ id ∈ ids next, owner id = task.file := fun id member =>
    (List.mem_append.1 (known member)).elim (own id) (ownChain id)
  by_cases same : file = task.file
  · subst same
    obtain ⟨current, fits⟩ := exists_fits edited.before passage clear
    obtain ⟨latest, merged⟩ := edited.exists_merged fits
    refine ⟨current, latest, merged.turned edited fits, fits.stands, ?_⟩
    rcases merged.order with ⟨order, _⟩ | ⟨order, _⟩
    · rw [order]
      exact kept.owner_eq fits.stands
    · rwa [order]
  · obtain ⟨current, stands, owned⟩ := kept file
    refine ⟨current, current, edited.turned_other same stands ?_, stands, owned⟩
    intro id member also
    apply same
    rw [← owned id member]
    exact (List.mem_append.1 also).elim (ownChain id) (ownNext id)

end Kept

def discipline (owner : Int64 → Int64) : Crew.Discipline Task.perform where
  State := Kept owner
  Does := Task.Does
  Fair _ task _ := ∀ id ∈ task.blocks, owner id = task.file
  turn := Turn
  confined task := task.only_perform.anything.confined
  performs old task kept := by
    obtain ⟨chain, stands, _⟩ := kept task.file
    exact Task.ensures_perform stands
  publishes old since now task writes before kept passage does own clear := by
    have turned := before.exists_turned kept passage does own clear
    constructor
    · intro file
      obtain ⟨_, next, turned, _, owned⟩ := turned file
      exact ⟨next, turned.stands, owned⟩
    · intro file chain stands
      obtain ⟨current, next, turned, also, _⟩ := turned file
      rw [stands.unique also]
      exact ⟨next, turned⟩

def Task.Apart (one two : Task) : Prop := ∀ id ∈ one.blocks, id ∈ two.blocks → one.file = two.file

-- The ids are tried one by one, for there are too many that could be one of them.
instance Task.decidableApart (one two : Task) : Decidable (one.Apart two) :=
  List.decidableBAll (fun id => id ∈ two.blocks → one.file = two.file) one.blocks

def Unshared (tasks : List Task) : Prop := ∀ one ∈ tasks, ∀ two ∈ tasks, one.Apart two

instance decidableUnshared (tasks : List Task) : Decidable (Unshared tasks) :=
  inferInstanceAs (Decidable (∀ one ∈ tasks, ∀ two ∈ tasks, one.Apart two))

def ownerIn (tasks : List Task) (id : Int64) : Int64 :=
  ((tasks.find? fun task => id ∈ task.blocks).map Task.file).getD 0

theorem Unshared.ownerIn_eq {tasks : List Task} (unshared : Unshared tasks) (member : task ∈ tasks) {id : Int64}
    (given : id ∈ task.blocks) : ownerIn tasks id = task.file := by
  rw [ownerIn]
  cases found : tasks.find? fun task => id ∈ task.blocks with
  | none => exact absurd (decide_eq_true given) (List.find?_eq_none.1 found task member)
  | some other =>
    have also : id ∈ other.blocks := by simpa using List.find?_some found
    exact unshared other (List.mem_of_find?_eq_some found) task member id also given

open Crew (Event Steady opened run)

theorem stands_of_unshared (journal : Option Journal.Log) (events : List (Event Task))
    (steady : Steady Task.perform (opened [] journal) events)
    (unshared : Unshared ((run Task.perform (opened [] journal) events).commits.filterMap (·.session.note)))
    (file : Int64) :
    ∃ chain, (run Task.perform (opened [] journal) events).store.committed.Stands file chain := by
  let tasks := (run Task.perform (opened [] journal) events).commits.filterMap (·.session.note)
  have fair : Crew.Committed (Contents.replay []) (run Task.perform (opened [] journal) events).commits
      (discipline (ownerIn tasks)).Fair := by
    intro count commit task recorded noted id given
    exact unshared.ownerIn_eq (List.mem_filterMap.2 ⟨commit, List.mem_of_getElem? recorded, noted⟩) given
  obtain ⟨chain, stands, _⟩ := (discipline (ownerIn tasks)).state_run [] journal steady (Kept.empty _) fair file
  exact ⟨chain, stands⟩

def addition (file block : Int64) : Task :=
  .upsert file block { numberBytes := 512 } {} (by rw [BlockMeta.Sized]; decide) fun _ member => by cases member

/-- On a file with one block, one transaction puts another behind it while the next one drops all; the
last one fills another file. The second of them is refused. -/
def contended : List (Event Task) :=
  [.begin, .perform 0 (addition 1 10) .never [] false, .commit 0,
    .begin, .begin, .begin,
    .perform 1 (addition 1 11) .never [] false,
    .perform 2 (.truncate 1 0) .never [] false,
    .perform 3 (addition 2 20) .never [] false,
    .commit 1, .commit 2, .commit 3]

theorem stands_of_unshared_contended :
    let world := run Task.perform (opened [] none) contended
    world.commits.map (·.session.note.map Task.file) = [some 1, some 1, some 2] ∧
      ∃ chain, world.store.committed.Stands 1 chain ∧ chain[1]? = some ⟨11, 512, 0⟩ := by
  intro world
  have last : world.store.committed (Key.fileBlock 1 1).bytes = some (Record.encode (FileBlock.mk 11 512 0)) := by
    decide +kernel
  have steady : Steady Task.perform (opened [] none) contended := Crew.steady_of_length_lt (by decide)
  obtain ⟨chain, stands⟩ := stands_of_unshared none contended steady (by decide +kernel) 1
  exact ⟨by decide +kernel, chain, stands, stands.entry_iff.1 last⟩

end FsMeta.Chain

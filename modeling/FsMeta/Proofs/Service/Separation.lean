import FsMeta.Proofs.Chain.Turns
import FsMeta.Proofs.Indifference
import FsMeta.Proofs.Service.Childless

set_option autoImplicit false

namespace FsMeta

open Scoped (Ensures Indifferent Only)

def Store.named (store : Store) (file : Int64) : List Int64 :=
  (store.visibleAt store.clock).entries.filterMap fun pair =>
    if (Key.fileBlocks file).isPrefixOf pair.1 then
      (Record.decode pair.2 : Except Error FileBlock).toOption.map FileBlock.blockId
    else none

theorem Store.mem_named {store : Store} {file id : Int64} :
    id ∈ store.named file ↔ store.committed.Names file id := by
  rw [named, List.mem_filterMap]
  constructor
  · rintro ⟨⟨key, bytes⟩, member, named⟩
    rw [Table.mem_entries_iff, find?_visibleAt] at member
    split at named
    · rename_i begins
      cases decoded : (Record.decode bytes : Except Error FileBlock) with
      | error error =>
        rw [decoded] at named
        cases named
      | ok entry =>
        rw [decoded] at named
        cases named
        exact ⟨key, bytes, entry, begins, member, decoded, rfl⟩
    · cases named
  · rintro ⟨key, bytes, entry, begins, held, decoded, rfl⟩
    refine ⟨(key, bytes), ?_, ?_⟩
    · rwa [Table.mem_entries_iff, find?_visibleAt]
    · rw [if_pos begins, decoded]
      rfl

structure Contents.Agree (one two : Contents) (file : Int64) : Prop where
  entries : ∀ key, (Key.fileBlocks file).isPrefixOf key = true → one key = two key
  infos : ∀ id, one.Names file id → one (Key.blockMeta id).bytes = two (Key.blockMeta id).bytes
  replicas : ∀ id, one.Names file id → one (Key.blockStorage id).bytes = two (Key.blockStorage id).bytes

namespace Chain

variable {one two : Contents} {file : Int64}

theorem indifferent_part (α : Type) [Record α] (file : Int64) (entry : ChainEntry) (name : String) {key : Key}
    (same : one key.bytes = two key.bytes) : Indifferent one two (part α file entry name key) := by
  refine .bind (.find? α same) ((Only.find? α _).confined one .empty) fun value _ _ => ?_
  cases value with
  | some value => exact .pure _
  | none => exact .throw _

variable (agree : one.Agree two file)
include agree

theorem indifferent_entries : Indifferent one two (entries file) :=
  .require fun _ => .bind (.scan agree.entries) ((Only.scan _).confined one .empty) fun _ _ _ => .lift _

theorem indifferent_resolved : Indifferent one two (resolved file) := by
  refine .bind (indifferent_entries agree) ensures_entries_named fun chain _ ⟨_, named⟩ => ?_
  rw [Contents.write_empty] at named
  refine .mapM (only_resolve file) fun entry member => ?_
  have info := indifferent_part BlockMeta file entry "meta" (agree.infos _ (named entry member))
  have replicas := indifferent_part BlockStorage file entry "storage" (agree.replicas _ (named entry member))
  refine .bind info ((only_part _ _ _ _ _).confined one .empty) fun _ _ _ => ?_
  exact .bind replicas ((only_part _ _ _ _ _).confined one .empty) fun _ _ _ => .pure _

theorem indifferent_blocks : Indifferent one two (blocks file) :=
  .bind (indifferent_resolved agree) ((only_resolved file).confined one .empty) fun _ _ _ => .pure _

theorem indifferent_loadFile {node : INode} (held : one.Holds (.inode file) node)
    (also : two.Holds (.inode file) node) : Indifferent one two (Service.loadFile file false) := by
  refine .bind (.require fun _ => .find held also) ((Tree.only_inode file).confined one .empty) fun _ _ _ => ?_
  refine .require fun _ => ?_
  exact .bind (indifferent_blocks agree) ((only_blocks file).confined one .empty) fun _ _ _ => .pure _

end Chain

variable {base : Contents} {writes : Writes} {file : Int64} {meant : Int64 → Prop} {key : Bytes}
  {value : Option Bytes}

theorem Contents.Labelled.of_extended {allowed : Bytes → Option Bytes → Prop} (labelled : base.Labelled)
    (extended : Writes.Extended allowed .empty writes)
    (own : ∀ (id : Int64) (value : Option Bytes), allowed (Key.blockMeta id).bytes value →
      ∀ (bytes : Bytes) (info : BlockMeta), value = some bytes → Record.decode bytes = .ok info →
        info.id = id) : (base.write writes).Labelled := by
  rintro id info ⟨bytes, held, decoded⟩
  rcases extended.write base (Key.blockMeta id).bytes with same | known
  · rw [same, Contents.write_empty] at held
    exact labelled id info ⟨bytes, held, decoded⟩
  · exact own id _ known bytes info held decoded

theorem Contents.Labelled.of_deleting (labelled : base.Labelled) (deleted : Writes.Extended Deleting .empty writes) :
    (base.write writes).Labelled :=
  labelled.of_extended deleted fun _ _ gone _ _ kept => by cases gone.symm.trans kept

def Around (file : Int64) (meant : Int64 → Prop) (key : Bytes) (value : Option Bytes) : Prop :=
  Chain.Within file meant key value ∨ OnTree key value

theorem Around.permits {known : Key} (around : Around file meant known.bytes value) (off : ¬ known.OnTree) :
    Chain.Permits file meant value known := by
  rcases around with ⟨other, same, permits⟩ | ⟨other, same, tree⟩
  · exact Key.bytes_injective same ▸ permits
  · exact absurd (Key.bytes_injective same ▸ tree) off

section

variable (around : Writes.Extended (Around file meant) .empty writes)
include around

theorem meant_of_parts {id : Int64} (parts : Chain.Parts writes id) : meant id := by
  have permits {known : Key} (touch : writes.Touch known) (off : ¬ known.OnTree) :
      ∃ value, Chain.Permits file meant value known := by
    rcases around known.bytes with same | ⟨value, _, allowed⟩
    · rw [Writes.Touch, same] at touch
      cases touch
    · exact ⟨value, allowed.permits off⟩
  rcases parts with touch | touch
  · obtain ⟨_, known, _⟩ := permits touch not_false
    exact known
  · obtain ⟨_, known⟩ := permits touch not_false
    exact known

theorem write_begins_of_around {other : Int64} (differ : other ≠ file)
    (begins : (Key.fileBlocks other).isPrefixOf key = true) : base.write writes key = base key := by
  rw [← congrFun (Contents.write_empty base) key]
  refine around.write_of_never base fun value allowed => ?_
  rcases allowed with ⟨known, rfl, permits⟩ | ⟨known, rfl, tree⟩
  · obtain ⟨index, rfl⟩ := Key.eq_fileBlock_of_isPrefixOf begins
    exact differ permits
  · obtain ⟨index, rfl⟩ := Key.eq_fileBlock_of_isPrefixOf begins
    exact tree

theorem labelled_of_around (labelled : base.Labelled) : (base.write writes).Labelled :=
  labelled.of_extended around fun _ _ allowed => (allowed.permits not_false).2

end

theorem Contents.names_of_onTree {id : Int64} (onTree : Writes.Extended OnTree .empty writes)
    (names : (base.write writes).Names file id) : base.Names file id := by
  obtain ⟨place, bytes, entry, begins, held, decoded, same⟩ := names
  have unwritten : base.write writes place = base.write .empty place := by
    refine onTree.write_of_never base fun value ⟨known, named, tree⟩ => ?_
    subst named
    obtain ⟨index, rfl⟩ := Key.eq_fileBlock_of_isPrefixOf begins
    exact tree
  rw [unwritten, Contents.write_empty] at held
  exact ⟨place, bytes, entry, begins, held, decoded, same⟩

def Sparing (file : Int64) (meant : Int64 → Prop) (key : Bytes) (value : Option Bytes) : Prop :=
  Around file meant key value ∧ ∀ other ≠ file, (Key.inode other).bytes ≠ key

theorem Chain.Within.sparing (within : Chain.Within file meant key value) : Sparing file meant key value := by
  refine ⟨.inl within, fun other _ same => ?_⟩
  obtain ⟨known, rfl, permits⟩ := within
  cases Key.bytes_injective same
  exact permits

theorem Unlinking.sparing (unlinking : Unlinking key value) : Sparing file meant key value := by
  refine ⟨.inr unlinking.planting.1, fun other _ same => ?_⟩
  obtain ⟨⟨parent, name, rfl⟩, _⟩ := unlinking
  cases Key.bytes_injective same

theorem Tree.ensures_deleteFile_sparing (named : ∀ id, (base.write writes).Names file id → meant id) :
    Ensures base (deleteFile file) writes fun _ later => writes.Extended (Sparing file meant) later := by
  refine .bind ((only_inode file).reads base writes |>.mono ?_)
  rintro node _ rfl
  dsimp only
  split
  · exact .bind .throw
  · refine .bind ((Chain.ensures_deleteAll_within named).mono fun _ between removed => ?_)
    have own : Sparing file meant (Key.inode file).bytes none := by
      refine ⟨.inr (.inode file none), fun other differ same => ?_⟩
      cases Key.bytes_injective same
      exact differ rfl
    have unlinks : Only (Sparing file meant) (deleteInode file >>= fun _ => unlink node) :=
      .bind (.delete own) fun _ => (only_unlink node).mono fun _ _ => Unlinking.sparing
    have erased := removed.mono fun _ _ erasing => Chain.Within.sparing erasing.1
    exact (unlinks base between).mono fun _ _ more => erased.trans more

structure Separate (base : Contents) (file : Int64) (meant : Int64 → Prop) (writes : Writes) : Prop where
  around : Writes.Extended (Around file meant) .empty writes
  inodes : ∀ other ≠ file, ∀ node : INode,
    (base.write writes).Holds (.inode other) node ↔ base.Holds (.inode other) node

theorem Separate.of_sparing (spared : Writes.Extended (Sparing file meant) .empty writes) :
    Separate base file meant writes where
  around := spared.mono fun _ _ => And.left
  inodes := by
    intro other differ node
    have same := spared.write_of_never base fun _ sparing => sparing.2 other differ rfl
    rw [Contents.Holds, Contents.Holds, same, Contents.write_empty]

namespace Service

namespace Request

def owner : Request → Option Int64
  | putFile id _ | updateFile id _ | deleteFile id | truncateFile id _ => some id
  | putFileBlock owner _ _ | updateFileBlock owner _ _ | deleteFileBlock owner _ => some owner
  | _ => none

def given : Request → List Int64
  | updateFile _ content => content.blocks.map Block.id
  | putFileBlock _ id _ | updateFileBlock _ id _ | deleteFileBlock _ id => [id]
  | _ => []

def Means (request : Request) (base : Contents) (file id : Int64) : Prop :=
  id ∈ request.given ∨ base.Names file id

theorem ensures_separate {request : Request} (owned : request.owner = some file)
    (sized : ∀ node, request.written = some node → node.Sized) (labelled : base.Labelled) :
    Ensures base request.action .empty fun _ later => Separate base file (request.Means base file) later := by
  have idle : base.write .empty = base := Contents.write_empty base
  have separate {α : Type} {action : Scoped α} (within : Ensures base action .empty fun _ later =>
      Writes.Extended (Chain.Within file (request.Means base file)) .empty later) :
      Ensures base action .empty fun _ later => Separate base file (request.Means base file) later :=
    within.mono fun _ _ extended => .of_sparing (extended.mono fun _ _ => Chain.Within.sparing)
  have named : ∀ id, (base.write .empty).Names file id → request.Means base file id := by
    rw [idle]
    exact fun _ => .inr
  cases request with
  | putFile id node =>
    cases owned
    refine ((Tree.only_create _ base .empty).and (ensures_created (sized _ rfl))).mono ?_
    rintro _ _ ⟨onTree, created⟩
    exact ⟨onTree.mono fun _ _ => .inr, created.others⟩
  | updateFile id content =>
    cases owned
    refine .bind ((Tree.only_inode file).reads base .empty |>.mono ?_)
    rintro _ _ rfl
    refine .bind (((Tree.only_create _ base .empty).and (ensures_created (sized _ rfl))).mono ?_)
    rintro _ between ⟨onTree, created⟩
    -- Writing the inode first changes no chain, so the blocks of the file are still those that it had.
    have before : ∀ id, (base.write between).Names file id → (updateFile file content).Means base file id :=
      fun _ names => .inr (Contents.names_of_onTree onTree names)
    have listed : ∀ block ∈ content.blocks, (updateFile file content).Means base file block.id :=
      fun _ member => .inl (List.mem_map_of_mem member)
    refine (Chain.ensures_replace_within before listed).mono fun _ later within => ?_
    have apart : Writes.Extended OffTree between later := within.mono fun _ _ => Chain.Within.offTree
    refine ⟨(onTree.mono fun _ _ => .inr).trans (within.mono fun _ _ => .inl), fun other differ node => ?_⟩
    exact (Contents.holds_congr fun _ => Contents.eq_of_offTree base apart).trans (created.others other differ node)
  | deleteFile id =>
    cases owned
    exact (Tree.ensures_deleteFile_sparing named).mono fun _ _ => .of_sparing
  | putFileBlock owner id generation =>
    cases owned
    exact separate (Chain.only_upsert_within (.inl (by simp [given])) _ _ base .empty)
  | updateFileBlock owner id content =>
    cases owned
    have puts : Only (Chain.Within file ((updateFileBlock file id content).Means base file))
        (replaceFileBlock file { content with id }) :=
      .bind (Chain.only_upsert_within (.inl (by simp [given])) _ _) fun _ => Chain.only_block _ _
    exact separate (puts base .empty)
  | deleteFileBlock owner id =>
    cases owned
    have erases : Only (Chain.Erasing file ((deleteFileBlock file id).Means base file)) (Chain.delete file id) :=
      Chain.only_delete_within (.inl (by simp [given]))
    exact separate ((erases.mono fun _ _ => And.left) base .empty)
  | truncateFile id size =>
    cases owned
    refine separate (.bind ((Tree.only_inode file).reads base .empty |>.mono ?_))
    rintro _ _ rfl
    -- The truncation writes the metas that it read, under the ids they carry: these must be the labels of the blocks.
    refine .bind (.lift fun _ _ => Chain.ensures_truncate_within named (fun id info names held => ?_) size)
    rw [idle] at held
    exact labelled id info held ▸ named id names
  | _ => cases owned

theorem ensures_labelled (request : Request) (sized : ∀ node, request.written = some node → node.Sized)
    (labelled : base.Labelled) :
    Ensures base request.action .empty fun _ later => (base.write later).Labelled := by
  have keeps {α : Type} {action : Scoped α} (only : Only (Around 0 fun _ => True) action) :
      Ensures base action .empty fun _ later => (base.write later).Labelled :=
    (only base .empty).mono fun _ _ around => labelled_of_around around labelled
  have moves {α : Type} {action : Scoped α} (only : Only OnTree action) := keeps (only.mono fun _ _ => .inr)
  have replicas (id : Int64) (value : Option Bytes) : Around 0 (fun _ => True) (Key.blockStorage id).bytes value :=
    .inl (Chain.within_replicas trivial value)
  have thins {α : Type} {action : Scoped α} (only : Only Deleting action) :
      Ensures base action .empty fun _ later => (base.write later).Labelled :=
    (only base .empty).mono fun _ _ deleted => labelled.of_deleting deleted
  cases owned : request.owner with
  | some file =>
    exact (ensures_separate owned sized labelled).mono fun _ _ separate =>
      labelled_of_around separate.around labelled
  | none =>
    cases request with
    | block id => exact keeps (only_loadBlock id)
    | putBlockMeta id info => exact keeps (.put (.inl (Chain.within_info { info with id } trivial)))
    | deleteBlockMeta id => exact keeps (.delete (.inl (Chain.within_removed trivial)))
    | blockStorage id => exact keeps (.find BlockStorage _)
    | addBlockStorage id location => exact keeps (only_addReplica (replicas id))
    | removeBlockStorage id location => exact keeps (only_removeReplica (replicas id))
    | file id simple => exact keeps (only_loadFile id simple)
    | fileBlock owner id => exact keeps (Chain.only_block owner id)
    | directory id => exact keeps (Tree.only_inode id)
    | putDirectory id node => exact moves (Tree.only_create _)
    | updateDirectory id node => exact moves (only_replaceDirectory id node)
    | deleteDirectory id => exact thins (Tree.only_deleteDirectory id)
    | children id simple => exact keeps (Tree.only_children id simple)
    | child parent name => exact keeps (Tree.only_child parent name true)
    | putChild parent name node => exact moves (Tree.only_create _)
    | deleteChild parent name => exact thins (Tree.only_deleteChild parent name)
    | reparent id source destination => exact moves (Tree.only_reparent _ _ _)
    | _ => cases owned

end Request

def reading (service : Service) (id : Int64) : Except Error INodeFile :=
  ({ service with engine := service.engine.calm }.run .never (Service.file id false)).1

theorem Runs.availability {α : Type} {operation : Operation α} {action : Scoped α} (runs : Runs operation action)
    (service : Service) (interrupts : Interrupts) :
    (service.run interrupts operation).2.availability = service.availability := by
  induction runs with
  | inScope => rfl
  | require requirement _ ih =>
    cases requirement with
    | error error => rfl
    | ok _ => exact ih
  | available _ ih =>
    have required := run_requireAvailable service interrupts
    cases state : service.availability.require with
    | error error => rw [run_bind_error (required.trans (by rw [state]))]
    | ok _ =>
      rw [run_bind_ok (required.trans (by rw [state]))]
      exact ih
  | @verified _ action only verify =>
    cases outcome : (service.engine.run interrupts action).1 with
    | error error =>
      have ran : service.run interrupts (Service.inScope action) = (.error error, _) := Prod.ext outcome rfl
      rw [run_bind_error ran]
      rfl
    | ok found =>
      have ran : service.run interrupts (Service.inScope action) = (.ok found, _) := Prod.ext outcome rfl
      rw [run_bind_ok ran]
      cases verify found <;> rfl

theorem reading_eq (service : Service) (id : Int64) : service.reading id =
    service.availability.require >>= fun _ => (service.engine.calm.run .never (loadFile id false)).1 := by
  have required := run_requireAvailable { service with engine := service.engine.calm } .never
  cases state : service.availability.require with
  | error error =>
    rw [reading, Service.file, run_bind_error (required.trans (by rw [state]))]
    rfl
  | ok _ =>
    rw [reading, Service.file, run_bind_ok (required.trans (by rw [state]))]
    rfl

theorem reading_congr {service later : Service} {id : Int64} (available : later.availability = service.availability)
    (indifferent : Indifferent (calls.contents service) (calls.contents later) (loadFile id false)) :
    later.reading id = service.reading id := by
  rw [reading_eq, reading_eq, available, Engine.run_same indifferent]

def Orderly (service : Service) : Prop := calls.Current service ∧ (calls.contents service).Labelled

theorem Orderly.serve {service : Service} (orderly : service.Orderly) {call : Call}
    (forward : calls.Forward service call) : (calls.serve service call).Orderly := by
  have ensures := call.request.ensures_labelled call.sized orderly.2
  obtain ⟨stays, ⟨_, same⟩ | ⟨_, _, labelled, written⟩⟩ := calls_settle orderly.1 forward ensures
  · exact ⟨stays, same ▸ orderly.2⟩
  · exact ⟨stays, written ▸ labelled⟩

theorem Orderly.separate {service : Service} (orderly : service.Orderly) {call : Call}
    (forward : calls.Forward service call) (owned : call.request.owner = some file)
    (done : ∃ value, service.answer call = .ok value) :
    let writes := service.engine.buffered call.interrupts call.request.action
    Separate (calls.contents service) file (call.request.Means (calls.contents service) file) writes ∧
      calls.contents (calls.serve service call) = (calls.contents service).write writes := by
  have ensures := Request.ensures_separate owned call.sized orderly.2
  obtain ⟨_, outcome⟩ := calls_settle orderly.1 forward ensures
  rcases outcome with ⟨⟨error, failed⟩, _⟩ | ⟨_, _, separate, written⟩
  · obtain ⟨value, done⟩ := done
    cases failed.symm.trans done
  · exact ⟨separate, written⟩

theorem reading_of_separate {service later : Service} {meant : Int64 → Prop} {writes : Writes} {other : Int64}
    {node : INode} (available : later.availability = service.availability)
    (written : calls.contents later = (calls.contents service).write writes)
    (separate : Separate (calls.contents service) file meant writes) (differ : other ≠ file)
    (held : (calls.contents service).Holds (.inode other) node)
    (unshared : ∀ id, Chain.Parts writes id → ¬ (calls.contents service).Names other id) :
    later.reading other = service.reading other := by
  apply reading_congr available
  rw [written]
  refine Chain.indifferent_loadFile ?_ held ((separate.inodes other differ node).2 held)
  have untouched (id : Int64) (names : (calls.contents service).Names other id) :=
    not_or.1 fun parts : Chain.Parts writes id => unshared id parts names
  exact {
    entries := fun key begins => (write_begins_of_around separate.around differ begins).symm
    infos := fun id names => (Contents.write_of_not_touch (untouched id names).1).symm
    replicas := fun id names => (Contents.write_of_not_touch (untouched id names).2).symm }

theorem reading_same_of_unshared (journal : Option Journal.Log) (loose : Bool) (schedule : Schedule)
    (requests : List Call) (steady : calls.Steady (fresh journal loose schedule) requests) :
    let after := calls.run (fresh journal loose schedule)
    ∀ earlier call, earlier ++ [call] <+: requests → ∀ file, call.request.owner = some file →
      (∃ value, (after earlier).answer call = .ok value) →
      let contents := calls.contents (after earlier)
      let writes := (after earlier).engine.buffered call.interrupts call.request.action
      (∀ id, Chain.Parts writes id → id ∈ call.request.given ∨ contents.Names file id) ∧
        ∀ other ≠ file, (∃ node : INode, contents.Holds (.inode other) node) →
          (∀ id, Chain.Parts writes id → ¬ contents.Names other id) →
          (after (earlier ++ [call])).reading other = (after earlier).reading other := by
  intro after earlier call leads file owned done contents writes
  have start : (fresh journal loose schedule).Orderly :=
    ⟨fun _ _ found => (by cases found), fun _ _ ⟨_, held, _⟩ => (by cases held)⟩
  have orderly : (after earlier).Orderly :=
    Server.always (fun _ _ orderly => orderly.serve) start steady ((List.prefix_append _ _).trans leads)
  have forward := Server.forward_of_steady steady leads
  obtain ⟨separate, written⟩ := orderly.separate forward owned done
  have next : after (earlier ++ [call]) = calls.serve (after earlier) call := Server.run_append _ _ _ _
  refine ⟨fun _ => meant_of_parts separate.around, fun other differ ⟨node, held⟩ unshared => ?_⟩
  rw [next]
  have available := call.request.operation_runs.availability (after earlier) call.interrupts
  exact reading_of_separate available written separate differ held unshared

def Call.putFileBlock (owner id generation : Int64) : Call where
  interrupts := .never
  request := .putFileBlock owner id generation
  sized := by
    rintro _ ⟨⟩

def twoFiles : List Call :=
  [.putFile 1 9 "front" ⟨by decide, by decide, by decide⟩,
    .putFile 2 9 "back" ⟨by decide, by decide, by decide⟩, .putFileBlock 1 10 4]

-- Each of them gets a block of its own.
theorem reading_same_of_unshared_beside :
    let after := calls.run (fresh none false [])
    let later := after (twoFiles ++ [.putFileBlock 2 20 5])
    ((after twoFiles).reading 1).isOk = true ∧ later.reading 1 = (after twoFiles).reading 1 ∧
      later.store.named 2 = [20] := by
  intro after later
  refine ⟨by decide +kernel, ?_, by decide +kernel⟩
  have accepted : ((after twoFiles).answer (.putFileBlock 2 20 5)).isOk = true := by decide +kernel
  have done : ∃ value, (after twoFiles).answer (.putFileBlock 2 20 5) = .ok value := by
    cases outcome : (after twoFiles).answer (.putFileBlock 2 20 5) with
    | ok value => exact ⟨value, rfl⟩
    | error error =>
      rw [outcome] at accepted
      cases accepted
  obtain ⟨parts, same⟩ := reading_same_of_unshared none false [] (twoFiles ++ [.putFileBlock 2 20 5])
    (by decide +kernel) twoFiles (.putFileBlock 2 20 5) List.prefix_rfl 2 rfl done
  have held : (calls.contents (after twoFiles)).Holds (.inode 1) (plainFile 1 9 "front") :=
    ⟨Record.encode (plainFile 1 9 "front"), by decide +kernel,
      Record.decode_encode_inode ⟨by decide, by decide, by decide⟩⟩
  refine same 1 (by decide) ⟨_, held⟩ fun id written names => ?_
  have first : (after twoFiles).store.named 1 = [10] := by decide +kernel
  have second : (after twoFiles).store.named 2 = [] := by decide +kernel
  have ten : id ∈ (after twoFiles).store.named 1 := Store.mem_named.2 names
  rw [first] at ten
  rcases parts id written with given | also
  · have twenty : id ∈ [(20 : Int64)] := given
    cases (List.mem_singleton.1 ten).symm.trans (List.mem_singleton.1 twenty)
  · have named : id ∈ (after twoFiles).store.named 2 := Store.mem_named.2 also
    rw [second] at named
    cases named

-- Both of them get the same block, and the second one says anew what it is.
theorem reading_changed_of_shared :
    let after := calls.run (fresh none false [])
    let later := after (twoFiles ++ [.putFileBlock 2 10 5])
    calls.Steady (fresh none false []) (twoFiles ++ [.putFileBlock 2 10 5]) ∧
      (Call.putFileBlock 2 10 5).request.owner = some 2 ∧
      ((after twoFiles).answer (.putFileBlock 2 10 5)).isOk = true ∧
      ((after twoFiles).reading 2).isOk = true ∧
      ((after twoFiles).reading 1).toOption.map INodeFile.blocks = some [{ id := 10, generation := 4 }] ∧
      (later.reading 1).toOption.map INodeFile.blocks = some [{ id := 10, generation := 5 }] := by
  decide +kernel

end Service

end FsMeta

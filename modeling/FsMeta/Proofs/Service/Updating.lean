import FsMeta.Proofs.Chain.Replacing
import FsMeta.Proofs.Service.Separation
import FsMeta.Proofs.Tree.Creation

set_option autoImplicit false

namespace FsMeta.Service

open Contents (Placed)
open Scoped (Ensures Yields)

variable {base : Contents} {service : Service} {interrupts : Interrupts} {id : Int64} {node : INode}
variable {content : INodeFile} {chain : List ChainBlock}

theorem yields_file {α : Type} {next : INode → Scoped α} {post : Except Error α → Writes → Prop} (positive : 0 < id)
    (held : base.Holds (.inode id) node) (kind : node.kind = .file) (yields : Yields base (next node) .empty post) :
    Yields base (Tree.inode id >>= fun found => liftM (requireKind found .file) >>= fun _ => next found) .empty
      post := by
  have whole : base.write .empty = base := Contents.write_empty base
  refine Tree.yields_inode (.inr ⟨node, whole.symm ▸ held⟩) (fun _ low _ => absurd positive low)
    (fun _ absent => absurd (whole.symm ▸ held) (Contents.not_holds_of_absent absent node)) fun _ found also => ?_
  obtain rfl : found = node := (whole ▸ also).unique held
  refine .require (fun _ refused => ?_) fun _ _ => yields
  rw [requireKind, if_pos kind] at refused
  cases refused

theorem yields_loadFile (positive : 0 < id) (held : base.Holds (.inode id) node) (kind : node.kind = .file)
    (resolved : base.Resolved id chain) :
    Yields base (loadFile id false) .empty fun result later =>
      result = .ok { inode := node, blocks := chain.map ChainBlock.block } ∧ later = .empty := by
  have chained : (base.write .empty).Resolved id chain := (Contents.write_empty base).symm ▸ resolved
  refine yields_file positive held kind (.bind (.bind (Chain.yields_resolved positive chained (.pure ?_))))
  exact .pure ⟨rfl, rfl⟩

theorem reading_of_resolved (available : service.availability = .available) (positive : 0 < id)
    (held : (calls.contents service).Holds (.inode id) node) (kind : node.kind = .file)
    (resolved : (calls.contents service).Resolved id chain) :
    service.reading id = .ok { inode := node, blocks := chain.map ChainBlock.block } := by
  rw [reading_eq, available]
  exact Engine.run_calm_yields (yields_loadFile positive held kind resolved)

theorem run_available {α : Type} {action : Scoped α} (available : service.availability = .available) :
    service.run interrupts (requireAvailable >>= fun _ => inScope action) =
      ((service.engine.run interrupts action).1,
        { service with engine := (service.engine.run interrupts action).2 }) := by
  have required : service.run interrupts requireAvailable = (.ok (), service) := by
    rw [run_requireAvailable, available]
    rfl
  rw [run_bind_ok required]
  rfl

theorem available_of_ok {α : Type} {operation : Operation α} {value : α}
    (done : (service.run interrupts (requireAvailable >>= fun _ => operation)).1 = .ok value) :
    service.availability = .available := by
  cases state : service.availability with
  | available => rfl
  | closed =>
    have required := run_requireAvailable service interrupts
    rw [state] at required
    rw [run_bind_error required] at done
    cases done

theorem ensures_replaceFile_placed (sized : { content.inode with id, kind := .file }.Sized) :
    Ensures base (replaceFile id content) .empty fun _ later => 0 < id ∧ Chain.Linked (Chain.laid content.blocks) ∧
      (base.write later).Holds (.inode id) { content.inode with id, kind := .file } ∧
      (base.write later).Placed id content.blocks := by
  refine .bind ((Tree.only_inode id).reads base .empty |>.mono ?_)
  rintro _ _ rfl
  refine .bind ((Request.ensures_created sized).mono fun _ between created => ?_)
  refine (Chain.ensures_replace_placed.and (Chain.only_replace id content.blocks base between)).mono ?_
  rintro _ later ⟨⟨positive, linked, placed⟩, extended⟩
  exact ⟨positive, linked, (created.congr fun _ => Contents.eq_of_offTree base extended).own, placed⟩

theorem yields_replaceFile_same (encoded : base.Encoded) (creatable : base.Creatable node)
    (held : base.Holds (.inode node.id) node) (kind : node.kind = .file)
    (linked : base.Holds (.child node.parentId node.name) (ChildLink.mk node.id)) {blocks : List Block}
    (chained : Chain.Linked (Chain.laid blocks)) (placed : base.Placed node.id blocks)
    (counts : ∀ block ∈ blocks, block.info.Counts) :
    Yields base (replaceFile node.id { inode := node, blocks }) .empty fun result later =>
      result = .ok () ∧ base.write later = base := by
  have whole : base.write .empty = base := Contents.write_empty base
  have same : { node with id := node.id, kind := .file } = node := by
    rw [← kind]
  refine Tree.yields_inode (.inr ⟨node, whole.symm ▸ held⟩) (fun _ low _ => absurd creatable.positive low)
    (fun _ absent => absurd (whole.symm ▸ held) (Contents.not_holds_of_absent absent node)) fun _ _ _ => ?_
  dsimp only
  rw [same]
  refine .bind ((Tree.yields_create_same encoded creatable held linked).mono ?_)
  rintro _ between ⟨rfl, unchanged⟩
  refine (Chain.yields_replace_same creatable.positive chained (unchanged.symm ▸ placed) counts).mono ?_
  rintro _ _ ⟨done, again⟩
  exact ⟨done, again.trans unchanged⟩

theorem update_read_inverse (service : Service) (id : Int64) :
    let before := calls.contents service
    (∀ (interrupts : Interrupts) (content : INodeFile), content.inode.Sized → (∀ block ∈ content.blocks, block.Sized) →
      (∀ block ∈ content.blocks, block.storage.length < UInt64.size) → calls.Current service →
      let updated := service.run interrupts (updateFile id content)
      service.store.clock ≤ updated.2.store.clock → updated.1 = .ok () →
        updated.2.reading id =
          .ok { inode := { content.inode with id, kind := .file }, blocks := content.blocks.map Block.once }) ∧
    ∀ (node : INode) (chain : List FileBlock), service.availability = .available →
      before.Encoded → before.Described → before.Holds (.inode id) node → node.kind = .file → before.Creatable node →
      before.Holds (.child node.parentId node.name) (ChildLink.mk id) → before.Stands id chain →
      (∀ entry ∈ chain, before.Proper entry.blockId) →
        ∃ content, service.reading id = .ok content ∧ (service.engine.Clear (replaceFile id content) →
          let updated := service.run .never (updateFile id content)
          updated.1 = .ok () ∧ calls.contents updated.2 = before) := by
  intro before
  constructor
  · intro interrupts content inode sized short current updated forward done
    have fits : { content.inode with id, kind := .file }.Sized := ⟨inode.name, inode.clientName, inode.clientMachine⟩
    let call : Call := ⟨interrupts, .updateFile id content, by rintro _ ⟨⟩; exact fits⟩
    obtain ⟨_, ⟨⟨error, failed⟩, _⟩ | ⟨_, _, ⟨positive, linked, held, placed⟩, written⟩⟩ :=
      @calls_settle service call _ current forward (ensures_replaceFile_placed fits)
    · cases failed.symm.trans done
    · have available : updated.2.availability = .available :=
        (call.request.operation_runs.availability service interrupts).trans (available_of_ok done)
      have written : calls.contents updated.2 = before.write _ := written
      rw [← written] at held placed
      rw [reading_of_resolved available positive held rfl (placed.resolved linked sized short),
        Chain.map_block_standing]
  · intro node chain available encoded described held kind creatable linked stands proper
    -- The link leads to the id, and if it is free for the inode, it leads to that one.
    obtain rfl : node.id = id := by
      rcases creatable.free with absent | own
      · exact absurd linked (Contents.not_holds_of_absent absent _)
      · exact congrArg ChildLink.id (own.unique linked)
    obtain ⟨blocks, rfl, placed, stores⟩ := stands.exists_placed described proper
    have once : blocks.map Block.once = blocks := by
      have each : ∀ block ∈ blocks, block.once = id block := fun block member =>
        Block.once_of_nodup (stores block member).distinct
      rw [List.map_congr_left each, List.map_id]
    have resolved := placed.resolved stands.linked (fun block member => (stores block member).sized)
      fun block member => (stores block member).short
    refine ⟨{ inode := node, blocks }, ?_, fun clear => ?_⟩
    · rw [reading_of_resolved available creatable.positive held kind resolved, Chain.map_block_standing, once]
    · obtain ⟨_, ⟨done, same⟩, ended⟩ := service.engine.run_yields clear
        (yields_replaceFile_same encoded creatable held kind linked stands.linked placed
          fun block member => (stores block member).counts)
      intro updated
      have ran : updated = _ := run_available available
      rw [ran]
      exact ⟨done, (ended.done () done).trans same⟩

-- A file of two blocks. The first one has a replica.
def keptRecords : List (Key × Bytes) :=
  [(.inode 1, Record.encode (plainFile 1 9 "a")), (.child 9 "a", Record.encode (ChildLink.mk 1)),
    (.fileBlock 1 0, Record.encode (FileBlock.mk 10 5 11)), (.fileBlock 1 1, Record.encode (FileBlock.mk 11 7 0)),
    (.blockMeta 10, Record.encode ({ id := 10, numberBytes := 5 } : BlockMeta)),
    (.blockMeta 11, Record.encode ({ id := 11, numberBytes := 7 } : BlockMeta)),
    (.blockStorage 10, Record.encode ({ id := 10, nodes := [Replication.first] } : BlockStorage)),
    (.blockStorage 11, Record.encode ({ id := 11 } : BlockStorage))]

def kept : Service := { engine := .holding keptRecords }

theorem mem_keptRecords {key : Key} {bytes : Bytes} (held : calls.contents kept key.bytes = some bytes) :
    (key, bytes) ∈ keptRecords := by
  obtain ⟨other, member, same⟩ := Engine.exists_of_holding held
  cases Key.bytes_injective same
  exact member

theorem encoded_kept : (calls.contents kept).Encoded where
  inodes id bytes held := by
    obtain ⟨rfl, rfl⟩ : id = 1 ∧ bytes = Record.encode (plainFile 1 9 "a") := by
      simpa [keptRecords] using mem_keptRecords held
    exact ⟨_, ⟨by decide, by decide, by decide⟩, rfl⟩
  links parent name bytes held := by
    obtain ⟨_, rfl⟩ : (parent = 9 ∧ name = "a") ∧ bytes = Record.encode (ChildLink.mk 1) := by
      simpa [keptRecords] using mem_keptRecords held
    exact ⟨_, rfl⟩

theorem sized_pool (id size : Int64) : BlockMeta.Sized { id, numberBytes := size } := by
  change (Utf8.encode "").length < UInt64.size
  decide

theorem sized_lone : BlockStorage.Sized { id := 10, nodes := [Replication.first] } := by
  intro location member
  rw [List.mem_singleton.1 member]
  exact Replication.sized_first

theorem described_kept : (calls.contents kept).Described where
  infos id bytes held := by
    have known : (id = 10 ∧ bytes = Record.encode ({ id := 10, numberBytes := 5 } : BlockMeta)) ∨
        (id = 11 ∧ bytes = Record.encode ({ id := 11, numberBytes := 7 } : BlockMeta)) := by
      simpa [keptRecords] using mem_keptRecords held
    rcases known with ⟨_, rfl⟩ | ⟨_, rfl⟩
    · exact ⟨_, sized_pool 10 5, rfl⟩
    · exact ⟨_, sized_pool 11 7, rfl⟩
  replicas id bytes held := by
    have known : (id = 10 ∧
          bytes = Record.encode ({ id := 10, nodes := [Replication.first] } : BlockStorage)) ∨
        (id = 11 ∧ bytes = Record.encode ({ id := 11 } : BlockStorage)) := by
      simpa [keptRecords] using mem_keptRecords held
    rcases known with ⟨_, rfl⟩ | ⟨_, rfl⟩
    · exact ⟨_, sized_lone, by decide, rfl⟩
    · exact ⟨_, Replication.sized_empty 11, by decide, rfl⟩

theorem infos_kept : (calls.contents kept).Holds (.blockMeta 10) ({ id := 10, numberBytes := 5 } : BlockMeta) ∧
    (calls.contents kept).Holds (.blockMeta 11) ({ id := 11, numberBytes := 7 } : BlockMeta) :=
  ⟨⟨_, by decide +kernel, Record.decode_encode_blockMeta (sized_pool 10 5)⟩,
    ⟨_, by decide +kernel, Record.decode_encode_blockMeta (sized_pool 11 7)⟩⟩

theorem replicas_kept :
    (calls.contents kept).Holds (.blockStorage 10) ({ id := 10, nodes := [Replication.first] } : BlockStorage) ∧
      (calls.contents kept).Holds (.blockStorage 11) ({ id := 11 } : BlockStorage) :=
  ⟨⟨_, by decide +kernel, Record.decode_encode_blockStorage sized_lone (by decide)⟩,
    ⟨_, by decide +kernel, Record.decode_encode_blockStorage (Replication.sized_empty 11) (by decide)⟩⟩

theorem stands_kept : (calls.contents kept).Stands 1 [FileBlock.mk 10 5 11, FileBlock.mk 11 7 0] where
  linked := Chain.linked_iff.2 (by simp [Chain.ids])
  entries index := by
    by_cases zero : index = 0
    · rw [zero]
      decide +kernel
    by_cases one : index = 1
    · rw [one]
      decide +kernel
    have beyond : 2 ≤ index.toNat := by
      rw [← UInt64.toNat_inj] at zero one
      have nothing : (0 : UInt64).toNat = 0 := rfl
      have single : (1 : UInt64).toNat = 1 := rfl
      omega
    rw [List.getElem?_eq_none beyond]
    cases held : calls.contents kept (Key.fileBlock 1 index).bytes with
    | none => rfl
    | some bytes => simpa [keptRecords, zero, one] using mem_keptRecords held
  keyed key stored begins := by
    obtain ⟨bytes, held⟩ := Option.isSome_iff_exists.1 stored
    obtain ⟨known, _, rfl⟩ := Engine.exists_of_holding held
    exact (Key.eq_fileBlock_of_isPrefixOf begins).imp fun _ same => congrArg Key.bytes same
  backed entry member := by
    rcases List.mem_pair.1 member with rfl | rfl
    · exact ⟨⟨_, infos_kept.1, rfl, rfl⟩, _, replicas_kept.1⟩
    · exact ⟨⟨_, infos_kept.2, rfl, rfl⟩, _, replicas_kept.2⟩

theorem proper_kept :
    ∀ entry ∈ [FileBlock.mk 10 5 11, FileBlock.mk 11 7 0], (calls.contents kept).Proper entry.blockId := by
  intro entry member
  rcases List.mem_pair.1 member with rfl | rfl
  · refine ⟨fun info held => ?_, fun replicas held => ?_, fun replicas held => ?_⟩
    · rw [held.unique infos_kept.1]
      exact ⟨by decide, by decide, by decide, by decide⟩
    · rw [held.unique replicas_kept.1]
    · rw [held.unique replicas_kept.1]
      decide
  · refine ⟨fun info held => ?_, fun replicas held => ?_, fun replicas held => ?_⟩
    · rw [held.unique infos_kept.2]
      exact ⟨by decide, by decide, by decide, by decide⟩
    · rw [held.unique replicas_kept.2]
    · rw [held.unique replicas_kept.2]
      decide

-- The second block comes first, with a replica that is listed twice, and the first one goes.
def rewritten : INodeFile where
  inode := plainFile 1 9 "b"
  blocks := [{ id := 11, numberBytes := 7, storage := [Replication.second, Replication.first, Replication.second] },
    { id := 12, numberBytes := 1 }]

theorem update_read_inverse_kept :
    (kept.run .never (updateFile 1 rewritten)).2.reading 1 = .ok { rewritten with
      blocks := [{ id := 11, numberBytes := 7, storage := [Replication.second, Replication.first] },
        { id := 12, numberBytes := 1 }] } ∧
    ∃ content, kept.reading 1 = .ok content ∧
      calls.contents (kept.run .never (updateFile 1 content)).2 = calls.contents kept := by
  obtain ⟨reads, keeps⟩ := update_read_inverse kept 1
  constructor
  · have sized : ∀ block ∈ rewritten.blocks, block.Sized := by
      intro block member
      rcases List.mem_pair.1 member with rfl | rfl
      · refine ⟨sized_pool 11 7, fun location member => ?_⟩
        rcases List.mem_cons.1 member with rfl | member
        · exact Replication.sized_second
        · rcases List.mem_pair.1 member with rfl | rfl
          · exact Replication.sized_first
          · exact Replication.sized_second
      · exact ⟨sized_pool 12 1, Replication.sized_empty 12⟩
    have current : calls.Current kept := Store.bounded_ofEntries _
    exact reads .never rewritten ⟨by decide, by decide, by decide⟩ sized (by decide) current (by decide +kernel)
      (by decide +kernel)
  · have held : (calls.contents kept).Holds (.inode 1) (plainFile 1 9 "a") :=
      ⟨_, by decide +kernel, Record.decode_encode_inode ⟨by decide, by decide, by decide⟩⟩
    have linked : (calls.contents kept).Holds (.child 9 "a") (ChildLink.mk 1) :=
      ⟨_, by decide +kernel, Record.decode_encode_link _⟩
    have creatable : (calls.contents kept).Creatable (plainFile 1 9 "a") :=
      ⟨by decide, by decide, rfl, by decide, fun existing also => by rw [also.unique held], .inr linked⟩
    obtain ⟨content, read, same⟩ := keeps (plainFile 1 9 "a") _ rfl encoded_kept described_kept held rfl creatable
      linked stands_kept proper_kept
    exact ⟨content, read, (same (Engine.clear_ofEntries _ (by decide +kernel))).2⟩

end FsMeta.Service

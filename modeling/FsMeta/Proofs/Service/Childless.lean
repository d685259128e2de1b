import FsMeta.Proofs.Key.Decoding
import FsMeta.Proofs.Store.Calls
import FsMeta.Proofs.Tree.Acyclicity
import FsMeta.Proofs.Tree.Cascade

set_option autoImplicit false

namespace FsMeta

namespace Contents

variable {earlier later : Contents} {id destination : Int64} {node : INode}

def Fits (contents : Contents) (node : INode) : Prop :=
  (∀ parent : INode, contents.Holds (.inode node.parentId) parent → parent.kind = .directory) ∧
    (node.kind = .file → ∀ name, contents (Key.child node.id name).bytes = none)

theorem childless_empty : Childless empty := fun _ _ _ _ _ => rfl

theorem Thinned.childless (thinned : Thinned earlier later) (childless : earlier.Childless) :
    later.Childless := by
  intro id node held kind name
  rcases thinned (.child id name) trivial with same | gone
  · rw [same]
    exact childless id node (thinned.inode held) kind name
  · exact gone

theorem Relocated.childless (relocated : Relocated earlier later id destination)
    (childless : earlier.Childless) : later.Childless := by
  obtain ⟨target, here, directory⟩ := relocated.target
  obtain ⟨node, before, own⟩ := relocated.found
  intro other found held kind name
  have file : ∃ old : INode, earlier.Holds (.inode other) old ∧ old.kind = .file := by
    by_cases same : other = id
    · subst same
      rw [held.unique own] at kind
      exact ⟨node, before, kind⟩
    · exact ⟨found, (relocated.others other same found).1 held, kind⟩
  obtain ⟨old, stored, kind⟩ := file
  have differ : other ≠ destination := by
    rintro rfl
    rw [stored.unique here, INode.kind_eq_directory directory] at kind
    cases kind
  rcases relocated.links other name differ with same | gone
  · rw [same]
    exact childless other old stored kind name
  · exact gone

theorem Created.childless_iff (created : Created earlier later node) (childless : earlier.Childless) :
    later.Childless ↔ earlier.Fits node := by
  constructor
  · intro after
    constructor
    · intro parent held
      cases kind : parent.kind with
      | directory => rfl
      | file =>
        have still := (created.others node.parentId created.apart.symm parent).2 held
        have link := created.link
        rw [after _ parent still kind node.name] at link
        cases link
    · intro kind name
      have gone := after node.id node created.own kind name
      rcases created.links node.id name (by simp [created.apart]) with same | ⟨_, existing, held⟩
      · rw [← same]
        exact gone
      · exact childless node.id existing held ((created.kind existing held).trans kind) name
  · rintro ⟨parents, own⟩ id found held kind name
    have before : id ≠ node.parentId ∧ earlier (Key.child id name).bytes = none := by
      by_cases same : id = node.id
      · subst same
        rw [held.unique created.own] at kind
        exact ⟨created.apart, own kind name⟩
      · have stored := (created.others id same found).1 held
        refine ⟨?_, childless id found stored kind name⟩
        rintro rfl
        rw [parents found stored] at kind
        cases kind
    rcases created.links id name (by simp [before.1]) with same | ⟨gone, _⟩
    · rw [same]
      exact before.2
    · exact gone

theorem cleared_of_stays (stays : ∀ (id : Int64) (node : INode), earlier.Holds (.inode id) node →
    ∃ found : INode, later.Holds (.inode id) found) : Cleared earlier later := by
  intro id node held gone
  obtain ⟨found, still⟩ := stays id node held
  exact absurd still (gone found)

theorem Created.cleared (created : Created earlier later node) : Cleared earlier later := by
  apply cleared_of_stays
  intro id found held
  by_cases same : id = node.id
  · rw [same]
    exact ⟨node, created.own⟩
  · exact ⟨found, (created.others id same found).2 held⟩

theorem Relocated.cleared (relocated : Relocated earlier later id destination) : Cleared earlier later := by
  obtain ⟨node, _, own⟩ := relocated.found
  apply cleared_of_stays
  intro other found held
  by_cases same : other = id
  · rw [same]
    exact ⟨_, own⟩
  · exact ⟨found, (relocated.others other same found).2 held⟩

theorem holds_congr (same : ∀ key : Key, key.OnTree → later key.bytes = earlier key.bytes) :
    later.Holds (.inode id) node ↔ earlier.Holds (.inode id) node := by
  rw [Holds, Holds, same (.inode id) trivial]

theorem Created.congr {between : Contents} (created : Created earlier between node)
    (same : ∀ key : Key, key.OnTree → later key.bytes = between key.bytes) : Created earlier later node where
  positive := created.positive
  apart := created.apart
  own := (holds_congr same).2 created.own
  others := fun other differ found => (holds_congr same).trans (created.others other differ found)
  kind := created.kind
  link := by
    rw [same (.child _ _) trivial]
    exact created.link
  links := by
    intro parent name differ
    rw [same (.child parent name) trivial]
    exact created.links parent name differ

structure Pruned (earlier later : Contents) : Prop where
  thinned : Thinned earlier later
  cleared : earlier.Owned → earlier.Childless → Cleared earlier later

theorem Pruned.of_same (same : ∀ key : Key, key.OnTree → later key.bytes = earlier key.bytes) :
    Pruned earlier later where
  thinned := fun key tree => .inl (same key tree)
  cleared := fun _ _ => cleared_of_stays fun _ node held => ⟨node, (holds_congr same).2 held⟩

end Contents

theorem Store.committed_child_of_bare {store : Store} {id : Int64}
    (bare : ∀ entry ∈ (store.visibleAt store.clock).entries, (Key.children id).isPrefixOf entry.1 = false)
    (name : String) : store.committed (Key.child id name).bytes = none := by
  rw [committed, ← find?_visibleAt]
  cases found : (store.visibleAt store.clock).find? (Key.child id name).bytes with
  | none => rfl
  | some value =>
    have begins := bare _ ((Table.mem_entries_iff _ _ _).2 found)
    rw [Key.isPrefixOf_children_iff.2 ⟨name, rfl⟩] at begins
    cases begins

namespace Service.Request

open Contents (Created Pruned Relocated Thinned)
open Scoped (Ensures Only)

def written : Request → Option INode
  | putFile id node => some { node with id, kind := .file }
  | updateFile id content => some { content.inode with id, kind := .file }
  | putDirectory id node => some { node with id, kind := .directory }
  | updateDirectory id node => some { node with id, kind := .directory }
  | putChild parent name node => some { node with parentId := parent, name }
  | _ => none

def Effect (request : Request) (earlier later : Contents) : Prop :=
  match request.written with
  | some node => Created earlier later node
  | none => Pruned earlier later ∨ ∃ id destination, Relocated earlier later id destination

section

variable {α : Type} {base : Contents} {action : Scoped α}

theorem ensures_spared (only : Only OffTree action) :
    Ensures base action .empty fun _ later => Pruned base (base.write later) := by
  refine (only base .empty).mono fun _ later extended => .of_same fun key tree => ?_
  rw [Contents.eq_of_offTree base extended tree, Contents.write_empty base]

theorem ensures_pruned (only : Only Deleting action)
    (clears : base.Owned → base.Childless →
      Ensures base action .empty fun _ later => base.Cleared (base.write later)) :
    Ensures base action .empty fun _ later => Pruned base (base.write later) := by
  have thins : Ensures base action .empty fun _ later => Thinned base (base.write later) := by
    refine (only base .empty).mono fun _ later extended => ?_
    have thinned := Contents.thinned_of_deleting base extended
    rwa [Contents.write_empty base] at thinned
  by_cases regular : base.Owned ∧ base.Childless
  · have both := thins.and (clears regular.1 regular.2)
    exact both.mono fun _ _ ⟨thinned, cleared⟩ => ⟨thinned, fun _ _ => cleared⟩
  · exact thins.mono fun _ _ thinned =>
      ⟨thinned, fun owned childless => absurd ⟨owned, childless⟩ regular⟩

theorem ensures_created {node : INode} (sized : node.Sized) :
    Ensures base (Tree.create node) .empty fun _ later => Created base (base.write later) node := by
  have created : Ensures base (Tree.create node) .empty fun _ later =>
      Created (base.write .empty) (base.write later) node := Tree.ensures_create_created sized
  rwa [Contents.write_empty base] at created

end

theorem ensures_action_effect (base : Contents) (request : Request)
    (sized : ∀ node, request.written = some node → node.Sized) :
    Ensures base request.action .empty fun _ later => request.Effect base (base.write later) := by
  have idle : base.write .empty = base := Contents.write_empty base
  have prunes {α : Type} {action : Scoped α}
      (pruned : Ensures base action .empty fun _ later => Pruned base (base.write later)) :
      Ensures base action .empty fun _ later => Pruned base (base.write later) ∨
        ∃ id destination, Relocated base (base.write later) id destination := pruned.mono fun _ _ => .inl
  have spares {α : Type} {action : Scoped α} (only : Only OffTree action) := prunes (ensures_spared only)
  -- Most requests write nothing of the tree. What is left are those that create, remove or move an inode.
  cases request with
  | block id => exact spares (only_loadBlock id)
  | putBlockMeta id info => exact spares (.put ⟨.blockMeta id, rfl, not_false⟩)
  | deleteBlockMeta id => exact spares (.delete ⟨.blockMeta id, rfl, not_false⟩)
  | blockStorage id => exact spares (.find BlockStorage _)
  | addBlockStorage id location => exact spares (only_addReplica fun _ => ⟨.blockStorage id, rfl, not_false⟩)
  | removeBlockStorage id location => exact spares (only_removeReplica fun _ => ⟨.blockStorage id, rfl, not_false⟩)
  | file id simple => exact spares (only_loadFile id simple)
  | putFile id node => exact ensures_created (sized _ rfl)
  | updateFile id content =>
    refine .bind ((Tree.only_inode id).reads base .empty |>.mono ?_)
    rintro _ _ rfl
    refine .bind ((ensures_created (sized _ rfl)).mono fun _ between created => ?_)
    refine (Chain.only_replace id content.blocks base between).mono fun _ later extended => ?_
    exact created.congr fun _ => Contents.eq_of_offTree base extended
  | deleteFile id =>
    refine prunes (ensures_pruned (Tree.only_deleteFile id) fun _ childless => ?_)
    rw [← idle] at childless
    have clears := Tree.ensures_deleteFile_clears id childless
    rwa [idle] at clears
  | fileBlock owner id => exact spares (Chain.only_block owner id)
  | putFileBlock owner id generation => exact spares (Chain.only_upsert _ _ _ _)
  | updateFileBlock owner id content => exact spares (only_replaceFileBlock _ _)
  | deleteFileBlock owner id => exact spares (Chain.only_delete owner id).offTree
  | truncateFile id size => exact spares (only_shortenFile id size)
  | directory id => exact spares (Tree.only_inode id)
  | putDirectory id node => exact ensures_created (sized _ rfl)
  | updateDirectory id node =>
    refine .bind ((Tree.only_inode id).reads base .empty |>.mono ?_)
    rintro _ _ rfl
    exact ensures_created (sized _ rfl)
  | deleteDirectory id =>
    refine prunes (ensures_pruned (Tree.only_deleteDirectory id) fun owned childless => ?_)
    rw [← idle] at owned childless
    have clears := Tree.ensures_deleteDirectory_clears id owned childless
    rwa [idle] at clears
  | children id simple => exact spares (Tree.only_children id simple)
  | child parent name => exact spares (Tree.only_child parent name true)
  | putChild parent name node => exact ensures_created (sized _ rfl)
  | deleteChild parent name =>
    refine prunes (ensures_pruned (Tree.only_deleteChild parent name) fun _ _ => ?_)
    refine .bind (.lift fun _ _ => .bind (.lift fun _ _ => .delete ?_))
    rw [Contents.write_insert, idle]
    exact Contents.cleared_of_stays fun id node held => ⟨node, (Contents.holds_put (by simp) _).2 held⟩
  | reparent id source destination =>
    refine Tree.ensures_reparent_relocated.mono ?_
    rintro _ _ (⟨rfl, _⟩ | ⟨_, relocated, _⟩)
    · rw [idle]
      exact .inl (.of_same fun _ _ => rfl)
    · rw [idle] at relocated
      exact .inr ⟨id, destination, relocated⟩

theorem Effect.owned {request : Request} {earlier later : Contents} (effect : request.Effect earlier later)
    (owned : earlier.Owned) : later.Owned := by
  rw [Effect] at effect
  split at effect
  · exact effect.owned owned
  · rcases effect with pruned | ⟨_, _, relocated⟩
    · exact pruned.thinned.owned owned
    · exact relocated.owned owned

theorem Effect.cleared {request : Request} {earlier later : Contents} (effect : request.Effect earlier later)
    (owned : earlier.Owned) (childless : earlier.Childless) : earlier.Cleared later := by
  rw [Effect] at effect
  split at effect
  · exact effect.cleared
  · rcases effect with pruned | ⟨_, _, relocated⟩
    · exact pruned.cleared owned childless
    · exact relocated.cleared

theorem Effect.childless_iff {request : Request} {earlier later : Contents}
    (effect : request.Effect earlier later) (childless : earlier.Childless) :
    later.Childless ↔ ∀ node, request.written = some node → earlier.Fits node := by
  rw [Effect] at effect
  split at effect
  · rename_i node same
    rw [effect.childless_iff childless]
    constructor
    · rintro fits _ again
      cases same.symm.trans again
      exact fits
    · exact fun all => all node same
  · rename_i silent
    refine iff_of_true ?_ fun node same => by simp [silent] at same
    rcases effect with pruned | ⟨_, _, relocated⟩
    · exact pruned.thinned.childless childless
    · exact relocated.childless childless

end Request

/-- Texts that do not fit in memory cannot be in a request. -/
structure Call where
  interrupts : Interrupts
  request : Request
  sized : ∀ node, request.written = some node → node.Sized

def answer (service : Service) (call : Call) : Except Error call.request.Answer :=
  (service.run call.interrupts call.request.operation).1

/-- Each call may be stopped, or fail below. -/
def calls : Server Service Call where
  store := Service.store
  serve service call := (service.run call.interrupts call.request.operation).2

theorem calls_settle {service : Service} {call : Call} {post : call.request.Answer → Writes → Prop}
    (current : calls.Current service) (forward : calls.Forward service call)
    (ensures : Scoped.Ensures (calls.contents service) call.request.action .empty post) :
    let writes := service.engine.buffered call.interrupts call.request.action
    calls.Current (calls.serve service call) ∧
      ((∃ error, service.answer call = .error error) ∧
          calls.contents (calls.serve service call) = calls.contents service ∨
        ∃ value, service.answer call = .ok value ∧ post value writes ∧
          calls.contents (calls.serve service call) = (calls.contents service).write writes) := by
  intro writes
  have runs := call.request.operation_runs
  have settles : service.store.Settles writes (service.answer call) (calls.serve service call).store :=
    runs.settles service call.interrupts
  obtain ⟨stays, outcome⟩ := settles.outcome current forward
  refine ⟨stays, outcome.imp_right fun ⟨value, done, written⟩ => ⟨value, done, ?_, written⟩⟩
  exact (service.engine.run_ensures call.interrupts ensures).2 value (runs.ok_of_ok done)

theorem calls_outcome {service : Service} {call : Call} (current : calls.Current service)
    (forward : calls.Forward service call) :
    calls.Current (calls.serve service call) ∧
      ((∃ error, service.answer call = .error error) ∧
          calls.contents (calls.serve service call) = calls.contents service ∨
        (∃ value, service.answer call = .ok value) ∧
          call.request.Effect (calls.contents service) (calls.contents (calls.serve service call))) := by
  have ensures := call.request.ensures_action_effect (calls.contents service) call.sized
  obtain ⟨stays, outcome⟩ := calls_settle current forward ensures
  refine ⟨stays, outcome.imp_right fun ⟨value, done, effect, written⟩ => ⟨⟨value, done⟩, ?_⟩⟩
  rwa [written]

def Regular (service : Service) : Prop := calls.Current service ∧ (calls.contents service).Owned

def Fitting (service : Service) (call : Call) : Prop :=
  ∀ node, call.request.written = some node → (∃ value, service.answer call = .ok value) →
    (calls.contents service).Fits node

theorem Regular.serve {service : Service} (regular : service.Regular) {call : Call}
    (forward : calls.Forward service call) : (calls.serve service call).Regular := by
  obtain ⟨stays, ⟨_, same⟩ | ⟨_, effect⟩⟩ := calls_outcome regular.1 forward
  · exact ⟨stays, same ▸ regular.2⟩
  · exact ⟨stays, effect.owned regular.2⟩

theorem Regular.childless_iff {service : Service} (regular : service.Regular) {call : Call}
    (childless : (calls.contents service).Childless) (forward : calls.Forward service call) :
    (calls.contents (calls.serve service call)).Childless ↔ service.Fitting call := by
  obtain ⟨_, ⟨⟨error, failed⟩, same⟩ | ⟨done, effect⟩⟩ := calls_outcome regular.1 forward
  · rw [same]
    refine iff_of_true childless fun _ _ ⟨value, done⟩ => ?_
    rw [failed] at done
    cases done
  · rw [effect.childless_iff childless]
    exact ⟨fun fits node same _ => fits node same, fun fits node same => fits node same done⟩

theorem Regular.cleared {service : Service} (regular : service.Regular) {call : Call}
    (childless : (calls.contents service).Childless) (forward : calls.Forward service call) :
    (calls.contents service).Cleared (calls.contents (calls.serve service call)) := by
  obtain ⟨_, ⟨_, same⟩ | ⟨_, effect⟩⟩ := calls_outcome regular.1 forward
  · rw [same]
    exact Contents.cleared_of_stays fun _ node held => ⟨node, held⟩
  · exact effect.cleared regular.2 childless

def fresh (journal : Option Journal.Log) (loose : Bool) (schedule : Schedule) : Service :=
  { engine := { storage := { store := { journal }, loose }, schedule } }

theorem childless_always_iff (journal : Option Journal.Log) (loose : Bool) (schedule : Schedule)
    (requests : List Call) (steady : calls.Steady (fresh journal loose schedule) requests) :
    let after := calls.run (fresh journal loose schedule)
    ((∀ earlier, earlier <+: requests → (calls.contents (after earlier)).Childless) ↔
      ∀ earlier call, earlier ++ [call] <+: requests → ∀ node, call.request.written = some node →
        (∃ value, (after earlier).answer call = .ok value) → (calls.contents (after earlier)).Fits node) ∧
    ∀ earlier call, earlier ++ [call] <+: requests → (calls.contents (after earlier)).Childless →
      (calls.contents (after earlier)).Cleared (calls.contents (after (earlier ++ [call]))) := by
  intro after
  have regular : (fresh journal loose schedule).Regular :=
    ⟨fun _ _ found => (by cases found), Contents.owned_empty⟩
  constructor
  · exact Server.always_iff (fun _ _ regular childless forward =>
      ⟨regular.serve forward, regular.childless_iff childless forward⟩) regular Contents.childless_empty steady
  · intro earlier call leads childless
    have before : (after earlier).Regular :=
      Server.always (fun _ _ regular => regular.serve) regular steady ((List.prefix_append _ _).trans leads)
    have next : after (earlier ++ [call]) = calls.serve (after earlier) call := Server.run_append _ _ _ _
    rw [next]
    exact before.cleared childless (Server.forward_of_steady steady leads)

def plainFile (id parentId : Int64) (name : String) : INode := { id, name, parentId }

def Call.putFile (id parentId : Int64) (name : String) (sized : (plainFile id parentId name).Sized) : Call where
  interrupts := .never
  request := .putFile id (plainFile id parentId name)
  sized := by
    rintro _ ⟨⟩
    exact sized

def Call.putDirectory (id parentId : Int64) (name : String)
    (short : (Utf8.encode name).length < UInt64.size) : Call where
  interrupts := .never
  request := .putDirectory id (Tree.directory id parentId name)
  sized := by
    rintro _ ⟨⟩
    exact Tree.sized_directory short

def Call.other (request : Request) (idle : request.written = none) : Call where
  interrupts := .never
  request := request
  sized := by simp [idle]

-- A directory with a file in it is moved to another branch, the file is moved up by being written again, and the
-- branch is deleted.
def nested : List Call :=
  [.putDirectory 1 9 "etc" (by decide), .putDirectory 2 1 "conf" (by decide),
    .putFile 3 2 "a" ⟨by decide, by decide, by decide⟩, .putDirectory 4 9 "var" (by decide),
    .other (.reparent 2 1 4) rfl, .putFile 3 4 "b" ⟨by decide, by decide, by decide⟩,
    .other (.deleteDirectory 4) rfl]

theorem childless_always_iff_nested :
    let after := calls.run (fresh none false [])
    (∀ count : Fin nested.length, ((after (nested.take count)).answer nested[count]).isOk = true) ∧
      ((calls.contents (after (nested.take 5))).Parent 2 4 ∧ (calls.contents (after (nested.take 6))).Parent 3 4) ∧
      (∀ earlier, earlier <+: nested → (calls.contents (after earlier)).Childless) ∧
      ∀ id ∈ [2, 3, 4], ∀ name, calls.contents (after nested) (Key.child id name).bytes = none := by
  intro after
  let contents (count : Nat) : Contents := calls.contents (after (nested.take count))
  have file : (contents 6).Holds (.inode 3) (plainFile 3 4 "b") :=
    ⟨_, by decide +kernel, Record.decode_encode_inode ⟨by decide, by decide, by decide⟩⟩
  have outer : (contents 1).Holds (.inode 1) (Tree.directory 1 9 "etc") :=
    Tree.holds_directory (by decide) (by decide +kernel)
  have inner : (contents 2).Holds (.inode 2) (Tree.directory 2 1 "conf") :=
    Tree.holds_directory (by decide) (by decide +kernel)
  have moved : (contents 5).Holds (.inode 2) (Tree.directory 2 4 "conf") :=
    Tree.holds_directory (by decide) (by decide +kernel)
  have other : (contents 5).Holds (.inode 4) (Tree.directory 4 9 "var") :=
    Tree.holds_directory (by decide) (by decide +kernel)
  have still : (contents 6).Holds (.inode 2) (Tree.directory 2 4 "conf") :=
    Tree.holds_directory (by decide) (by decide +kernel)
  have target : (contents 6).Holds (.inode 4) (Tree.directory 4 9 "var") :=
    Tree.holds_directory (by decide) (by decide +kernel)
  have rootless : ∀ count ∈ [0, 3], contents count (Key.inode 9).bytes = none := by decide +kernel
  have bare {count : Nat} (member : count ∈ [2, 5]) (name : String) :
      contents count (Key.child 3 name).bytes = none := by
    refine Store.committed_child_of_bare ?_ name
    revert count
    decide +kernel
  obtain ⟨iff, clears⟩ := childless_always_iff none false [] nested (by decide +kernel)
  have childless : ∀ earlier, earlier <+: nested → (calls.contents (after earlier)).Childless := by
    refine iff.2 fun earlier call leads node same _ => ?_
    obtain ⟨place, here, rfl⟩ := Server.exists_take_of_prefix leads
    rcases place with _ | _ | _ | _ | _ | _ | _ | place <;> cases here <;> cases same
    · exact ⟨fun _ held => absurd held (Contents.not_holds_of_absent (rootless 0 (by decide)) _), nofun⟩
    · exact ⟨fun _ held => by rw [held.unique outer]; rfl, nofun⟩
    · exact ⟨fun _ held => by rw [held.unique inner]; rfl, fun _ => bare (by decide)⟩
    · exact ⟨fun _ held => absurd held (Contents.not_holds_of_absent (rootless 3 (by decide)) _), nofun⟩
    · exact ⟨fun _ held => by rw [held.unique other]; rfl, fun _ => bare (by decide)⟩
  have leads : nested.take 6 ++ [.other (.deleteDirectory 4) rfl] <+: nested := List.prefix_rfl
  have clear := clears _ _ leads (childless _ (List.take_prefix 6 nested))
  refine ⟨by decide +kernel, ⟨⟨_, moved, rfl⟩, _, file, rfl⟩, childless, fun id member name => ?_⟩
  simp only [List.mem_cons, List.not_mem_nil, or_false] at member
  rcases member with rfl | rfl | rfl
  · exact clear 2 _ still (Contents.not_holds_of_absent (by decide +kernel)) name
  · exact clear 3 _ file (Contents.not_holds_of_absent (by decide +kernel)) name
  · exact clear 4 _ target (Contents.not_holds_of_absent (by decide +kernel)) name

-- A file is written under a file, which is then deleted.
def hanging : List Call :=
  [.putFile 1 9 "a" ⟨by decide, by decide, by decide⟩, .putFile 2 1 "b" ⟨by decide, by decide, by decide⟩,
    .other (.deleteFile 1) rfl]

theorem link_of_hanging :
    let after := calls.run (fresh none false [])
    (∀ count : Fin hanging.length, ((after (hanging.take count)).answer hanging[count]).isOk = true) ∧
      ¬ (calls.contents (after (hanging.take 2))).Childless ∧
      calls.contents (after hanging) (Key.inode 1).bytes = none ∧
      (calls.contents (after hanging) (Key.child 1 "b").bytes).isSome := by
  intro after
  refine ⟨by decide +kernel, fun childless => ?_, by decide +kernel, by decide +kernel⟩
  have file : (calls.contents (after (hanging.take 2))).Holds (.inode 1) (plainFile 1 9 "a") :=
    ⟨Record.encode (plainFile 1 9 "a"), by decide +kernel,
      Record.decode_encode_inode ⟨by decide, by decide, by decide⟩⟩
  have link : (calls.contents (after (hanging.take 2)) (Key.child 1 "b").bytes).isSome := by decide +kernel
  rw [childless 1 _ file rfl "b"] at link
  cases link

end Service

end FsMeta

import FsMeta.Proofs.Engine
import FsMeta.Proofs.Service.Confined
import FsMeta.Proofs.Store.Latest

set_option autoImplicit false

namespace FsMeta

open Scoped (Confined Only)

theorem Store.Settles.map {α β : Type} {store later : Store} {writes : Writes}
    {result : Except Error α} (settles : store.Settles writes result later) (f : α → β) :
    store.Settles writes (result.map f) later where
  active := settles.active
  failed := fun error failed => settles.failed error (error_of_map failed)
  done := by
    intro value done
    cases result with
    | error error => cases done
    | ok value => exact settles.done value rfl

namespace Engine

variable {α : Type} {action : Scoped α}

def buffered (engine : Engine) (interrupts : Interrupts) (action : Scoped α) : Writes :=
  match engine.begin interrupts with
  | (.error _, _) => .empty
  | (.ok scope, engine) => (engine.step scope action).2.1.tx.writes

structure Begun (engine : Engine) (scope : Scope) (store : Store) (writes : Writes) : Prop where
  tx : scope.tx = { (Transaction.begin store).1 with writes }
  store : engine.storage.store = (Transaction.begin store).2

namespace Begun

variable {engine : Engine} {scope : Scope} {store : Store} {writes : Writes}

theorem finish (begun : Begun engine scope store writes) :
    (scope.tx.finish engine.storage.store).2 = store := by
  rw [begun.tx, begun.store]
  exact Transaction.finish_begin store writes

theorem settles_commit (begun : Begun engine scope store writes) :
    store.Settles writes (engine.commit scope).1 (engine.commit scope).2.storage.store := by
  rcases commit_cases engine scope with ⟨error, refused, later⟩ | ⟨result, later⟩
  · rw [refused, later, begun.finish]
    exact .error rfl rfl writes error
  · rw [result, later, begun.tx, begun.store]
    exact Transaction.settles_commit store writes

end Begun

theorem run_ensures {post : α → Writes → Prop} (engine : Engine) (interrupts : Interrupts)
    (ensures : Scoped.Ensures engine.storage.store.committed action .empty post) :
    engine.storage.store.Settles (engine.buffered interrupts action) (engine.run interrupts action).1
        (engine.run interrupts action).2.storage.store ∧
      ∀ value, (engine.run interrupts action).1 = .ok value →
        post value (engine.buffered interrupts action) := by
  let store : Store := engine.storage.store
  rcases begin_cases engine interrupts with ⟨error, failed, same⟩ | ⟨later, succeeded, opened⟩
  · have begun : engine.begin interrupts = (.error error, (engine.begin interrupts).2) := Prod.ext failed rfl
    rw [run, begun]
    refine ⟨.error (congrArg Store.active same) (congrArg Store.history same) _ error, fun _ done => ?_⟩
    cases done
  · let opening : Engine := (engine.begin interrupts).2
    let scope : Scope := { tx := (Transaction.begin store).1, interrupts := later }
    have started : engine.begin interrupts = (.ok scope, opening) := Prod.ext succeeded rfl
    let stepped : Scope := (opening.step scope action).2.1
    let ended : Engine := (opening.step scope action).2.2
    have snapshot : opening.storage.store.readAt scope.tx.snapshot = store.committed := by
      rw [opened]
      rfl
    -- Whatever became of the action, all that it did is in the writes of its transaction.
    obtain ⟨written, stays, holds⟩ :
        ∃ written, stepped.tx = { (Transaction.begin store).1 with writes := written } ∧
          ∀ value, (opening.step scope action).1 = .ok value → post value written :=
      step_ensures snapshot rfl ensures
    have begun : Begun ended stepped store written := ⟨stays, opened⟩
    have buffered : engine.buffered interrupts action = written := by
      rw [Engine.buffered, started]
      exact congrArg Transaction.writes stays
    rw [buffered, run, started]
    cases outcome : (opening.step scope action).1 with
    | error error =>
      have step : opening.step scope action = (.error error, stepped, ended) := Prod.ext outcome rfl
      have restored : (ended.drop stepped.tx).storage.store = store := begun.finish
      simp only [step, restored]
      exact ⟨.error rfl rfl written error, fun _ done => by cases done⟩
    | ok value =>
      have step : opening.step scope action = (.ok value, stepped, ended) := Prod.ext outcome rfl
      simp only [step]
      refine ⟨begun.settles_commit.map _, fun other done => ?_⟩
      cases committed : (ended.commit stepped).1 with
      | error error =>
        rw [committed] at done
        cases done
      | ok _ =>
        rw [committed] at done
        cases done
        exact holds value outcome

end Engine

namespace Service

def store (service : Service) : Store := service.engine.storage.store

section

variable {α β : Type} {operation : Operation α} {action : Scoped α}

theorem run_bind_ok {next : α → Operation β} {service between : Service} {interrupts : Interrupts}
    {value : α} (ran : service.run interrupts operation = (.ok value, between)) :
    service.run interrupts (operation >>= next) = between.run interrupts (next value) := by
  simp only [run] at ran
  simp only [run, bind, ReaderT.bind, ExceptT.bind, ExceptT.mk, StateT.bind, ran]
  rfl

theorem run_bind_error {next : α → Operation β} {service between : Service} {interrupts : Interrupts}
    {error : Error} (ran : service.run interrupts operation = (.error error, between)) :
    service.run interrupts (operation >>= next) = (.error error, between) := by
  simp only [run] at ran
  simp only [run, bind, ReaderT.bind, ExceptT.bind, ExceptT.mk, StateT.bind, ran]
  rfl

theorem run_requireAvailable (service : Service) (interrupts : Interrupts) :
    service.run interrupts requireAvailable = (service.availability.require, service) := by
  cases service with
  | mk engine availability => cases availability <;> rfl

def Atomic (operation : Operation α) (action : Scoped α) : Prop :=
  ∀ (service : Service) (interrupts : Interrupts),
    service.store.Settles (service.engine.buffered interrupts action) (service.run interrupts operation).1
      (service.run interrupts operation).2.store

namespace Atomic

theorem inScope (confined : Confined action) : Atomic (inScope action) action := fun service interrupts =>
  (Engine.run_ensures service.engine interrupts (confined _ .empty)).1

theorem require (requirement : Except Error β) (atomic : Atomic operation action) :
    Atomic (liftM requirement >>= fun _ => operation) action := by
  intro service interrupts
  cases requirement with
  | error error => exact .error rfl rfl _ error
  | ok _ => exact atomic service interrupts

theorem available (atomic : Atomic operation action) :
    Atomic (requireAvailable >>= fun _ => operation) action := by
  intro service interrupts
  have required := run_requireAvailable service interrupts
  cases state : service.availability.require with
  | error error =>
    rw [state] at required
    rw [run_bind_error required]
    exact .error rfl rfl _ error
  | ok _ =>
    rw [state] at required
    rw [run_bind_ok required]
    exact atomic service interrupts

-- What is read may be refused after the commit, which had nothing to write.
theorem verified (reads : ∀ base, Scoped.Ensures base action .empty fun _ written => written = .empty)
    (verify : α → Except Error β) :
    Atomic (Service.inScope action >>= fun value => liftM (verify value) >>= fun _ => pure value) action := by
  intro service interrupts
  obtain ⟨settles, silent⟩ := Engine.run_ensures service.engine interrupts (reads _)
  let ended : Service := (service.run interrupts (Service.inScope action)).2
  cases outcome : (service.engine.run interrupts action).1 with
  | error error =>
    have ran : service.run interrupts (Service.inScope action) = (.error error, ended) := Prod.ext outcome rfl
    rw [run_bind_error ran]
    rwa [outcome] at settles
  | ok value =>
    have ran : service.run interrupts (Service.inScope action) = (.ok value, ended) := Prod.ext outcome rfl
    have follows := settles.done value outcome
    rw [run_bind_ok ran]
    cases verified : verify value with
    | error error =>
      have bare : (service.engine.buffered interrupts action).entries.isEmpty := by
        rw [silent value outcome]
        rfl
      exact .error settles.active (follows.idle bare) _ error
    | ok _ => exact .ok settles.active follows value

end Atomic

end

/-- The operation runs the action in a scope of its own: behind checks of the request, and in front of a
check of the answer if nothing was written. -/
inductive Runs {α : Type} : Operation α → Scoped α → Prop
  | inScope {action : Scoped α} (only : Only Anything action) : Runs (Service.inScope action) action
  | require {β : Type} {operation : Operation α} {action : Scoped α} (requirement : Except Error β)
    (runs : Runs operation action) : Runs (liftM requirement >>= fun _ => operation) action
  | available {operation : Operation α} {action : Scoped α} (runs : Runs operation action) :
    Runs (requireAvailable >>= fun _ => operation) action
  | verified {β : Type} {action : Scoped α} (only : Only Nothing action) (verify : α → Except Error β) :
    Runs (Service.inScope action >>= fun value => liftM (verify value) >>= fun _ => pure value) action

namespace Runs

variable {α : Type} {operation : Operation α} {action : Scoped α}

theorem settles (runs : Runs operation action) : Atomic operation action := by
  induction runs with
  | inScope only => exact .inScope only.confined
  | require requirement _ ih => exact .require requirement ih
  | available _ ih => exact .available ih
  | verified only verify => exact .verified (fun base => only.reads base .empty) verify

theorem ok_of_ok (runs : Runs operation action) {service : Service} {interrupts : Interrupts} {value : α}
    (done : (service.run interrupts operation).1 = .ok value) :
    (service.engine.run interrupts action).1 = .ok value := by
  -- Everything around the action only refuses, so a success has come through it.
  induction runs with
  | inScope => exact done
  | require requirement _ ih =>
    cases requirement with
    | error error => cases done
    | ok _ => exact ih done
  | available _ ih =>
    have required := run_requireAvailable service interrupts
    cases state : service.availability.require with
    | error error =>
      rw [state] at required
      rw [run_bind_error required] at done
      cases done
    | ok _ =>
      rw [state] at required
      rw [run_bind_ok required] at done
      exact ih done
  | @verified _ action only verify =>
    cases outcome : (service.engine.run interrupts action).1 with
    | error error =>
      have ran : service.run interrupts (Service.inScope action) = (.error error, _) := Prod.ext outcome rfl
      rw [run_bind_error ran] at done
      cases done
    | ok found =>
      have ran : service.run interrupts (Service.inScope action) = (.ok found, _) := Prod.ext outcome rfl
      rw [run_bind_ok ran] at done
      cases checked : verify found with
      | error error =>
        rw [checked] at done
        cases done
      | ok _ =>
        rw [checked] at done
        exact done

end Runs

inductive Request where
  | block (id : Int64)
  | putBlockMeta (id : Int64) (info : BlockMeta)
  | deleteBlockMeta (id : Int64)
  | blockStorage (id : Int64)
  | addBlockStorage (id : Int64) (location : StorageLocation)
  | removeBlockStorage (id : Int64) (location : StorageLocation)
  | file (id : Int64) (simple : Bool)
  | putFile (id : Int64) (node : INode)
  | updateFile (id : Int64) (content : INodeFile)
  | deleteFile (id : Int64)
  | fileBlock (owner id : Int64)
  | putFileBlock (owner id generation : Int64)
  | updateFileBlock (owner id : Int64) (content : Block)
  | deleteFileBlock (owner id : Int64)
  | truncateFile (id size : Int64)
  | directory (id : Int64)
  | putDirectory (id : Int64) (node : INode)
  | updateDirectory (id : Int64) (node : INode)
  | deleteDirectory (id : Int64)
  | children (id : Int64) (simple : Bool)
  | child (parent : Int64) (name : String)
  | putChild (parent : Int64) (name : String) (node : INode)
  | deleteChild (parent : Int64) (name : String)
  | reparent (id source destination : Int64)

namespace Request

def Answer : Request → Type
  | block _ | fileBlock _ _ | updateFileBlock _ _ _ => Block
  | blockStorage _ => BlockStorage
  | file _ _ => INodeFile
  | directory _ | child _ _ => INode
  | children _ _ => List INode
  | putFileBlock _ _ _ => UInt64
  | deleteDirectory _ => Nat
  | putBlockMeta _ _ | deleteBlockMeta _ | addBlockStorage _ _ | removeBlockStorage _ _ | putFile _ _
  | updateFile _ _ | deleteFile _ | deleteFileBlock _ _ | truncateFile _ _ | putDirectory _ _
  | updateDirectory _ _ | putChild _ _ _ | deleteChild _ _ | reparent _ _ _ => Unit

def operation : (request : Request) → Operation request.Answer
  | block id => Service.block id
  | putBlockMeta id info => Service.putBlockMeta id info
  | deleteBlockMeta id => Service.deleteBlockMeta id
  | blockStorage id => Service.blockStorage id
  | addBlockStorage id location => Service.addBlockStorage id location
  | removeBlockStorage id location => Service.removeBlockStorage id location
  | file id simple => Service.file id simple
  | putFile id node => Service.putFile id node
  | updateFile id content => Service.updateFile id content
  | deleteFile id => Service.deleteFile id
  | fileBlock owner id => Service.fileBlock owner id
  | putFileBlock owner id generation => Service.putFileBlock owner id generation
  | updateFileBlock owner id content => Service.updateFileBlock owner id content
  | deleteFileBlock owner id => Service.deleteFileBlock owner id
  | truncateFile id size => Service.truncateFile id size
  | directory id => Service.directory id
  | putDirectory id node => Service.putDirectory id node
  | updateDirectory id node => Service.updateDirectory id node
  | deleteDirectory id => Service.deleteDirectory id
  | children id simple => Service.children id simple
  | child parent name => Service.child parent name
  | putChild parent name node => Service.putChild parent name node
  | deleteChild parent name => Service.deleteChild parent name
  | reparent id source destination => Service.reparent id source destination

def action : (request : Request) → Scoped request.Answer
  | block id => loadBlock id
  | putBlockMeta id info => Scoped.put (Key.blockMeta id).bytes { info with id }
  | deleteBlockMeta id => Scoped.delete (Key.blockMeta id).bytes
  | blockStorage id => Scoped.find BlockStorage (Key.blockStorage id).bytes
  | addBlockStorage id location => addReplica id location
  | removeBlockStorage id location => removeReplica id location
  | file id simple => loadFile id simple
  | putFile id node => Tree.create { node with id, kind := .file }
  | updateFile id content => replaceFile id content
  | deleteFile id => Tree.deleteFile id
  | fileBlock owner id => Chain.block owner id
  | putFileBlock owner id generation => Chain.upsert owner id { id, generation } { id }
  | updateFileBlock owner id content => replaceFileBlock owner { content with id }
  | deleteFileBlock owner id => Chain.delete owner id
  | truncateFile id size => shortenFile id size
  | directory id => Tree.inode id
  | putDirectory id node => Tree.create { node with id, kind := .directory }
  | updateDirectory id node => replaceDirectory id node
  | deleteDirectory id => Tree.deleteDirectory id
  | children id simple => Tree.children id simple
  | child parent name => Tree.child parent name true
  | putChild parent name node => Tree.create { node with parentId := parent, name }
  | deleteChild parent name => Tree.deleteChild parent name
  | reparent id source destination => Tree.reparent id source destination

theorem operation_runs (request : Request) : Runs request.operation request.action := by
  cases request with
  | block id => exact .available (.require _ (.inScope (only_loadBlock id)))
  | putBlockMeta id info => exact .available (.require _ (.require _ (.inScope (Only.put trivial))))
  | deleteBlockMeta id => exact .available (.require _ (.inScope (Only.delete trivial)))
  | blockStorage id => exact .available (.require _ (.inScope (Only.find BlockStorage _)))
  | addBlockStorage id location =>
    exact .available (.require _ (.require _ (.inScope (only_addReplica fun _ => trivial))))
  | removeBlockStorage id location =>
    exact .available (.require _ (.require _ (.inScope (only_removeReplica fun _ => trivial))))
  | file id simple => exact .available (.inScope (only_loadFile id simple))
  | putFile id node => exact .available (.inScope (Tree.only_create _).anything)
  | updateFile id content => exact .available (.inScope (only_replaceFile id content))
  | deleteFile id => exact .available (.inScope (Tree.only_deleteFile id).anything)
  | fileBlock owner id => exact .available (.require _ (.inScope (Chain.only_block owner id)))
  | putFileBlock owner id generation => exact .available (.inScope (Chain.only_upsert _ _ _ _).anything)
  | updateFileBlock owner id content => exact .available (.inScope (only_replaceFileBlock _ _).anything)
  | deleteFileBlock owner id => exact .available (.inScope (Chain.only_delete owner id).anything)
  | truncateFile id size => exact .available (.inScope (only_shortenFile id size).anything)
  | directory id =>
    exact .available (.verified (Tree.only_inode id) fun inode => requireKind inode .directory)
  | putDirectory id node => exact .available (.inScope (Tree.only_create _).anything)
  | updateDirectory id node => exact .available (.inScope (only_replaceDirectory id node).anything)
  | deleteDirectory id => exact .available (.inScope (Tree.only_deleteDirectory id).anything)
  | children id simple => exact .available (.inScope (Tree.only_children id simple))
  | child parent name => exact .available (.inScope (Tree.only_child parent name true))
  | putChild parent name node => exact .available (.inScope (Tree.only_create _).anything)
  | deleteChild parent name => exact .available (.inScope (Tree.only_deleteChild parent name).anything)
  | reparent id source destination => exact .available (.inScope (Tree.only_reparent _ _ _).anything)

theorem operation_atomic (request : Request) : Atomic request.operation request.action :=
  request.operation_runs.settles

theorem atomic (request : Request) (service : Service) (interrupts : Interrupts) :
    let before := service.store
    let result := (service.run interrupts request.operation).1
    let after := (service.run interrupts request.operation).2.store
    let writes := service.engine.buffered interrupts request.action
    after.active = before.active ∧
      (∀ error, result = .error error → after.history = before.history) ∧
      (∀ answer, result = .ok answer → after.current = before.current.write writes) ∧
      (Store.Bounded before.clock before.history → before.clock ≤ after.clock →
        Store.Bounded after.clock after.history ∧
        (∀ error, result = .error error → after.committed = before.committed) ∧
        (∀ answer, result = .ok answer → after.committed = before.committed.write writes)) := by
  intro before result after writes
  have settles : before.Settles writes result after := operation_atomic request service interrupts
  refine ⟨settles.active, settles.failed, fun answer done => (settles.done answer done).current, ?_⟩
  intro bounded forward
  have stays : Store.Bounded after.clock after.history := by
    cases outcome : result with
    | error error =>
      rw [settles.failed error outcome]
      exact bounded.mono forward
    | ok answer => exact (settles.done answer outcome).bounded bounded forward
  rw [Store.committed_eq_current bounded, Store.committed_eq_current stays]
  refine ⟨stays, fun error failed => ?_, fun answer done => (settles.done answer done).current⟩
  exact Store.current_of_history_eq (settles.failed error failed)

-- The second write fails, and so does the rollback.
def interrupted : Service :=
  { engine :=
      { storage := { store := {} }
        schedule := [⟨.set, 1, .storage "region is offline"⟩, ⟨.rollback, 0, .conflict "lease is lost"⟩] } }

theorem atomic_interrupted :
    let request := putDirectory 1 { name := "etc", parentId := 9 }
    let failed := interrupted.run .never request.operation
    let done := (Service.ofStore {}).run .never request.operation
    let writes := (Engine.ofStore {}).buffered .never request.action
    (failed.1.isOk = false ∧ failed.2.store.active = [] ∧ failed.2.store.history = .empty) ∧
      (done.1.isOk = true ∧ done.2.store.active = [] ∧
        done.2.store.committed = Contents.empty.write writes ∧ (writes.find? (Key.inode 1).bytes).isSome) := by
  intro request failed done writes
  constructor
  · obtain ⟨active, unchanged, _⟩ := atomic request interrupted .never
    have refused : failed.1.isOk = false := by decide +kernel
    cases outcome : failed.1 with
    | error error => exact ⟨rfl, active, unchanged error outcome⟩
    | ok answer =>
      rw [outcome] at refused
      cases refused
  · obtain ⟨active, _, _, readable⟩ := atomic request (Service.ofStore {}) .never
    have succeeded : done.1.isOk = true := by decide +kernel
    have forward : (0 : UInt64) ≤ done.2.store.clock := by decide +kernel
    have bounded : Store.Bounded 0 Table.empty := fun _ _ found => by cases found
    cases outcome : done.1 with
    | error error =>
      rw [outcome] at succeeded
      cases succeeded
    | ok answer =>
      obtain ⟨_, _, written⟩ := readable bounded forward
      exact ⟨rfl, active, written answer outcome, by decide +kernel⟩

end Request

end Service

end FsMeta

import FsMeta.Proofs.Engine
import FsMeta.Proofs.Record.INode
import FsMeta.Proofs.Store.Run
import FsMeta.Tree.Create
import FsMeta.Tree.Move
import FsMeta.Tree.Removal

set_option autoImplicit false

namespace FsMeta.Tree

inductive Change where
  | create (node : INode) (sized : node.Sized)
  | reparent (id source destination : Int64)
  | deleteFile (id : Int64)
  | deleteDirectory (id : Int64)
  | deleteChild (parent : Int64) (name : String)

def Change.perform : Change → Scoped Unit
  | create node _ => Tree.create node
  | reparent id source destination => Tree.reparent id source destination
  | deleteFile id => Tree.deleteFile id
  | deleteDirectory id => do
    let _ ← Tree.deleteDirectory id
  | deleteChild parent name => Tree.deleteChild parent name

def Change.unlinks : Change → Bool
  | deleteChild _ _ => true
  | _ => false

/-- The last two come from outside: a client is cancelled or gets a deadline, and calls of the storage are made to
fail. -/
inductive Request where
  | begin (interrupts : Interrupts)
  | change (client : Nat) (change : Change)
  | commit (client : Nat)
  | rollback (client : Nat)
  | timestamp
  | interrupt (client : Nat) (interrupts : Interrupts)
  | fail (schedule : Schedule)

/-- A scope with what is told about it: the number of commits before it, and whether it took away a link
on its own. -/
structure Client where
  scope : Scope
  born : Nat
  unlinked : Bool := false

structure System where
  engine : Engine
  clients : List Client := []
  commits : List (Commit Bool) := []

def Client.session (client : Client) : Session Bool :=
  { tx := client.scope.tx, born := client.born, note := client.unlinked }

def Client.ended (client : Client) : Client :=
  { client with scope := { client.scope with
      tx := { client.scope.tx with writes := .empty, finished := true } } }

namespace System

def store (system : System) : Store := system.engine.storage.store

def withEngine (system : System) (engine : Engine) : System := { system with engine }

def revise (system : System) (engine : Engine) (index : Nat) (client : Client) : System :=
  { system with engine, clients := system.clients.set index client }

def begin (system : System) (interrupts : Interrupts) : System :=
  match system.engine.begin interrupts with
  | (.ok scope, engine) =>
    { system with engine, clients := system.clients ++ [{ scope, born := system.commits.length }] }
  | (.error _, engine) => system.withEngine engine

def change (system : System) (change : Change) (index : Nat) (client : Client) : System :=
  match system.engine.step client.scope change.perform with
  | (.ok (), scope, engine) =>
    system.revise engine index { client with scope, unlinked := client.unlinked || change.unlinks }
  | (.error _, scope, engine) => system.revise (engine.drop scope.tx) index client.ended

def commit (system : System) (index : Nat) (client : Client) : System :=
  match system.engine.commit client.scope with
  | (.ok (), engine) =>
    { system.revise engine index client.ended with
      commits := system.commits ++
        [{ session := client.session, journalEnd := engine.storage.store.journalLength }] }
  | (.error _, engine) => system.revise engine index client.ended

def rollback (system : System) (index : Nat) (client : Client) : System :=
  system.revise (system.engine.drop client.scope.tx) index client.ended

def interrupt (system : System) (interrupts : Interrupts) (index : Nat) (client : Client) : System :=
  system.revise system.engine index { client with scope := { client.scope with interrupts } }

-- A scope that has ended cannot be called any more.
def withClient (system : System) (index : Nat) (call : Nat → Client → System) : System :=
  match system.clients[index]? with
  | some client => if client.scope.tx.finished then system else call index client
  | none => system

def act (system : System) : Request → System
  | .begin interrupts => system.begin interrupts
  | .change index change => system.withClient index (system.change change)
  | .commit index => system.withClient index system.commit
  | .rollback index => system.withClient index system.rollback
  | .timestamp => system.withEngine system.engine.timestamp.2
  | .interrupt index interrupts => system.withClient index (system.interrupt interrupts)
  | .fail schedule => system.withEngine (system.engine.withSchedule schedule)

def run (system : System) (requests : List Request) : System := requests.foldl act system

def Steady : System → List Request → Prop
  | _, [] => True
  | system, request :: rest =>
    system.store.clock ≤ (system.act request).store.clock ∧ Steady (system.act request) rest

def opened (journal : Option Journal.Log) (loose : Bool) : System :=
  { engine := { storage := { store := { journal }, loose } } }

def world (system : System) : World Bool :=
  { store := system.store, sessions := system.clients.map Client.session, commits := system.commits }

variable {system : System} {index : Nat} {client : Client}

theorem session_of_client (found : system.clients[index]? = some client) :
    system.world.sessions[index]? = some client.session := by
  simp [world, found]

theorem withClient_cases (system : System) (index : Nat) (call : Nat → Client → System) :
    system.withClient index call = system ∨ ∃ client, system.clients[index]? = some client ∧
      client.scope.tx.finished = false ∧ system.withClient index call = call index client := by
  rw [withClient]
  cases system.clients[index]? with
  | none => exact .inl rfl
  | some client =>
    cases unfinished : client.scope.tx.finished with
    | true => simp [unfinished]
    | false => simp [unfinished]

theorem begin_of_error {interrupts : Interrupts} {error : Error}
    (refused : (system.engine.begin interrupts).1 = .error error) :
    system.begin interrupts = system.withEngine (system.engine.begin interrupts).2 := by
  rw [begin, show system.engine.begin interrupts = (.error error, _) from Prod.ext refused rfl]

theorem begin_of_ok {interrupts : Interrupts} {scope : Scope}
    (opened : (system.engine.begin interrupts).1 = .ok scope) :
    system.begin interrupts =
      { system with
        engine := (system.engine.begin interrupts).2
        clients := system.clients ++ [{ scope, born := system.commits.length }] } := by
  rw [begin, show system.engine.begin interrupts = (.ok scope, _) from Prod.ext opened rfl]

theorem change_of_error {change : Change} {error : Error}
    (failed : (system.engine.step client.scope change.perform).1 = .error error) :
    system.change change index client =
      system.revise ((system.engine.step client.scope change.perform).2.2.drop
        (system.engine.step client.scope change.perform).2.1.tx) index client.ended := by
  rw [System.change, show system.engine.step client.scope change.perform = (.error error, _, _) from
    Prod.ext failed rfl]

theorem change_of_ok {change : Change}
    (performed : (system.engine.step client.scope change.perform).1 = .ok ()) :
    system.change change index client =
      system.revise (system.engine.step client.scope change.perform).2.2 index
        { client with
          scope := (system.engine.step client.scope change.perform).2.1
          unlinked := client.unlinked || change.unlinks } := by
  rw [System.change, show system.engine.step client.scope change.perform = (.ok (), _, _) from
    Prod.ext performed rfl]

theorem commit_of_error {error : Error} (failed : (system.engine.commit client.scope).1 = .error error) :
    system.commit index client =
      system.revise (system.engine.commit client.scope).2 index client.ended := by
  rw [commit, show system.engine.commit client.scope = (.error error, _) from Prod.ext failed rfl]

theorem commit_of_ok (committed : (system.engine.commit client.scope).1 = .ok ()) :
    system.commit index client =
      { system.revise (system.engine.commit client.scope).2 index client.ended with
        commits := system.commits ++
          [{ session := client.session
             journalEnd := (system.engine.commit client.scope).2.storage.store.journalLength }] } := by
  rw [commit, show system.engine.commit client.scope = (.ok (), _) from Prod.ext committed rfl]

theorem clock_act (system : System) (request : Request) :
    (system.act request).store.clock = system.store.clock ∨
      (system.act request).store.clock = system.store.clock + 1 := by
  have called (index : Nat) {call : Nat → Client → System}
      (moves : ∀ client, (call index client).store.clock = system.store.clock ∨
        (call index client).store.clock = system.store.clock + 1) :
      (system.withClient index call).store.clock = system.store.clock ∨
        (system.withClient index call).store.clock = system.store.clock + 1 := by
    rcases withClient_cases system index call with same | ⟨client, _, _, same⟩
    · exact .inl (by rw [same])
    · rw [same]
      exact moves client
  -- The clock moves in a commit or for a timestamp and nowhere else.
  cases request with
  | begin interrupts =>
    left
    rcases system.engine.begin_cases interrupts with ⟨error, refused, same⟩ | ⟨later, opened, started⟩
    · exact (congrArg (·.store.clock) (begin_of_error refused)).trans (congrArg Store.clock same)
    · exact (congrArg (·.store.clock) (begin_of_ok opened)).trans (congrArg Store.clock started)
  | change index change =>
    apply called
    intro client
    left
    cases result : (system.engine.step client.scope change.perform).1 with
    | error error =>
      rw [change_of_error result]
      exact Transaction.clock_finish _ _
    | ok _ =>
      rw [change_of_ok result]
      rfl
  | commit index =>
    apply called
    intro client
    have committed : (system.commit index client).store =
        (system.engine.commit client.scope).2.storage.store := by
      cases result : (system.engine.commit client.scope).1 with
      | error error =>
        rw [commit_of_error result]
        rfl
      | ok _ =>
        rw [commit_of_ok result]
        rfl
    rw [committed]
    rcases system.engine.commit_cases client.scope with ⟨error, _, released⟩ | ⟨_, stored⟩
    · rw [released]
      exact .inl (Transaction.clock_finish _ _)
    · rw [stored]
      exact Transaction.clock_commit _ _
  | rollback index => exact called index fun client => .inl (Transaction.clock_finish _ _)
  | timestamp =>
    rcases system.engine.timestamp_cases with same | moved
    · exact .inl (congrArg Store.clock same)
    · exact .inr ((congrArg Store.clock moved).trans (Store.clock_timestamp _))
  | interrupt index interrupts => exact called index fun client => .inl rfl
  | fail schedule => exact .inl rfl

theorem steady_of_length_lt {system : System} {requests : List Request}
    (short : system.store.clock.toNat + requests.length < UInt64.size) : system.Steady requests := by
  induction requests generalizing system with
  | nil => trivial
  | cons request rest ih =>
    obtain ⟨forward, room⟩ := World.forward_of_moved (clock_act system request) short
    exact ⟨forward, ih room⟩

theorem world_ended {engine : Engine}
    (released : engine.storage.store = (client.scope.tx.finish system.store).2) :
    (system.revise engine index client.ended).world = system.world.finish index client.session := by
  simp only [world, store, revise, released, List.map_set]
  rfl

theorem world_commit (unfinished : client.scope.tx.finished = false)
    (same : (system.engine.commit client.scope).1 = (client.scope.tx.commit system.store).1)
    (stored : (system.engine.commit client.scope).2.storage.store =
      (client.scope.tx.commit system.store).2.2) :
    (system.commit index client).world = system.world.commit index client.session := by
  have tx := Transaction.commit_tx unfinished system.store
  have sessions : (system.clients.set index client.ended).map Client.session =
      (system.clients.map Client.session).set index
        { client.session with tx := (client.scope.tx.commit system.store).2.1 } := by
    rw [List.map_set, tx]
    rfl
  cases result : (client.scope.tx.commit system.store).1 with
  | error error =>
    rw [commit_of_error (same.trans result)]
    simp only [world, World.commit, store, revise] at sessions result stored ⊢
    rw [sessions, stored]
    simp only [Client.session, result, List.append_nil]
  | ok _ =>
    rw [commit_of_ok (same.trans result)]
    simp only [world, World.commit, store, revise] at sessions result stored ⊢
    rw [sessions, stored]
    simp only [Client.session, result]

end System

end FsMeta.Tree

import FsMeta.Proofs.Service.Atomicity

set_option autoImplicit false

namespace FsMeta

theorem Store.Settles.outcome {α : Type} {store later : Store} {writes : Writes} {result : Except Error α}
    (settles : store.Settles writes result later) (bounded : Bounded store.clock store.history)
    (forward : store.clock ≤ later.clock) :
    Bounded later.clock later.history ∧
      ((∃ error, result = .error error) ∧ later.committed = store.committed ∨
        ∃ value, result = .ok value ∧ later.committed = store.committed.write writes) := by
  rw [committed_eq_current bounded]
  cases outcome : result with
  | error error =>
    have history := settles.failed error outcome
    have stays : Bounded later.clock later.history := by
      rw [history]
      exact bounded.mono forward
    rw [committed_eq_current stays, current_of_history_eq history]
    exact ⟨stays, .inl ⟨⟨error, rfl⟩, rfl⟩⟩
  | ok value =>
    have follows := settles.done value outcome
    have stays := follows.bounded bounded forward
    rw [committed_eq_current stays, follows.current]
    exact ⟨stays, .inr ⟨value, rfl, rfl⟩⟩

structure Server (σ ι : Type) where
  store : σ → Store
  serve : σ → ι → σ

namespace Server

variable {σ ι : Type}

def run (server : Server σ ι) (state : σ) (calls : List ι) : σ := calls.foldl server.serve state

def contents (server : Server σ ι) (state : σ) : Contents := (server.store state).committed

/-- No version lies in the future. -/
def Current (server : Server σ ι) (state : σ) : Prop :=
  Store.Bounded (server.store state).clock (server.store state).history

def Forward (server : Server σ ι) (state : σ) (call : ι) : Prop :=
  (server.store state).clock ≤ (server.store (server.serve state call)).clock

/-- The clock does not wrap on the way. -/
def Steady (server : Server σ ι) : σ → List ι → Prop
  | _, [] => True
  | state, call :: rest => server.Forward state call ∧ server.Steady (server.serve state call) rest

instance decidableSteady (server : Server σ ι) : (state : σ) → (calls : List ι) →
    Decidable (server.Steady state calls)
  | _, [] => isTrue trivial
  | state, call :: rest =>
    have := decidableSteady server (server.serve state call) rest
    inferInstanceAs (Decidable (_ ≤ _ ∧ _))

@[simp] theorem run_append (server : Server σ ι) (state : σ) (earlier : List ι) (call : ι) :
    server.run state (earlier ++ [call]) = server.serve (server.run state earlier) call := by
  simp [run]

theorem exists_take_of_prefix {calls earlier : List ι} {call : ι} (leads : earlier ++ [call] <+: calls) :
    ∃ place, calls[place]? = some call ∧ earlier = calls.take place := by
  obtain ⟨rest, rfl⟩ := leads
  exact ⟨earlier.length, by simp, by simp⟩

theorem forward_of_steady {server : Server σ ι} {state : σ} {calls earlier : List ι} {call : ι}
    (steady : server.Steady state calls) (leads : earlier ++ [call] <+: calls) :
    server.Forward (server.run state earlier) call := by
  induction calls generalizing state earlier with
  | nil => simp at leads
  | cons first rest ih =>
    cases earlier with
    | nil =>
      cases (List.cons_prefix_cons.1 leads).1
      exact steady.1
    | cons head earlier =>
      obtain ⟨rfl, within⟩ := List.cons_prefix_cons.1 leads
      have later := ih steady.2 within
      exact later

theorem always {server : Server σ ι} {holds : σ → Prop}
    (step : ∀ state call, holds state → server.Forward state call → holds (server.serve state call))
    {state : σ} (initially : holds state) {calls : List ι} (steady : server.Steady state calls)
    {earlier : List ι} (leads : earlier <+: calls) : holds (server.run state earlier) := by
  induction earlier using List.reverseRecOn with
  | nil => exact initially
  | append_singleton earlier call ih =>
    rw [run_append]
    exact step _ _ (ih ((List.prefix_append _ _).trans leads)) (forward_of_steady steady leads)

theorem always_iff {server : Server σ ι} {regular holds : σ → Prop} {harmless : σ → ι → Prop}
    (step : ∀ state call, regular state → holds state → server.Forward state call →
      regular (server.serve state call) ∧ (holds (server.serve state call) ↔ harmless state call))
    {state : σ} (start : regular state) (initially : holds state) {calls : List ι}
    (steady : server.Steady state calls) :
    (∀ earlier, earlier <+: calls → holds (server.run state earlier)) ↔
      ∀ earlier call, earlier ++ [call] <+: calls → harmless (server.run state earlier) call := by
  have before {earlier : List ι} {call : ι} (leads : earlier ++ [call] <+: calls) : earlier <+: calls :=
    (List.prefix_append _ _).trans leads
  constructor
  · intro holding earlier call leads
    have regular_ {passed : List ι} (within : passed <+: calls) : regular (server.run state passed) := by
      induction passed using List.reverseRecOn with
      | nil => exact start
      | append_singleton passed last ih =>
        have next := step _ last (ih (before within)) (holding _ (before within)) (forward_of_steady steady within)
        rw [run_append]
        exact next.1
    have next := step _ call (regular_ (before leads)) (holding _ (before leads)) (forward_of_steady steady leads)
    rw [← next.2, ← run_append]
    exact holding _ leads
  · intro harmless earlier leads
    suffices both : regular (server.run state earlier) ∧ holds (server.run state earlier) from both.2
    induction earlier using List.reverseRecOn with
    | nil => exact ⟨start, initially⟩
    | append_singleton earlier call ih =>
      obtain ⟨known, held⟩ := ih (before leads)
      have next := step _ call known held (forward_of_steady steady leads)
      rw [run_append]
      exact ⟨next.1, next.2.2 (harmless earlier call leads)⟩

end Server

end FsMeta

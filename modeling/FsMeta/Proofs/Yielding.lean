import FsMeta.Proofs.Store.Calls
import FsMeta.Proofs.Stored

set_option autoImplicit false

namespace FsMeta

structure Demands (outcome : Except Error Unit) (condition : Prop) : Prop where
  met : condition → outcome = .ok ()
  refused : ¬ condition → ∃ error, outcome = .error error ∧ error.kind = .invalidArgument

namespace Demands

variable {one two : Except Error Unit} {first second : Prop}

theorem ite {condition : Prop} [Decidable condition] (what : String) :
    Demands (if condition then .ok () else .error (.invalid what)) condition where
  met holds := if_pos holds
  refused fails := ⟨.invalid what, if_neg fails, rfl⟩

theorem of_iff (demands : Demands one first) (same : first ↔ second) : Demands one second := by
  rwa [← same]

theorem bind (demands : Demands one first) (also : Demands two second) :
    Demands (one >>= fun _ => two) (first ∧ second) := by
  constructor
  · rintro ⟨holds, too⟩
    rw [demands.met holds]
    exact also.met too
  · intro fails
    by_cases holds : first
    · rw [demands.met holds]
      exact also.refused fun too => fails ⟨holds, too⟩
    · obtain ⟨error, refused, kind⟩ := demands.refused holds
      rw [refused]
      exact ⟨error, rfl, kind⟩

end Demands

theorem demands_requirePositive (field : String) (id : Int64) : Demands (requirePositive field id) (0 < id) where
  met positive := if_neg (Int64.not_le.2 positive)
  refused low := ⟨_, if_pos (Int64.not_lt.1 low), rfl⟩

namespace Scoped

variable {α β : Type} {base : Contents} {writes : Writes}

structure Calm (scope : Scope) : Prop where
  interrupts : scope.interrupts = .never
  schedule : scope.schedule = []

/-- If nothing disturbs it, it changes nothing but the buffer, and its outcome and the writes that it leaves
are as the condition says. -/
def Yields (base : Contents) (action : Scoped α) (writes : Writes) (post : Except Error α → Writes → Prop) :
    Prop :=
  ∀ storage scope, Opens storage scope base writes → Calm scope → ∃ written,
    (action.run storage scope).2 = { scope with tx := { scope.tx with writes := written } } ∧
      post (action.run storage scope).1 written

theorem Opens.later {storage : Storage} {scope : Scope} (opens : Opens storage scope base writes)
    (written : Writes) : Opens storage { scope with tx := { scope.tx with writes := written } } base written :=
  ⟨opens.snapshot, rfl, opens.unfinished⟩

namespace Calm

variable {storage : Storage} {scope : Scope} (calm : Calm scope)
include calm

theorem run_check : Scoped.check.run storage scope = (.ok (), scope) := by
  obtain ⟨tx, interrupts, schedule⟩ := scope
  cases calm.interrupts
  rfl

theorem run_attempt (call : Call) : (Scoped.attempt call).run storage scope = (.ok (), scope) := by
  obtain ⟨tx, interrupts, schedule⟩ := scope
  cases calm.schedule
  rfl

end Calm

namespace Yields

theorem mono {action : Scoped α} {post weaker : Except Error α → Writes → Prop}
    (yields : Yields base action writes post)
    (weaken : ∀ result written, post result written → weaker result written) :
    Yields base action writes weaker := by
  intro storage scope opens calm
  obtain ⟨written, stays, holds⟩ := yields storage scope opens calm
  exact ⟨written, stays, weaken _ _ holds⟩

theorem and_ensures {action : Scoped α} {post : Except Error α → Writes → Prop}
    {ensured : α → Writes → Prop} (yields : Yields base action writes post)
    (ensures : Ensures base action writes ensured) :
    Yields base action writes fun result written =>
      post result written ∧ ∀ value, result = .ok value → ensured value written := by
  intro storage scope opens calm
  obtain ⟨written, stays, holds⟩ := yields storage scope opens calm
  obtain ⟨again, same, also⟩ := ensures storage scope opens
  rw [stays] at same
  have equal : written = again := congrArg Transaction.writes same
  subst equal
  exact ⟨written, stays, holds, also⟩

theorem of_run {action : Scoped α} {post : Except Error α → Writes → Prop} {result : Except Error α}
    (ran : ∀ storage scope, Opens storage scope base writes → Calm scope →
      action.run storage scope = (result, scope)) (holds : post result writes) :
    Yields base action writes post := by
  intro storage scope opens calm
  rw [ran storage scope opens calm]
  exact ⟨writes, by rw [← opens.writes], holds⟩

theorem pure {value : α} {post : Except Error α → Writes → Prop} (holds : post (.ok value) writes) :
    Yields base (Pure.pure value) writes post :=
  of_run (fun _ _ _ _ => rfl) holds

theorem throw {error : Error} {post : Except Error α → Writes → Prop} (holds : post (.error error) writes) :
    Yields base (throw error) writes post :=
  of_run (fun _ _ _ _ => rfl) holds

theorem lift {outcome : Except Error α} {post : Except Error α → Writes → Prop} (holds : post outcome writes) :
    Yields base (liftM outcome) writes post :=
  of_run (fun _ _ _ _ => rfl) holds

theorem bind {action : Scoped α} {next : α → Scoped β} {post : Except Error β → Writes → Prop}
    (yields : Yields base action writes fun result between =>
      match result with
      | .ok value => Yields base (next value) between post
      | .error error => post (.error error) between) :
    Yields base (action >>= next) writes post := by
  intro storage scope opens calm
  obtain ⟨between, stays, holds⟩ := yields storage scope opens calm
  cases outcome : (action.run storage scope).1 with
  | error error =>
    rw [run_bind_error (Prod.ext outcome stays)]
    rw [outcome] at holds
    exact ⟨between, rfl, holds⟩
  | ok value =>
    rw [run_bind_ok (Prod.ext outcome stays)]
    rw [outcome] at holds
    exact holds storage _ (opens.later between) ⟨calm.interrupts, calm.schedule⟩

theorem require {outcome : Except Error α} {next : α → Scoped β} {post : Except Error β → Writes → Prop}
    (refused : ∀ error, outcome = .error error → post (.error error) writes)
    (met : ∀ value, outcome = .ok value → Yields base (next value) writes post) :
    Yields base (liftM outcome >>= next) writes post := by
  refine bind (lift ?_)
  cases outcome with
  | error error => exact refused error rfl
  | ok value => exact met value rfl

theorem fail {error : Error} {next : α → Scoped β} {post : Except Error β → Writes → Prop}
    (holds : post (.error error) writes) : Yields base (MonadExcept.throw error >>= next) writes post :=
  bind (throw holds)

theorem map {action : Scoped α} {f : α → β} {post : Except Error β → Writes → Prop}
    (yields : Yields base action writes fun result written => post (result.map f) written) :
    Yields base (f <$> action) writes post := by
  rw [map_eq_pure_bind]
  refine bind (yields.mono fun result written holds => ?_)
  cases result with
  | error error => exact holds
  | ok value => exact pure holds

theorem demand {outcome : Except Error Unit} {condition : Prop} {next : Unit → Scoped β}
    {post : Except Error β → Writes → Prop} (demands : Demands outcome condition)
    (refused : ∀ error, ¬ condition → error.kind = .invalidArgument → post (.error error) writes)
    (met : condition → Yields base (next ()) writes post) :
    Yields base (liftM outcome >>= next) writes post := by
  by_cases holds : condition
  · rw [demands.met holds]
    exact bind (lift (met holds))
  · obtain ⟨error, same, kind⟩ := demands.refused holds
    rw [same]
    exact bind (lift (refused error holds kind))

theorem check {post : Except Error Unit → Writes → Prop} (holds : post (.ok ()) writes) :
    Yields base Scoped.check writes post :=
  of_run (fun _ _ _ calm => calm.run_check) holds

theorem attempt {call : Call} {post : Except Error Unit → Writes → Prop} (holds : post (.ok ()) writes) :
    Yields base (Scoped.attempt call) writes post :=
  of_run (fun _ _ _ calm => calm.run_attempt call) holds

theorem look {next : Storage → Scope → Scoped α} {post : Except Error α → Writes → Prop}
    (yields : ∀ storage scope, Opens storage scope base writes →
      Yields base (next storage scope) writes post) :
    Yields base (read >>= fun storage => get >>= fun scope => next storage scope) writes post :=
  fun storage scope opens calm => yields storage scope opens storage scope opens calm

theorem update {change : Transaction → Except Error Transaction} {key : Bytes} {value : Option Bytes}
    (changes : ∀ tx, change tx = tx.write key value) {post : Except Error Unit → Writes → Prop}
    (holds : post (.ok ()) (writes.insert key value)) :
    Yields base (Scoped.update change) writes post := by
  intro storage scope opens _
  rw [opens.run_update changes]
  exact ⟨_, rfl, holds⟩

theorem fetch {key : Bytes} {post : Except Error (Option Bytes) → Writes → Prop}
    (holds : post (.ok (base.write writes key)) writes) : Yields base (Scoped.fetch key) writes post := by
  refine bind (check (bind (attempt (look fun storage scope opens => lift ?_))))
  rwa [Transaction.get_of_open opens.unfinished, Transaction.reads, opens.snapshot, opens.writes]

theorem put [Record α] {key : Bytes} {value : α} {post : Except Error Unit → Writes → Prop}
    (holds : post (.ok ()) (writes.insert key (some (Record.encode value)))) :
    Yields base (Scoped.put key value) writes post :=
  bind (check (bind (attempt (update (fun _ => rfl) holds))))

theorem delete {key : Bytes} {post : Except Error Unit → Writes → Prop}
    (holds : post (.ok ()) (writes.insert key none)) : Yields base (Scoped.delete key) writes post :=
  bind (check (bind (attempt (update (fun _ => rfl) holds))))

theorem visibleCount {post : Except Error Nat → Writes → Prop}
    (holds : ∀ count, (base.write writes).AtMost count → post (.ok count) writes) :
    Yields base Scoped.visibleCount writes post := by
  have counts : Yields base Scoped.visibleCount writes fun result written =>
      (∃ count, result = .ok count) ∧ written = writes :=
    look fun _ _ _ => pure ⟨⟨_, rfl⟩, rfl⟩
  have bounds : Ensures base Scoped.visibleCount writes fun count _ => (base.write writes).AtMost count :=
    .visibleCount_le fun _ counts => counts
  refine (counts.and_ensures bounds).mono ?_
  rintro _ _ ⟨⟨⟨count, rfl⟩, rfl⟩, bound⟩
  exact holds count (bound count rfl)

theorem gather {scanned : Bytes} {pairs : List (Bytes × Bytes)}
    {post : Except Error (List (Bytes × Bytes)) → Writes → Prop}
    (holds : post (.ok (pairs.takeWhile fun pair => scanned.isPrefixOf pair.1)) writes) :
    Yields base (Scoped.gather scanned pairs) writes post := by
  induction pairs generalizing post with
  | nil => exact pure holds
  | cons pair rest ih =>
    obtain ⟨key, value⟩ := pair
    rw [List.takeWhile_cons] at holds
    refine bind (check ?_)
    dsimp only
    split
    · rename_i begins
      rw [if_pos begins] at holds
      exact bind (attempt (bind (ih (pure holds))))
    · rename_i begins
      rw [if_neg begins] at holds
      exact pure holds

theorem scan {scanned : Bytes} {post : Except Error (List (Bytes × Bytes)) → Writes → Prop}
    (holds : ∀ pairs, Table.Ascending pairs →
      (∀ key value, (key, value) ∈ pairs ↔
        base.write writes key = some value ∧ scanned.isPrefixOf key = true) → post (.ok pairs) writes) :
    Yields base (Scoped.scan scanned) writes post := by
  have answers : Yields base (Scoped.scan scanned) writes fun result written =>
      (∃ pairs, result = .ok pairs) ∧ written = writes := by
    refine bind (check (bind (attempt (look fun storage scope opens => ?_))))
    obtain ⟨visible, listed, _⟩ :=
      Transaction.iterate_listing opens.unfinished storage.store scanned scanned.above? storage.loose
    refine require (fun error failed => ?_) fun pairs _ => gather ⟨⟨_, rfl⟩, rfl⟩
    rw [listed] at failed
    cases failed
  have exact : Ensures base (Scoped.scan scanned) writes fun pairs _ => Table.Ascending pairs ∧
      ∀ key value, (key, value) ∈ pairs ↔ base.write writes key = some value ∧ scanned.isPrefixOf key = true :=
    .scan_exact fun _ ascending members => ⟨ascending, members⟩
  refine (answers.and_ensures exact).mono ?_
  rintro _ _ ⟨⟨⟨pairs, rfl⟩, rfl⟩, known⟩
  exact holds pairs (known pairs rfl).1 (known pairs rfl).2

theorem exists_run {storage : Storage} {scope : Scope} {action : Scoped α} {post : Except Error α → Prop}
    (yields : Yields base action writes fun result later => post result ∧ later = writes)
    (opens : Opens storage scope base writes) (calm : Calm scope) :
    ∃ result, action.run storage scope = (result, scope) ∧ post result := by
  obtain ⟨_, stays, holds, rfl⟩ := yields storage scope opens calm
  refine ⟨_, Prod.ext rfl (stays.trans ?_), holds⟩
  rw [← opens.writes]

end Yields

section

variable {storage : Storage} {scope : Scope}

theorem run_lift_bind (value : α) (next : α → Scoped β) :
    ((liftM (.ok value : Except Error α) : Scoped α) >>= next).run storage scope = (next value).run storage scope :=
  run_bind_ok rfl

theorem run_map (f : α → β) (action : Scoped α) : (f <$> action).run storage scope =
    ((action.run storage scope).1.map f, (action.run storage scope).2) := by
  rw [map_eq_pure_bind]
  rcases ran : action.run storage scope with ⟨error | value, between⟩
  · exact run_bind_error ran
  · exact run_bind_ok ran

theorem run_mapM {f : α → Scoped β} {outcome : α → Except Error β} {elements : List α}
    (ran : ∀ element ∈ elements, (f element).run storage scope = (outcome element, scope)) :
    (elements.mapM f).run storage scope = (elements.mapM outcome, scope) := by
  induction elements with
  | nil => rfl
  | cons first rest ih =>
    obtain ⟨here, others⟩ := List.forall_mem_cons.1 ran
    rw [List.mapM_cons, List.mapM_cons]
    cases known : outcome first with
    | error error =>
      rw [known] at here
      exact run_bind_error here
    | ok value =>
      rw [known] at here
      rw [run_bind_ok here]
      cases listed : rest.mapM outcome with
      | error error => exact run_bind_error ((ih others).trans (by rw [listed]))
      | ok values => exact run_bind_ok ((ih others).trans (by rw [listed]))

namespace Opens

variable (opens : Opens storage scope base writes) (calm : Calm scope)
include opens calm

theorem run_fetch (key : Bytes) : (fetch key).run storage scope = (.ok (base.write writes key), scope) := by
  have yields : Yields base (fetch key) writes fun result later =>
      result = .ok (base.write writes key) ∧ later = writes := .fetch ⟨rfl, rfl⟩
  obtain ⟨_, ran, rfl⟩ := yields.exists_run opens calm
  exact ran

theorem run_find? [Record α] (key : Bytes) : (find? α key).run storage scope =
    ((base.write writes key).elim (.ok none) fun bytes => some <$> Record.decode bytes, scope) := by
  refine (run_bind_ok (opens.run_fetch calm key)).trans ?_
  cases base.write writes key with
  | none => rfl
  | some bytes => exact run_map _ _

theorem run_find [Record α] {key bytes : Bytes} (held : base.write writes key = some bytes) :
    (find α key).run storage scope = (Record.decode bytes, scope) := by
  have found := opens.run_find? calm key (α := α)
  rw [held] at found
  cases decoded : (Record.decode bytes : Except Error α) with
  | error error =>
    rw [Option.elim_some, decoded] at found
    exact run_bind_error found
  | ok value =>
    rw [Option.elim_some, decoded] at found
    exact run_bind_ok found

theorem run_scan (scanned : Bytes) : ∃ pairs, (scan scanned).run storage scope = (.ok pairs, scope) ∧
    Gathers (base.write writes) scanned pairs := by
  have yields : Yields base (scan scanned) writes fun result later =>
      (∃ pairs, result = .ok pairs ∧ Gathers (base.write writes) scanned pairs) ∧ later = writes :=
    .scan fun pairs ascending members => ⟨⟨pairs, rfl, ascending, members⟩, rfl⟩
  obtain ⟨_, ran, pairs, rfl, gathers⟩ := yields.exists_run opens calm
  exact ⟨pairs, ran, gathers⟩

end Opens

end

end Scoped

namespace Contents

def Readable (contents : Contents) (α : Type) [Record α] (key : Key) : Prop :=
  contents key.bytes = none ∨ ∃ value : α, contents.Holds key value

variable {contents : Contents} {α : Type} [Record α] {key : Key}

theorem readable_of_decodes
    (decodes : ∀ bytes, contents key.bytes = some bytes → ∃ value : α, Record.decode bytes = .ok value) :
    contents.Readable α key := by
  cases held : contents key.bytes with
  | none => exact .inl held
  | some bytes =>
    obtain ⟨value, decoded⟩ := decodes bytes held
    exact .inr ⟨value, bytes, held, decoded⟩

theorem Holds.isSome {value : α} (held : contents.Holds key value) : (contents key.bytes).isSome := by
  obtain ⟨bytes, held, _⟩ := held
  rw [held]
  rfl

end Contents

section

open Scoped (Yields)

variable {base : Contents} {writes : Writes} {α β : Type} [Record α] {key : Key}

theorem yields_find? {post : Except Error (Option α) → Writes → Prop}
    (readable : (base.write writes).Readable α key)
    (absent : base.write writes key.bytes = none → post (.ok none) writes)
    (present : ∀ value, (base.write writes).Holds key value → post (.ok (some value)) writes) :
    Yields base (Scoped.find? α key.bytes) writes post := by
  refine .bind (.fetch ?_)
  rcases readable with missing | ⟨value, bytes, held, decoded⟩
  · rw [missing]
    exact .pure (absent missing)
  · rw [held]
    refine .map (.lift ?_)
    rw [decoded]
    exact present value ⟨bytes, held, decoded⟩

/-- What cannot be read is not taken for something that is missing. -/
theorem yields_find?_unreadable {post : Except Error (Option α) → Writes → Prop}
    (unreadable : ¬ (base.write writes).Readable α key)
    (failed : ∀ what, post (.error (.serialization what)) writes) :
    Yields base (Scoped.find? α key.bytes) writes post := by
  refine .bind (.fetch ?_)
  cases held : base.write writes key.bytes with
  | none => exact absurd (.inl held) unreadable
  | some bytes =>
    refine .map (.lift ?_)
    rw [Record.decode]
    split
    · rename_i value read
      have decoded : Record.decode bytes = .ok value := by rw [Record.decode, read]
      exact absurd (.inr ⟨value, bytes, held, decoded⟩) unreadable
    · exact failed _

theorem yields_find {next : α → Scoped β} {post : Except Error β → Writes → Prop}
    (readable : (base.write writes).Readable α key)
    (absent : base.write writes key.bytes = none →
      post (.error (.notFound (Key.describe key.bytes))) writes)
    (present : ∀ value, (base.write writes).Holds key value → Yields base (next value) writes post) :
    Yields base (Scoped.find α key.bytes >>= next) writes post := by
  refine .bind (.bind (yields_find? readable (fun missing => ?_) fun value held => ?_))
  · exact .throw (absent missing)
  · exact .pure (present value held)

end

theorem Store.overtaken?_eq_none_of_bounded {store : Store} {tx : Transaction}
    (bounded : Bounded store.clock store.history) (snapshot : tx.snapshot = store.clock) :
    store.overtaken? tx = none := by
  rw [overtaken?_eq_none_iff, snapshot]
  intro key _ _
  rw [Version.overtakes]
  cases latest : (store.versions key).head? with
  | none => rfl
  | some version =>
    have reached := bounded_iff.1 bounded key version (List.mem_of_mem_head? latest)
    simpa using reached

theorem Store.log_congr {store other : Store} (same : store.journal = other.journal) (commitTime : UInt64)
    (operations : List Journal.Operation) :
    (store.log commitTime operations).1 = (other.log commitTime operations).1 := by
  simp only [log, same]
  cases other.journal <;> rfl

theorem Transaction.commit_begin {store : Store} {writes : Writes}
    (bounded : Store.Bounded store.clock store.history) (forward : store.clock ≤ store.clock + 1)
    (taken : (store.logged { snapshot := store.clock, writes }).1 = .ok ()) :
    let ended := commit { (begin store).1 with writes } (begin store).2
    ended.1 = .ok () ∧ ended.2.2.committed = store.committed.write writes := by
  intro ended
  have logged : ((begin store).2.logged { (begin store).1 with writes }).1 = .ok () := by
    have same : { (begin store).2 with clock := store.clock + 1 }.journal =
        { store with clock := store.clock + 1 }.journal := rfl
    exact (Store.log_congr same _ _).trans taken
  have clear : (begin store).2.overtaken? { (begin store).1 with writes } = none :=
    Store.overtaken?_eq_none_of_bounded bounded rfl
  have accepted : ended.1 = .ok () := commit_of_logged rfl clear logged
  have settles : store.Settles writes ended.1 ended.2.2 := settles_commit store writes
  have grows : store.clock ≤ ended.2.2.clock := by
    rcases clock_commit { (begin store).1 with writes } (begin store).2 with same | next
    · exact UInt64.le_of_eq same.symm
    · exact next ▸ forward
  obtain ⟨_, ⟨⟨_, failed⟩, _⟩ | ⟨_, _, written⟩⟩ := settles.outcome bounded grows
  · rw [accepted] at failed
    cases failed
  · exact ⟨accepted, written⟩

namespace Engine

variable {α : Type} {action : Scoped α} {engine : Engine}

def pending (engine : Engine) (action : Scoped α) : Transaction :=
  { snapshot := engine.storage.store.clock, writes := engine.buffered .never action }

/-- Nothing fails below, no version lies in the future, and there is room for one more commit: the clock does
not wrap, and the journal takes what is written. -/
structure Clear (engine : Engine) (action : Scoped α) : Prop where
  schedule : engine.schedule = []
  current : Store.Bounded engine.storage.store.clock engine.storage.store.history
  forward : engine.storage.store.clock ≤ engine.storage.store.clock + 1
  taken : (engine.storage.store.logged (engine.pending action)).1 = .ok ()

theorem clear_ofEntries (action : Scoped α) {entries : List Journal.Entry}
    (forward : (Store.ofEntries entries).clock ≤ (Store.ofEntries entries).clock + 1) :
    (ofStore (Store.ofEntries entries)).Clear action where
  schedule := rfl
  current := Store.bounded_ofEntries entries
  forward := forward
  taken := rfl

theorem Clear.next {β : Type} {next : Scoped β} {post : α → Writes → Prop} (clear : engine.Clear action)
    (ensures : Scoped.Ensures engine.storage.store.committed action .empty post)
    (quiet : (engine.run .never action).2.schedule = [])
    (unlogged : (engine.run .never action).2.storage.store.journal.isNone)
    (grows : engine.storage.store.clock ≤ (engine.run .never action).2.storage.store.clock)
    (forward : (engine.run .never action).2.storage.store.clock ≤
      (engine.run .never action).2.storage.store.clock + 1) : (engine.run .never action).2.Clear next where
  schedule := quiet
  current := ((engine.run_ensures .never ensures).1.outcome clear.current grows).1
  forward := forward
  taken := by rw [Store.logged, Store.log, Option.isNone_iff_eq_none.1 unlogged]

structure Ended (engine later : Engine) (result : Except Error α) (written : Writes) : Prop where
  done : ∀ value, result = .ok value →
    later.storage.store.committed = engine.storage.store.committed.write written
  failed : ∀ error, result = .error error → later.storage.store.committed = engine.storage.store.committed

theorem run_yields {post : Except Error α → Writes → Prop} (clear : engine.Clear action)
    (yields : Scoped.Yields engine.storage.store.committed action .empty post) : ∃ written,
      post (engine.run .never action).1 written ∧
        engine.Ended (engine.run .never action).2 (engine.run .never action).1 written := by
  obtain ⟨storage, schedule⟩ := engine
  cases clear.schedule
  let engine : Engine := { storage }
  let scope : Scope := { tx := (Transaction.begin storage.store).1, interrupts := .never }
  let opening : Engine := engine.withStore (Transaction.begin storage.store).2
  have started : engine.begin .never = (.ok scope, opening) := rfl
  obtain ⟨written, stays, holds⟩ := yields opening.storage scope ⟨rfl, rfl, rfl⟩ ⟨rfl, rfl⟩
  let tx : Transaction := { (Transaction.begin storage.store).1 with writes := written }
  let stepped : Scope := { tx, interrupts := .never }
  have step : opening.step scope action = ((action.run opening.storage scope).1, stepped, opening) := by
    refine Prod.ext rfl (Prod.ext stays ?_)
    exact congrArg (fun ended : Scope => opening.withSchedule ended.schedule) stays
  have buffered : engine.buffered .never action = written := by
    rw [Engine.buffered, started]
    exact congrArg (fun ended => ended.2.1.tx.writes) step
  -- What the journal is asked to take is what the action has buffered, which it is assumed to take.
  have taken : (storage.store.logged tx).1 = .ok () := by
    rw [← clear.taken, pending, buffered]
    rfl
  refine ⟨written, ?_⟩
  cases outcome : (action.run opening.storage scope).1 with
  | error error =>
    rw [outcome] at step holds
    have ran : engine.run .never action = (.error error, opening.drop tx) := by
      simp only [run, started, step]
      rfl
    rw [ran]
    refine ⟨holds, fun _ done => ?_, fun _ _ => ?_⟩
    · cases done
    · exact congrArg Store.committed (Transaction.finish_begin storage.store written)
  | ok value =>
    rw [outcome] at step holds
    obtain ⟨accepted, committed⟩ := Transaction.commit_begin clear.current clear.forward taken
    let closing : Engine := opening.withStore (tx.commit opening.storage.store).2.2
    have closed : opening.commit stepped = (.ok (), closing) := Prod.ext accepted rfl
    have ran : engine.run .never action = (.ok value, closing) := by
      simp only [run, started, step, closed]
      rfl
    rw [ran]
    refine ⟨holds, fun _ _ => committed, fun _ failed => ?_⟩
    cases failed

end Engine

end FsMeta

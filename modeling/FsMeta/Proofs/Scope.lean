import FsMeta.Proofs.Store.Ranges
import FsMeta.Scope
import Mathlib.Data.List.Perm.Subperm

set_option autoImplicit false

namespace FsMeta

theorem Interrupts.kind_of_state {interrupts : Interrupts} {error : Error}
    (fired : interrupts.state = .error error) : error.kind = .cancelled := by
  rw [state] at fired
  split at fired
  · cases fired
    rfl
  · split at fired
    · cases fired
      rfl
    · cases fired

namespace Schedule

variable {schedule : Schedule}

theorem mem_errors {fault : Fault} (member : fault ∈ schedule) : fault.error ∈ schedule.errors :=
  List.mem_map_of_mem member

theorem attempt_cases (schedule : Schedule) (call : Call) :
    (schedule.attempt call).1 = .ok () ∨ ∃ error ∈ schedule.errors, (schedule.attempt call).1 = .error error := by
  rw [attempt]
  dsimp only
  cases found : schedule.find? (Fault.due call) with
  | none => exact .inl rfl
  | some fault => exact .inr ⟨fault.error, mem_errors (List.mem_of_find?_eq_some found), rfl⟩

theorem errors_attempt (schedule : Schedule) (call : Call) : (schedule.attempt call).2.errors ⊆ schedule.errors := by
  intro error scheduled
  obtain ⟨later, left, rfl⟩ := List.mem_map.1 scheduled
  obtain ⟨fault, member, passed⟩ := List.mem_filterMap.1 left
  have same : later.error = fault.error := by
    rw [Fault.passed] at passed
    split at passed
    · cases passed
      rfl
    · split at passed
      · cases passed
      · cases passed
        rfl
  rw [same]
  exact mem_errors member

end Schedule

def Contents.AtMost (contents : Contents) (count : Nat) : Prop :=
  ∀ keys : List Bytes, keys.Nodup → (∀ key ∈ keys, (contents key).isSome) → keys.length ≤ count

namespace Scoped

variable {α β : Type} {base : Contents} {writes : Writes}

structure Opens (storage : Storage) (scope : Scope) (base : Contents) (writes : Writes) : Prop where
  snapshot : storage.store.readAt scope.tx.snapshot = base
  writes : scope.tx.writes = writes
  unfinished : scope.tx.finished = false

/-- Over these writes it leaves the transaction open at its snapshot, and if it succeeds, its value and
the writes that it leaves are as the condition says. -/
def Ensures (base : Contents) (action : Scoped α) (writes : Writes) (post : α → Writes → Prop) : Prop :=
  ∀ storage scope, Opens storage scope base writes → ∃ written,
    (action.run storage scope).2.tx = { scope.tx with writes := written } ∧
      ∀ value, (action.run storage scope).1 = .ok value → post value written

theorem run_bind_ok {action : Scoped α} {next : α → Scoped β} {storage : Storage} {scope between : Scope}
    {value : α} (ran : action.run storage scope = (.ok value, between)) :
    (action >>= next).run storage scope = (next value).run storage between := by
  simp only [run] at ran
  simp only [run, bind, ReaderT.bind, ExceptT.bind, ExceptT.mk, StateT.bind, ran]
  rfl

theorem run_bind_error {action : Scoped α} {next : α → Scoped β} {storage : Storage}
    {scope between : Scope} {error : Error} (ran : action.run storage scope = (.error error, between)) :
    (action >>= next).run storage scope = (.error error, between) := by
  simp only [run] at ran
  simp only [run, bind, ReaderT.bind, ExceptT.bind, ExceptT.mk, StateT.bind, ran]
  rfl

theorem Opens.of_tx {storage : Storage} {scope between : Scope} (opens : Opens storage scope base writes)
    {written : Writes} (stays : between.tx = { scope.tx with writes := written }) :
    Opens storage between base written :=
  ⟨stays ▸ opens.snapshot, stays ▸ rfl, stays ▸ opens.unfinished⟩

theorem Opens.run_update {storage : Storage} {scope : Scope} (opens : Opens storage scope base writes)
    {change : Transaction → Except Error Transaction} {key : Bytes} {value : Option Bytes}
    (changes : ∀ tx, change tx = tx.write key value) : (Scoped.update change).run storage scope =
      (.ok (), { scope with tx := { scope.tx with writes := writes.insert key value } }) := by
  have usable : scope.tx.requireOpen = .ok () := by
    rw [Transaction.requireOpen, opens.unfinished]
    rfl
  have written : change scope.tx = .ok { scope.tx with writes := writes.insert key value } := by
    rw [changes, Transaction.write, usable, ← opens.writes]
    rfl
  have applied : (liftM (change scope.tx) : Scoped Transaction).run storage scope =
      (.ok { scope.tx with writes := writes.insert key value }, scope) := by
    rw [written]
    rfl
  exact run_bind_ok applied

namespace Ensures

theorem mono {action : Scoped α} {post weaker : α → Writes → Prop}
    (ensures : Ensures base action writes post)
    (weaken : ∀ value written, post value written → weaker value written) :
    Ensures base action writes weaker := by
  intro storage scope opens
  obtain ⟨written, stays, holds⟩ := ensures storage scope opens
  exact ⟨written, stays, fun value ran => weaken value written (holds value ran)⟩

theorem and {action : Scoped α} {post other : α → Writes → Prop} (one : Ensures base action writes post)
    (two : Ensures base action writes other) :
    Ensures base action writes fun value written => post value written ∧ other value written := by
  intro storage scope opens
  obtain ⟨written, stays, holds⟩ := one storage scope opens
  obtain ⟨again, same, also⟩ := two storage scope opens
  have equal : again = written := congrArg Transaction.writes (same.symm.trans stays)
  subst equal
  exact ⟨again, stays, fun value ran => ⟨holds value ran, also value ran⟩⟩

theorem of_stays {action : Scoped α} {post : α → Writes → Prop}
    (stays : ∀ storage scope, (action.run storage scope).2.tx = scope.tx)
    (holds : ∀ storage scope value, Opens storage scope base writes →
      (action.run storage scope).1 = .ok value → post value writes) :
    Ensures base action writes post := by
  intro storage scope opens
  have same : (action.run storage scope).2.tx = { scope.tx with writes } := by
    rw [stays, ← opens.writes]
  exact ⟨writes, same, fun value => holds storage scope value opens⟩

theorem pure {value : α} {post : α → Writes → Prop} (holds : post value writes) :
    Ensures base (Pure.pure value) writes post := by
  apply of_stays
  · exact fun _ _ => rfl
  · rintro _ _ _ _ ⟨⟩
    exact holds

theorem throw {error : Error} {post : α → Writes → Prop} : Ensures base (throw error) writes post := by
  apply of_stays
  · exact fun _ _ => rfl
  · rintro _ _ _ _ ⟨⟩

theorem lift {outcome : Except Error α} {post : α → Writes → Prop}
    (holds : ∀ value, outcome = .ok value → post value writes) :
    Ensures base (liftM outcome) writes post := by
  apply of_stays
  · exact fun _ _ => rfl
  · exact fun _ _ value _ => holds value

theorem bind {action : Scoped α} {next : α → Scoped β} {post : β → Writes → Prop}
    (ensures : Ensures base action writes fun value written => Ensures base (next value) written post) :
    Ensures base (action >>= next) writes post := by
  intro storage scope opens
  obtain ⟨written, stays, ensures⟩ := ensures storage scope opens
  cases ran : action.run storage scope with
  | mk outcome between =>
    rw [ran] at stays ensures
    cases outcome with
    | error error =>
      rw [run_bind_error ran]
      exact ⟨written, stays, fun _ failed => by cases failed⟩
    | ok value =>
      rw [run_bind_ok ran]
      obtain ⟨last, stays', holds⟩ := ensures value rfl storage between (opens.of_tx stays)
      have same : ((next value).run storage between).2.tx = { scope.tx with writes := last } := by
        rw [stays', stays]
      exact ⟨last, same, holds⟩

theorem map {action : Scoped α} {f : α → β} {post : β → Writes → Prop}
    (ensures : Ensures base action writes fun value written => post (f value) written) :
    Ensures base (f <$> action) writes post := by
  rw [map_eq_pure_bind]
  exact bind (ensures.mono fun _ _ holds => pure holds)

-- Interrupts and faults can only stop it.
theorem check {post : Unit → Writes → Prop} (holds : post () writes) :
    Ensures base Scoped.check writes post := by
  apply of_stays
  · exact fun _ _ => rfl
  · exact fun _ _ _ _ _ => holds

theorem attempt {call : Call} {post : Unit → Writes → Prop} (holds : post () writes) :
    Ensures base (Scoped.attempt call) writes post := by
  apply of_stays
  · exact fun _ _ => rfl
  · exact fun _ _ _ _ _ => holds

theorem look {next : Storage → Scope → Scoped α} {post : α → Writes → Prop}
    (ensures : ∀ storage scope, Opens storage scope base writes →
      Ensures base (next storage scope) writes post) :
    Ensures base (read >>= fun storage => get >>= fun scope => next storage scope) writes post :=
  fun storage scope opens => ensures storage scope opens storage scope opens

theorem update {change : Transaction → Except Error Transaction} {key : Bytes} {value : Option Bytes}
    (changes : ∀ tx, change tx = tx.write key value) {post : Unit → Writes → Prop}
    (holds : post () (writes.insert key value)) :
    Ensures base (Scoped.update change) writes post := by
  intro storage scope opens
  rw [opens.run_update changes]
  exact ⟨_, rfl, fun _ _ => holds⟩

theorem fetch {key : Bytes} {post : Option Bytes → Writes → Prop}
    (holds : post (base.write writes key) writes) : Ensures base (Scoped.fetch key) writes post := by
  refine bind (check (bind (attempt (look fun storage scope opens => lift fun value got => ?_))))
  rw [Transaction.get_of_open opens.unfinished, Transaction.reads, opens.snapshot, opens.writes] at got
  cases got
  exact holds

theorem find? [Record α] {key : Bytes} {post : Option α → Writes → Prop}
    (absent : base.write writes key = none → post none writes)
    (present : ∀ bytes value, base.write writes key = some bytes → Record.decode bytes = .ok value →
      post (some value) writes) :
    Ensures base (Scoped.find? α key) writes post := by
  refine bind (fetch ?_)
  cases held : base.write writes key with
  | none => exact pure (absent held)
  | some bytes => exact map (lift fun value decoded => present bytes value held decoded)

theorem find [Record α] {key : Bytes} {post : α → Writes → Prop}
    (present : ∀ bytes value, base.write writes key = some bytes → Record.decode bytes = .ok value →
      post value writes) :
    Ensures base (Scoped.find α key) writes post := by
  refine bind (find? (fun _ => throw) fun bytes value held decoded => ?_)
  exact pure (present bytes value held decoded)

theorem put [Record α] {key : Bytes} {value : α} {post : Unit → Writes → Prop}
    (holds : post () (writes.insert key (some (Record.encode value)))) :
    Ensures base (Scoped.put key value) writes post :=
  bind (check (bind (attempt (update (fun _ => rfl) holds))))

theorem delete {key : Bytes} {post : Unit → Writes → Prop} (holds : post () (writes.insert key none)) :
    Ensures base (Scoped.delete key) writes post :=
  bind (check (bind (attempt (update (fun _ => rfl) holds))))

theorem visibleCount_le {post : Nat → Writes → Prop}
    (holds : ∀ count, (base.write writes).AtMost count → post count writes) :
    Ensures base Scoped.visibleCount writes post := by
  refine look fun storage scope opens => pure (holds _ fun keys distinct seen => ?_)
  let entries := (scope.tx.view storage.store).entries
  have listed : keys ⊆ entries.map Prod.fst := by
    intro key member
    obtain ⟨value, held⟩ := Option.isSome_iff_exists.1 (seen key member)
    rw [← opens.snapshot, ← opens.writes] at held
    have found : (key, value) ∈ entries :=
      (Table.mem_entries_iff _ key value).2 ((scope.tx.find?_view storage.store key).trans held)
    exact List.mem_map_of_mem found
  have bound := (distinct.subperm listed).length_le
  rwa [List.length_map] at bound

theorem visibleCount {post : Nat → Writes → Prop} (holds : ∀ count, post count writes) :
    Ensures base Scoped.visibleCount writes post :=
  visibleCount_le fun count _ => holds count

theorem gather {scanned : Bytes} {pairs : List (Bytes × Bytes)}
    {post : List (Bytes × Bytes) → Writes → Prop}
    (holds : post (pairs.takeWhile fun pair => scanned.isPrefixOf pair.1) writes) :
    Ensures base (Scoped.gather scanned pairs) writes post := by
  induction pairs generalizing post with
  | nil => exact pure holds
  | cons pair rest ih =>
    obtain ⟨key, value⟩ := pair
    rw [List.takeWhile_cons] at holds
    refine bind (check ?_)
    split
    · rename_i begins
      rw [if_pos begins] at holds
      exact bind (attempt (bind (ih (pure holds))))
    · rename_i begins
      rw [if_neg begins] at holds
      exact pure holds

theorem scan_exact {scanned : Bytes} {post : List (Bytes × Bytes) → Writes → Prop}
    (holds : ∀ pairs, Table.Ascending pairs →
      (∀ key value, (key, value) ∈ pairs ↔
        base.write writes key = some value ∧ scanned.isPrefixOf key = true) → post pairs writes) :
    Ensures base (Scoped.scan scanned) writes post := by
  refine bind (check (bind (attempt (look fun storage scope opens => ?_))))
  refine bind (lift fun pairs answered => gather ?_)
  obtain ⟨listed, same, listing⟩ :=
    Transaction.iterate_listing opens.unfinished storage.store scanned scanned.above? storage.loose
  rw [answered] at same
  cases same
  rw [Transaction.reads, opens.snapshot, opens.writes] at listing
  exact holds _ listing.gathers.ascending listing.gathers.members

theorem scan {scanned : Bytes} {post : List (Bytes × Bytes) → Writes → Prop}
    (holds : ∀ pairs, Table.Ascending pairs →
      (∀ pair ∈ pairs, base.write writes pair.1 = some pair.2 ∧
        scanned.isPrefixOf pair.1 = true) → post pairs writes) :
    Ensures base (Scoped.scan scanned) writes post :=
  scan_exact fun pairs ascending members =>
    holds pairs ascending fun pair member => (members pair.1 pair.2).1 member

end Ensures

end Scoped

end FsMeta

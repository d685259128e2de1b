import FsMeta.Proofs.Stored

set_option autoImplicit false

namespace FsMeta

def Error.Refusal (error : Error) : Prop := error.kind = .notFound ∨ error.kind = .invalidArgument

theorem Error.not_refusal {error : Error} (kind : error.kind = .internal ∨ error.kind = .cancelled) :
    ¬ error.Refusal := by
  rintro (absent | invalid) <;> simp_all

theorem Record.not_refusal {α : Type} [Record α] {bytes : Bytes} {error : Error}
    (damaged : (decode bytes : Except Error α) = .error error) : ¬ error.Refusal := by
  rw [decode] at damaged
  split at damaged
  · cases damaged
  · cases damaged
    exact Error.not_refusal (.inl rfl)

namespace Scoped

variable {α β : Type} {base : Contents} {writes : Writes}

def Spends (action : Scoped α) (storage : Storage) (scope : Scope) : Prop :=
  (action.run storage scope).2.schedule.errors ⊆ scope.schedule.errors

structure Reads (action : Scoped α) : Prop where
  stays : ∀ storage scope, (action.run storage scope).2.tx = scope.tx
  spends : ∀ storage scope, Spends action storage scope

structure Firm (base : Contents) (action : Scoped α) (writes : Writes) (post : α → Writes → Prop) : Prop where
  ensures : Ensures base action writes post
  spends : ∀ storage scope, Opens storage scope base writes → Spends action storage scope
  accepted : ∀ storage scope, Opens storage scope base writes →
    ∀ error, (action.run storage scope).1 = .error error → error.Refusal → error ∈ scope.schedule.errors

def Spares (base : Contents) (action : Scoped α) (writes : Writes) : Prop :=
  ∀ storage scope, Opens storage scope base writes →
    ∀ error, (action.run storage scope).1 = .error error → error.Refusal → error ∉ scope.schedule.errors →
      (action.run storage scope).2.tx = scope.tx

theorem Spends.bind {action : Scoped α} {next : α → Scoped β} {storage : Storage} {scope : Scope}
    (spends : Spends action storage scope)
    (continues : ∀ value between, action.run storage scope = (.ok value, between) →
      Spends (next value) storage between) :
    Spends (action >>= next) storage scope := by
  rw [Spends] at spends ⊢
  rcases ran : action.run storage scope with ⟨_ | value, between⟩ <;> rw [ran] at spends
  · rw [run_bind_error ran]
    exact spends
  · rw [run_bind_ok ran]
    exact List.Subset.trans (continues value between ran) spends

namespace Reads

theorem of_same {action : Scoped α} (same : ∀ storage scope, (action.run storage scope).2 = scope) : Reads action where
  stays storage scope := congrArg Scope.tx (same storage scope)
  spends storage scope := by rw [Spends, same]; exact List.Subset.refl _

theorem pure (value : α) : Reads (Pure.pure value) := of_same fun _ _ => rfl

theorem throw (error : Error) : Reads (throw error : Scoped α) := of_same fun _ _ => rfl

theorem lift (outcome : Except Error α) : Reads (liftM outcome) := of_same fun _ _ => rfl

theorem bind {action : Scoped α} {next : α → Scoped β} (reads : Reads action)
    (continues : ∀ value, Reads (next value)) : Reads (action >>= next) where
  stays := by
    intro storage scope
    have stays := reads.stays storage scope
    rcases ran : action.run storage scope with ⟨_ | value, between⟩ <;> rw [ran] at stays
    · rw [run_bind_error ran]
      exact stays
    · rw [run_bind_ok ran, (continues value).stays storage between]
      exact stays
  spends storage scope :=
    (reads.spends storage scope).bind fun value between _ => (continues value).spends storage between

theorem map {action : Scoped α} {f : α → β} (reads : Reads action) : Reads (f <$> action) := by
  rw [map_eq_pure_bind]
  exact bind reads fun _ => pure _

theorem check : Reads Scoped.check where
  stays _ _ := rfl
  spends _ _ := List.Subset.refl _

theorem attempt (call : Call) : Reads (Scoped.attempt call) where
  stays _ _ := rfl
  spends _ scope := scope.schedule.errors_attempt call

theorem look {next : Storage → Scope → Scoped α} (reads : ∀ storage scope, Reads (next storage scope)) :
    Reads (read >>= fun storage => get >>= fun scope => next storage scope) where
  stays storage scope := (reads storage scope).stays storage scope
  spends storage scope := (reads storage scope).spends storage scope

theorem fetch (key : Bytes) : Reads (Scoped.fetch key) :=
  bind check fun _ => bind (attempt .get) fun _ => look fun _ _ => lift _

theorem find? (α : Type) [Record α] (key : Bytes) : Reads (Scoped.find? α key) := by
  refine bind (fetch key) fun found => ?_
  cases found with
  | none => exact pure _
  | some bytes => exact map (lift _)

theorem find (α : Type) [Record α] (key : Bytes) : Reads (Scoped.find α key) := by
  refine bind (find? α key) fun found => ?_
  cases found with
  | none => exact throw _
  | some value => exact pure _

theorem visibleCount : Reads Scoped.visibleCount := look fun _ _ => pure _

theorem gather (scanned : Bytes) (pairs : List (Bytes × Bytes)) : Reads (Scoped.gather scanned pairs) := by
  induction pairs with
  | nil => exact pure _
  | cons pair rest ih =>
    refine bind check fun _ => ?_
    split
    · exact bind (attempt .next) fun _ => bind ih fun _ => pure _
    · exact pure _

theorem scan (scanned : Bytes) : Reads (Scoped.scan scanned) :=
  bind check fun _ => bind (attempt .iterate) fun _ => look fun _ _ => bind (lift _) fun _ => gather _ _

theorem mapM {f : α → Scoped β} (reads : ∀ element, Reads (f element)) (elements : List α) :
    Reads (elements.mapM f) := by
  induction elements with
  | nil => exact pure _
  | cons first rest ih =>
    rw [List.mapM_cons]
    exact bind (reads first) fun _ => bind ih fun _ => pure _

end Reads

namespace Firm

theorem mono {action : Scoped α} {post weaker : α → Writes → Prop} (firm : Firm base action writes post)
    (weaken : ∀ value written, post value written → weaker value written) : Firm base action writes weaker :=
  ⟨firm.ensures.mono weaken, firm.spends, firm.accepted⟩

theorem pure {value : α} {post : α → Writes → Prop} (holds : post value writes) :
    Firm base (Pure.pure value) writes post where
  ensures := .pure holds
  spends storage scope _ := (Reads.pure value).spends storage scope
  accepted := by
    rintro _ _ _ _ ⟨⟩

theorem lift {outcome : Except Error α} {post : α → Writes → Prop}
    (accepted : ∀ error, outcome = .error error → ¬ error.Refusal)
    (holds : ∀ value, outcome = .ok value → post value writes) : Firm base (liftM outcome) writes post where
  ensures := .lift holds
  spends storage scope _ := (Reads.lift outcome).spends storage scope
  accepted _ _ _ error failed refusal := absurd refusal (accepted error failed)

theorem bind {action : Scoped α} {next : α → Scoped β} {post : β → Writes → Prop}
    (firm : Firm base action writes fun value written => Firm base (next value) written post) :
    Firm base (action >>= next) writes post where
  ensures := .bind (firm.ensures.mono fun _ _ next => next.ensures)
  spends := by
    intro storage scope opens
    obtain ⟨written, stays, holds⟩ := firm.ensures storage scope opens
    refine (firm.spends storage scope opens).bind fun value between ran => ?_
    rw [ran] at stays
    exact (holds value (by rw [ran])).spends storage between (opens.of_tx stays)
  accepted := by
    intro storage scope opens error failed refusal
    obtain ⟨written, stays, holds⟩ := firm.ensures storage scope opens
    have accepted := firm.accepted storage scope opens
    have spends := firm.spends storage scope opens
    rw [Spends] at spends
    rcases ran : action.run storage scope with ⟨_ | value, between⟩
    · rw [run_bind_error ran] at failed
      cases failed
      exact accepted _ (by rw [ran]) refusal
    · rw [run_bind_ok ran] at failed
      rw [ran] at stays spends
      exact spends ((holds value (by rw [ran])).accepted storage between (opens.of_tx stays) error failed refusal)

theorem map {action : Scoped α} {f : α → β} {post : β → Writes → Prop}
    (firm : Firm base action writes fun value written => post (f value) written) :
    Firm base (f <$> action) writes post := by
  rw [map_eq_pure_bind]
  exact bind (firm.mono fun _ _ holds => pure holds)

theorem check {post : Unit → Writes → Prop} (holds : post () writes) : Firm base Scoped.check writes post where
  ensures := .check holds
  spends storage scope _ := Reads.check.spends storage scope
  accepted _ _ _ _ stopped refusal := absurd refusal (Error.not_refusal (.inr (Interrupts.kind_of_state stopped)))

theorem attempt {call : Call} {post : Unit → Writes → Prop} (holds : post () writes) :
    Firm base (Scoped.attempt call) writes post where
  ensures := .attempt holds
  spends storage scope _ := (Reads.attempt call).spends storage scope
  accepted := by
    intro storage scope _ error failed _
    have failed : (scope.schedule.attempt call).1 = .error error := failed
    rcases scope.schedule.attempt_cases call with passed | ⟨fault, scheduled, given⟩
    · cases passed.symm.trans failed
    · cases given.symm.trans failed
      exact scheduled

theorem look {next : Storage → Scope → Scoped α} {post : α → Writes → Prop}
    (firm : ∀ storage scope, Opens storage scope base writes → Firm base (next storage scope) writes post) :
    Firm base (read >>= fun storage => get >>= fun scope => next storage scope) writes post where
  ensures := .look fun storage scope opens => (firm storage scope opens).ensures
  spends storage scope opens := (firm storage scope opens).spends storage scope opens
  accepted storage scope opens := (firm storage scope opens).accepted storage scope opens

theorem update {change : Transaction → Except Error Transaction} {key : Bytes} {value : Option Bytes}
    (changes : ∀ tx, change tx = tx.write key value) {post : Unit → Writes → Prop}
    (holds : post () (writes.insert key value)) : Firm base (Scoped.update change) writes post where
  ensures := .update changes holds
  spends := by
    intro storage scope opens
    rw [Spends, opens.run_update changes]
    exact List.Subset.refl _
  accepted := by
    intro storage scope opens error failed
    rw [opens.run_update changes] at failed
    cases failed

theorem fetch {key : Bytes} {post : Option Bytes → Writes → Prop} (holds : post (base.write writes key) writes) :
    Firm base (Scoped.fetch key) writes post := by
  refine bind (check (bind (attempt (look fun storage scope opens =>
    lift (fun error failed => ?_) fun value got => ?_))))
  all_goals rw [Transaction.get_of_open opens.unfinished, Transaction.reads, opens.snapshot, opens.writes] at *
  · cases failed
  · cases got
    exact holds

theorem find? [Record α] {key : Key} {post : Option α → Writes → Prop}
    (absent : base.write writes key.bytes = none → post none writes)
    (present : ∀ value, (base.write writes).Holds key value → post (some value) writes) :
    Firm base (Scoped.find? α key.bytes) writes post := by
  refine bind (fetch ?_)
  cases held : base.write writes key.bytes with
  | none => exact pure (absent held)
  | some bytes =>
    exact map (lift (fun _ => Record.not_refusal) fun value decoded => present value ⟨bytes, held, decoded⟩)

theorem put [Record α] {key : Bytes} {value : α} {post : Unit → Writes → Prop}
    (holds : post () (writes.insert key (some (Record.encode value)))) :
    Firm base (Scoped.put key value) writes post :=
  bind (check (bind (attempt (update (fun _ => rfl) holds))))

theorem delete {key : Bytes} {post : Unit → Writes → Prop} (holds : post () (writes.insert key none)) :
    Firm base (Scoped.delete key) writes post :=
  bind (check (bind (attempt (update (fun _ => rfl) holds))))

theorem gather {scanned : Bytes} {pairs : List (Bytes × Bytes)} {post : List (Bytes × Bytes) → Writes → Prop}
    (holds : post (pairs.takeWhile fun pair => scanned.isPrefixOf pair.1) writes) :
    Firm base (Scoped.gather scanned pairs) writes post := by
  induction pairs generalizing post with
  | nil => exact pure holds
  | cons pair rest ih =>
    obtain ⟨key, value⟩ := pair
    rw [List.takeWhile_cons] at holds
    refine bind (check ?_)
    split
    · rename_i begins
      rw [if_pos begins] at holds
      exact bind (attempt (bind (ih (pure holds))))
    · rename_i begins
      rw [if_neg begins] at holds
      exact pure holds

theorem scan {scanned : Bytes} {post : List (Bytes × Bytes) → Writes → Prop} (holds : ∀ pairs, post pairs writes) :
    Firm base (Scoped.scan scanned) writes post := by
  refine bind (check (bind (attempt (look fun storage scope opens => bind (lift (fun error failed => ?_) ?_)))))
  · obtain ⟨_, listed, _⟩ :=
      Transaction.iterate_listing opens.unfinished storage.store scanned scanned.above? storage.loose
    rw [listed] at failed
    cases failed
  · exact fun _ _ => gather (holds _)

end Firm

namespace Spares

theorem of_reads {action : Scoped α} (reads : Reads action) : Spares base action writes :=
  fun storage scope _ _ _ _ _ => reads.stays storage scope

theorem of_firm {action : Scoped α} (firm : Firm base action writes fun _ _ => True) :
    Spares base action writes :=
  fun storage scope opens error failed refusal own => absurd (firm.accepted storage scope opens error failed refusal) own

theorem bind {action : Scoped α} {next : α → Scoped β} (reads : Reads action)
    (ensures : Ensures base action writes fun value later => later = writes → Spares base (next value) writes) :
    Spares base (action >>= next) writes := by
  intro storage scope opens error failed refusal own
  have stays := reads.stays storage scope
  have spends := reads.spends storage scope
  obtain ⟨written, same, holds⟩ := ensures storage scope opens
  rw [Spends] at spends
  rcases ran : action.run storage scope with ⟨_ | value, between⟩ <;> rw [ran] at stays same spends
  · rw [run_bind_error ran] at failed ⊢
    exact stays
  · have later : written = writes := by
      rw [← opens.writes]
      exact congrArg Transaction.writes (same.symm.trans stays)
    rw [run_bind_ok ran] at failed ⊢
    have spares := holds value (by rw [ran]) later
    have elsewhere : error ∉ between.schedule.errors := fun scheduled => own (spends scheduled)
    exact (spares storage between (opens.of_tx (later ▸ same)) error failed refusal elsewhere).trans stays

theorem behind {action : Scoped α} {next : α → Scoped β} (reads : Reads action)
    (continues : ∀ value, Spares base (next value) writes) : Spares base (action >>= next) writes :=
  bind reads (.of_stays reads.stays fun _ _ value _ _ _ => continues value)

theorem bind_firm {action : Scoped α} {next : α → Scoped β}
    (firm : Firm base action writes fun value later => later = writes ∧ Spares base (next value) writes) :
    Spares base (action >>= next) writes := by
  intro storage scope opens error failed refusal own
  obtain ⟨written, same, holds⟩ := firm.ensures storage scope opens
  have accepted := firm.accepted storage scope opens
  have spends := firm.spends storage scope opens
  rw [Spends] at spends
  rcases ran : action.run storage scope with ⟨_ | value, between⟩ <;> rw [ran] at same spends
  · rw [run_bind_error ran] at failed
    cases failed
    exact absurd (accepted _ (by rw [ran]) refusal) own
  · obtain ⟨rfl, spares⟩ := holds value (by rw [ran])
    rw [run_bind_ok ran] at failed ⊢
    have stays : between.tx = scope.tx := same.trans (by rw [← opens.writes])
    have elsewhere : error ∉ between.schedule.errors := fun scheduled => own (spends scheduled)
    exact (spares storage between (opens.of_tx same) error failed refusal elsewhere).trans stays

theorem require {outcome : Except Error α} {next : α → Scoped β}
    (met : ∀ value, outcome = .ok value → Spares base (next value) writes) :
    Spares base (liftM outcome >>= next) writes :=
  bind (.lift outcome) (.lift fun value known _ => met value known)

theorem fail (error : Error) (next : α → Scoped β) : Spares base (MonadExcept.throw error >>= next) writes :=
  bind (.throw error) .throw

theorem find? [Record α] {key : Key} {next : Option α → Scoped β}
    (absent : base.write writes key.bytes = none → Spares base (next none) writes)
    (present : ∀ value, (base.write writes).Holds key value → Spares base (next (some value)) writes) :
    Spares base (Scoped.find? α key.bytes >>= next) writes :=
  bind (.find? α key.bytes) (ensures_find? (fun missing _ => absent missing) fun value held _ => present value held)

theorem find [Record α] {key : Key} {next : α → Scoped β}
    (present : ∀ value, (base.write writes).Holds key value → Spares base (next value) writes) :
    Spares base (Scoped.find α key.bytes >>= next) writes :=
  bind (.find α key.bytes) (ensures_find fun value held _ => present value held)

theorem map {action : Scoped α} {f : α → β} (spares : Spares base action writes) :
    Spares base (action >>= fun value => Pure.pure (f value)) writes := by
  intro storage scope opens error failed refusal own
  have stays := spares storage scope opens
  rcases ran : action.run storage scope with ⟨_ | value, between⟩ <;> rw [ran] at stays
  · rw [run_bind_error ran] at failed ⊢
    cases failed
    exact stays _ rfl refusal own
  · rw [run_bind_ok ran] at failed
    cases failed

end Spares

end Scoped

end FsMeta

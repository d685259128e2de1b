import FsMeta.Proofs.Store.Faithful

set_option autoImplicit false

namespace FsMeta

namespace Contents

def operate (contents : Contents) : Journal.Operation → Contents
  | .put key value => fun other => if other = key then some value else contents other
  | .delete key => fun other => if other = key then none else contents other

def replay (entries : List Journal.Entry) : Contents :=
  (entries.flatMap Journal.Entry.operations).foldl operate empty

@[simp] theorem replay_nil : replay [] = empty := rfl

theorem replay_append (entries more : List Journal.Entry) :
    replay (entries ++ more) =
      (more.flatMap Journal.Entry.operations).foldl operate (replay entries) := by
  rw [replay, replay, List.flatMap_append, List.foldl_append]

end Contents

namespace Store

def Bounded (clock : UInt64) (history : Table (List Version)) : Prop :=
  ∀ key versions, history.find? key = some versions →
    ∀ version ∈ versions, version.commitTime ≤ clock

theorem Bounded.mono {clock later : UInt64} {history : Table (List Version)}
    (bounded : Bounded clock history) (forward : clock ≤ later) : Bounded later history :=
  fun key versions found version member =>
    UInt64.le_trans (bounded key versions found version member) forward

theorem Bounded.replayEntry {clock : UInt64} {history : Table (List Version)}
    (bounded : Bounded clock history) (entry : Journal.Entry) (reached : entry.commitTime ≤ clock) :
    Bounded clock (Store.replayEntry history entry) := by
  rw [Store.replayEntry]
  induction entry.operations generalizing history with
  | nil => exact bounded
  | cons operation rest ih =>
    refine ih fun key versions found => ?_
    cases operation with
    | put other value =>
      rw [replayOperation, Table.find?_insert] at found
      split at found
      · cases found
        simpa using reached
      · exact bounded key versions found
    | delete other =>
      rw [replayOperation, Table.find?_erase] at found
      split at found
      · cases found
      · exact bounded key versions found

theorem le_max (a b : UInt64) : a ≤ max a b ∧ b ≤ max a b := by
  change a ≤ (if a ≤ b then b else a) ∧ b ≤ (if a ≤ b then b else a)
  split
  · rename_i ordered
    exact ⟨ordered, UInt64.le_refl b⟩
  · rename_i reversed
    exact ⟨UInt64.le_refl a, UInt64.le_of_lt (UInt64.not_le.1 reversed)⟩

theorem bounded_foldl {clock : UInt64} {history : Table (List Version)}
    (bounded : Bounded clock history) (entries : List Journal.Entry) :
    Bounded (entries.foldl (fun clock entry => max clock entry.commitTime) clock)
      (entries.foldl Store.replayEntry history) := by
  induction entries generalizing clock history with
  | nil => exact bounded
  | cons entry rest ih =>
    have reached : entry.commitTime ≤ max clock entry.commitTime := (le_max clock _).2
    have forward : clock ≤ max clock entry.commitTime := (le_max clock _).1
    exact ih ((bounded.mono forward).replayEntry entry reached)

def Shows (time : UInt64) (history : Table (List Version)) (contents : Contents) : Prop :=
  ∀ key, Version.valueAt time ((history.find? key).getD []) = contents key

theorem Shows.replayEntry {time : UInt64} {history : Table (List Version)} {contents : Contents}
    (shows : Shows time history contents) (entry : Journal.Entry) (past : entry.commitTime ≤ time) :
    Shows time (Store.replayEntry history entry)
      (entry.operations.foldl Contents.operate contents) := by
  rw [Store.replayEntry]
  induction entry.operations generalizing history contents with
  | nil => exact shows
  | cons operation rest ih =>
    refine ih fun key => ?_
    cases operation with
    | put other value =>
      rw [replayOperation, Table.find?_insert, Contents.operate]
      by_cases same : key = other
      · simp [same, Version.valueAt_cons, past]
      · simp [same, shows key]
    | delete other =>
      rw [replayOperation, Table.find?_erase, Contents.operate]
      by_cases same : key = other
      · simp [same, Version.valueAt]
      · simp [same, shows key]

theorem shows_foldl {time : UInt64} {history : Table (List Version)} {contents : Contents}
    (shows : Shows time history contents) (entries : List Journal.Entry)
    (past : ∀ entry ∈ entries, entry.commitTime ≤ time) :
    Shows time (entries.foldl Store.replayEntry history)
      ((entries.flatMap Journal.Entry.operations).foldl Contents.operate contents) := by
  induction entries generalizing history contents with
  | nil => exact shows
  | cons entry rest ih =>
    rw [List.flatMap_cons, List.foldl_append]
    have first := shows.replayEntry entry (past entry List.mem_cons_self)
    exact ih first fun later member => past later (List.mem_cons_of_mem _ member)

theorem le_foldl_max (clock : UInt64) (entries : List Journal.Entry) :
    clock ≤ entries.foldl (fun clock entry => max clock entry.commitTime) clock := by
  induction entries generalizing clock with
  | nil => exact UInt64.le_refl clock
  | cons entry rest ih => exact UInt64.le_trans (le_max clock _).1 (ih _)

theorem commitTime_le_foldl_max (clock : UInt64) {entries : List Journal.Entry}
    {entry : Journal.Entry} (member : entry ∈ entries) :
    entry.commitTime ≤ entries.foldl (fun clock entry => max clock entry.commitTime) clock := by
  induction entries generalizing clock with
  | nil => simp at member
  | cons first rest ih =>
    rcases List.mem_cons.1 member with rfl | member
    · exact UInt64.le_trans (le_max clock _).2 (le_foldl_max _ rest)
    · exact ih _ member

-- After a replay every version is in the past, so all readers to come see the same.
theorem bounded_ofEntries (entries : List Journal.Entry) :
    Bounded (ofEntries entries).clock (ofEntries entries).history :=
  bounded_foldl (fun key versions found => by simp at found) entries

theorem readAt_ofEntries (entries : List Journal.Entry) {time : UInt64}
    (reached : (ofEntries entries).clock ≤ time) :
    (ofEntries entries).readAt time = Contents.replay entries := by
  have past (entry : Journal.Entry) (member : entry ∈ entries) : entry.commitTime ≤ time :=
    UInt64.le_trans (commitTime_le_foldl_max 0 member) reached
  have empty : Shows time Table.empty Contents.empty := fun key => rfl
  exact funext (shows_foldl empty entries past)

theorem serves_ofEntries (entries : List Journal.Entry) {time : UInt64}
    (reached : (ofEntries entries).clock ≤ time) :
    Serves (Contents.replay entries) (ofEntries entries) [] time 0 := by
  constructor
  · intro key
    simp [readAt_ofEntries entries reached]
  · intro key
    simp only [List.drop_nil, List.not_mem_nil, false_and, exists_false, iff_false,
      Version.overtakes, versions]
    cases found : (ofEntries entries).history.find? key with
    | none => simp
    | some versions =>
      cases versions with
      | nil => simp
      | cons version older =>
        have early := bounded_ofEntries entries key _ found version List.mem_cons_self
        simpa using UInt64.le_trans early reached

end Store

end FsMeta

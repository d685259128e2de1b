import FsMeta.Proofs.Record.INode
import Mathlib.Data.List.Forall2

set_option autoImplicit false

namespace FsMeta

theorem exists_ok_of_bind {ε α β : Type} {outcome : Except ε α} {next : α → Except ε β} {value : β}
    (done : (outcome >>= next) = .ok value) : ∃ found, outcome = .ok found ∧ next found = .ok value := by
  cases outcome with
  | error error => cases done
  | ok found => exact ⟨found, rfl, done⟩

theorem map_eq_ok_iff {ε α β : Type} {outcome : Except ε α} {f : α → β} {value : β} :
    outcome.map f = .ok value ↔ ∃ found, outcome = .ok found ∧ value = f found := by
  cases outcome with
  | error error => simp [Except.map]
  | ok found => simp [Except.map, eq_comm]

section

variable {ε α β : Type} {f : α → Except ε β} {elements : List α} {values : List β}

theorem mapM_eq_ok_iff :
    elements.mapM f = .ok values ↔ List.Forall₂ (fun element value => f element = .ok value) elements values := by
  induction elements generalizing values with
  | nil => cases values <;> simp [pure, Except.pure]
  | cons first rest ih =>
    rw [List.mapM_cons]
    constructor
    · intro done
      obtain ⟨head, here, done⟩ := exists_ok_of_bind done
      obtain ⟨others, listed, same⟩ := exists_ok_of_bind done
      cases same
      exact .cons here (ih.1 listed)
    · rintro (_ | ⟨here, others⟩)
      rw [here, ih.2 others]
      rfl

theorem exists_of_mem_mapM (done : elements.mapM f = .ok values) {value : β} (member : value ∈ values) :
    ∃ element ∈ elements, f element = .ok value := by
  induction mapM_eq_ok_iff.1 done with
  | nil => cases member
  | cons here others ih =>
    rcases List.mem_cons.1 member with rfl | member
    · exact ⟨_, List.mem_cons_self, here⟩
    · obtain ⟨element, among, known⟩ := ih (mapM_eq_ok_iff.2 others) member
      exact ⟨element, List.mem_cons_of_mem _ among, known⟩

theorem mem_of_mapM (done : elements.mapM f = .ok values) {element : α} (member : element ∈ elements) {value : β}
    (known : f element = .ok value) : value ∈ values := by
  induction mapM_eq_ok_iff.1 done with
  | nil => cases member
  | cons here others ih =>
    rcases List.mem_cons.1 member with rfl | member
    · cases known.symm.trans here
      exact List.mem_cons_self
    · exact List.mem_cons_of_mem _ (ih (mapM_eq_ok_iff.2 others) member)

theorem exists_mapM_iff :
    (∃ values, elements.mapM f = .ok values) ↔ ∀ element ∈ elements, ∃ value, f element = .ok value := by
  constructor
  · rintro ⟨values, done⟩
    induction mapM_eq_ok_iff.1 done with
    | nil => simp
    | cons here others ih => exact List.forall_mem_cons.2 ⟨⟨_, here⟩, ih (mapM_eq_ok_iff.2 others)⟩
  · intro each
    induction elements with
    | nil => exact ⟨[], rfl⟩
    | cons first rest ih =>
      obtain ⟨⟨value, here⟩, others⟩ := List.forall_mem_cons.1 each
      obtain ⟨values, listed⟩ := ih others
      exact ⟨value :: values, mapM_eq_ok_iff.2 (.cons here (mapM_eq_ok_iff.1 listed))⟩

end

namespace Layout

variable {α β : Type}

def Gives (layout : Layout α) (holds : α → Prop) : Prop :=
  ∀ bytes a rest, layout.take bytes = .ok (a, rest) → holds a

namespace Gives

theorem anything (layout : Layout α) : layout.Gives fun _ => True := fun _ _ _ _ => trivial

theorem mono {layout : Layout α} {holds weaker : α → Prop} (gives : layout.Gives holds)
    (weaken : ∀ a, holds a → weaker a) : layout.Gives weaker :=
  fun bytes a rest taken => weaken a (gives bytes a rest taken)

theorem read {layout : Layout α} {holds : α → Prop} (gives : layout.Gives holds) {bytes : Bytes} {a : α}
    (done : layout.read bytes = .ok a) : holds a := by
  rw [Layout.read, map_eq_pure_bind] at done
  obtain ⟨⟨found, rest⟩, taken, same⟩ := exists_ok_of_bind done
  cases same
  exact gives bytes found rest taken

theorem iso {layout : Layout α} {back : α → β} {forth : β → α} {holds : β → Prop}
    (gives : layout.Gives fun a => holds (back a)) : (layout.iso back forth).Gives holds := by
  intro bytes b rest done
  obtain ⟨⟨a, more⟩, taken, same⟩ := exists_ok_of_bind done
  cases same
  exact gives bytes a rest taken

theorem pair {first : Layout α} {second : Layout β} {left : α → Prop} {right : β → Prop}
    (one : first.Gives left) (two : second.Gives right) :
    (first.pair second).Gives fun p => left p.1 ∧ right p.2 := by
  intro bytes p rest done
  obtain ⟨⟨a, more⟩, taken, done⟩ := exists_ok_of_bind done
  obtain ⟨⟨b, last⟩, next, same⟩ := exists_ok_of_bind done
  cases same
  exact ⟨one bytes a more taken, two more b rest next⟩

end Gives

theorem gives_text : text.Gives fun content => (Utf8.encode content).length < UInt64.size := by
  intro bytes content rest done
  obtain ⟨⟨count, more⟩, _, done⟩ := exists_ok_of_bind done
  have small : count.toNat < UInt64.size := count.toNat_lt
  dsimp only at done
  split at done
  · cases done
  · cases decoded : Utf8.decode (more.splitAt count.toNat).1 with
    | error fault =>
      rw [decoded] at done
      cases done
    | ok content =>
      rw [decoded] at done
      cases done
      rw [Utf8.encode_of_decode decoded, List.splitAt_eq, List.length_take]
      omega

theorem gives_takeMany {layout : Layout α} {holds : α → Prop} (gives : layout.Gives holds) {count : Nat}
    {bytes rest : Bytes} {elements : List α} (done : takeMany layout count bytes = .ok (elements, rest)) :
    ∀ element ∈ elements, holds element := by
  induction count generalizing bytes elements with
  | zero =>
    cases done
    simp
  | succ count ih =>
    obtain ⟨⟨first, more⟩, taken, done⟩ := exists_ok_of_bind done
    obtain ⟨⟨others, last⟩, next, same⟩ := exists_ok_of_bind done
    cases same
    rw [List.forall_mem_cons]
    exact ⟨gives bytes first more taken, ih next⟩

theorem gives_list {layout : Layout α} {holds : α → Prop} (gives : layout.Gives holds) :
    (list layout).Gives fun elements => ∀ element ∈ elements, holds element := by
  intro bytes elements rest done
  obtain ⟨_, _, done⟩ := exists_ok_of_bind done
  exact gives_takeMany gives done

theorem gives_inode : inode.Gives INode.Sized := by
  have number := Gives.anything int64
  have kind := Gives.anything inodeKind
  have fields := number.pair <| gives_text.pair <| number.pair <| number.pair <| number.pair <|
    number.pair <| kind.pair <| number.pair <| gives_text.pair gives_text
  refine Gives.iso (fields.mono ?_)
  rintro ⟨_, _, _, _, _, _, _, _, _, _⟩ ⟨_, name, _, _, _, _, _, _, clientName, clientMachine⟩
  exact ⟨name, clientName, clientMachine⟩

end Layout

namespace Record

theorem gives_of_decode {α : Type} [Record α] {holds : α → Prop}
    (gives : (Record.layout (α := α)).Gives holds) {bytes : Bytes} {value : α}
    (decoded : decode bytes = .ok value) : holds value := by
  rw [decode] at decoded
  split at decoded
  · rename_i found read
    cases decoded
    exact gives.read read
  · cases decoded

theorem sized_of_decode {bytes : Bytes} {node : INode} (decoded : decode bytes = .ok node) : node.Sized :=
  gives_of_decode Layout.gives_inode decoded

end Record

end FsMeta

import FsMeta.Proofs.Key
import FsMeta.Proofs.Scope

set_option autoImplicit false

namespace FsMeta

def Writes.Extended (allowed : Bytes → Option Bytes → Prop) (writes later : Writes) : Prop :=
  ∀ key, later.find? key = writes.find? key ∨
    ∃ value, later.find? key = some value ∧ allowed key value

namespace Writes.Extended

variable {allowed more : Bytes → Option Bytes → Prop} {writes between later : Writes}

theorem refl (allowed : Bytes → Option Bytes → Prop) (writes : Writes) : writes.Extended allowed writes :=
  fun _ => .inl rfl

theorem trans (one : writes.Extended allowed between) (two : between.Extended allowed later) :
    writes.Extended allowed later := by
  intro key
  rcases two key with same | changed
  · rw [same]
    exact one key
  · exact .inr changed

theorem mono (extended : writes.Extended allowed later) (less : ∀ key value, allowed key value → more key value) :
    writes.Extended more later := by
  intro key
  rcases extended key with same | ⟨value, written, known⟩
  · exact .inl same
  · exact .inr ⟨value, written, less key value known⟩

theorem insert {key : Bytes} {value : Option Bytes} (known : allowed key value) (writes : Writes) :
    writes.Extended allowed (Table.insert writes key value) := by
  intro other
  rw [Table.find?_insert]
  split
  · rename_i same
    exact .inr ⟨value, rfl, same ▸ known⟩
  · exact .inl rfl

theorem write (extended : writes.Extended allowed later) (contents : Contents) (key : Bytes) :
    contents.write later key = contents.write writes key ∨ allowed key (contents.write later key) := by
  rcases extended key with same | ⟨value, written, known⟩
  · left
    rw [Contents.write_apply, Contents.write_apply, same]
  · right
    rwa [Contents.write_apply, written]

theorem write_of_never (extended : writes.Extended allowed later) (contents : Contents) {key : Bytes}
    (never : ∀ value, ¬ allowed key value) : contents.write later key = contents.write writes key :=
  (extended.write contents key).resolve_right (never _)

end Writes.Extended

namespace Scoped

variable {α β : Type} {allowed more : Bytes → Option Bytes → Prop}

def Confined (action : Scoped α) : Prop :=
  ∀ base writes, Ensures base action writes fun _ _ => True

def Only (allowed : Bytes → Option Bytes → Prop) (action : Scoped α) : Prop :=
  ∀ base writes, Ensures base action writes fun _ later => writes.Extended allowed later

namespace Only

theorem mono {action : Scoped α} (only : Only allowed action)
    (less : ∀ key value, allowed key value → more key value) : Only more action :=
  fun base writes => (only base writes).mono fun _ _ extended => extended.mono less

theorem pure (value : α) : Only allowed (Pure.pure value) := fun _ _ => .pure (.refl _ _)

theorem throw (error : Error) : Only allowed (throw error : Scoped α) := fun _ _ => .throw

theorem lift (outcome : Except Error α) : Only allowed (liftM outcome : Scoped α) :=
  fun _ _ => .lift fun _ _ => .refl _ _

theorem bind {action : Scoped α} {next : α → Scoped β} (only : Only allowed action)
    (continues : ∀ value, Only allowed (next value)) : Only allowed (action >>= next) :=
  fun base writes => .bind ((only base writes).mono fun value between extended =>
    (continues value base between).mono fun _ _ further => extended.trans further)

theorem require {outcome : Except Error α} {next : α → Scoped β}
    (continues : ∀ value, outcome = .ok value → Only allowed (next value)) :
    Only allowed (liftM outcome >>= next) :=
  fun base writes => .bind (.lift fun value met => continues value met base writes)

theorem fail (error : Error) (next : α → Scoped β) : Only allowed (MonadExcept.throw error >>= next) :=
  fun _ _ => .bind .throw

theorem map {action : Scoped α} {f : α → β} (only : Only allowed action) : Only allowed (f <$> action) :=
  fun base writes => .map (only base writes)

theorem find? (α : Type) [Record α] (key : Bytes) : Only allowed (Scoped.find? α key) :=
  fun _ _ => .find? (fun _ => .refl _ _) fun _ _ _ _ => .refl _ _

theorem find (α : Type) [Record α] (key : Bytes) : Only allowed (Scoped.find α key) :=
  fun _ _ => .find fun _ _ _ _ => .refl _ _

theorem put [Record α] {key : Bytes} {value : α} (known : allowed key (some (Record.encode value))) :
    Only allowed (Scoped.put key value) :=
  fun _ _ => .put (.insert known _)

theorem delete {key : Bytes} (known : allowed key none) : Only allowed (Scoped.delete key) :=
  fun _ _ => .delete (.insert known _)

theorem scan (scanned : Bytes) : Only allowed (Scoped.scan scanned) :=
  fun _ _ => .scan fun _ _ _ => .refl _ _

theorem visibleCount : Only allowed Scoped.visibleCount := fun _ _ => .visibleCount fun _ => .refl _ _

theorem forM {step : α → Scoped PUnit} {elements : List α}
    (only : ∀ element ∈ elements, Only allowed (step element)) : Only allowed (elements.forM step) := by
  induction elements with
  | nil => exact pure _
  | cons element rest ih =>
    obtain ⟨first, others⟩ := List.forall_mem_cons.1 only
    exact bind first fun _ => ih others

theorem mapM {step : α → Scoped β} (elements : List α) (only : ∀ element, Only allowed (step element)) :
    Only allowed (elements.mapM step) := by
  induction elements with
  | nil => exact pure _
  | cons element rest ih =>
    rw [List.mapM_cons]
    exact bind (only element) fun _ => bind ih fun _ => pure _

theorem foldlM {step : β → α → Scoped β} (elements : List α)
    (only : ∀ state element, Only allowed (step state element)) (state : β) :
    Only allowed (elements.foldlM step state) := by
  induction elements generalizing state with
  | nil => exact pure _
  | cons element rest ih => exact bind (only state element) ih

end Only

end Scoped

-- Everything below is about keys of one of two sorts: those of the tree, and those of blocks.
def Key.OnTree : Key → Prop
  | inode _ | child _ _ => True
  | blockMeta _ | blockStorage _ | fileBlock _ _ => False

def OffTree (key : Bytes) (_ : Option Bytes) : Prop := ∃ known : Key, known.bytes = key ∧ ¬ known.OnTree

def OnTree (key : Bytes) (_ : Option Bytes) : Prop := ∃ known : Key, known.bytes = key ∧ known.OnTree

def Numbering (key : Bytes) (value : Option Bytes) : Prop :=
  ∀ id, key = (Key.inode id).bytes → value.isSome → 0 < id

def Planting (key : Bytes) (value : Option Bytes) : Prop := OnTree key value ∧ Numbering key value

def Deleting (_ : Bytes) (value : Option Bytes) : Prop := value = none

def Discarding (key : Bytes) (value : Option Bytes) : Prop := OffTree key value ∧ Deleting key value

def Unlinking (key : Bytes) (value : Option Bytes) : Prop :=
  (∃ parent name, (Key.child parent name).bytes = key) ∧ Deleting key value

def Anything (_ : Bytes) (_ : Option Bytes) : Prop := True

def Nothing (_ : Bytes) (_ : Option Bytes) : Prop := False

theorem OnTree.inode (id : Int64) (value : Option Bytes) : OnTree (Key.inode id).bytes value :=
  ⟨.inode id, rfl, trivial⟩

theorem OnTree.child (parent : Int64) (name : String) (value : Option Bytes) :
    OnTree (Key.child parent name).bytes value := ⟨.child parent name, rfl, trivial⟩

theorem Deleting.numbering {key : Bytes} {value : Option Bytes} (deleting : Deleting key value) :
    Numbering key value := by
  intro _ _ held
  rw [deleting] at held
  cases held

theorem Planting.inode {id : Int64} (positive : 0 < id) (value : Option Bytes) :
    Planting (Key.inode id).bytes value := by
  refine ⟨.inode id value, fun other same _ => ?_⟩
  cases Key.bytes_injective same
  exact positive

theorem Planting.child (parent : Int64) (name : String) (value : Option Bytes) :
    Planting (Key.child parent name).bytes value := by
  refine ⟨.child parent name value, fun other same _ => ?_⟩
  cases Key.bytes_injective same

theorem Unlinking.planting {key : Bytes} {value : Option Bytes} (unlinking : Unlinking key value) :
    Planting key value := by
  obtain ⟨⟨parent, name, rfl⟩, _⟩ := unlinking
  exact .child parent name value

variable {allowed : Bytes → Option Bytes → Prop}

namespace Scoped.Only

variable {α : Type} {action : Scoped α}

theorem offTree (only : Only Discarding action) : Only OffTree action := only.mono fun _ _ => And.left

theorem deleting (only : Only Discarding action) : Only Deleting action := only.mono fun _ _ => And.right

theorem anything (only : Only allowed action) : Only Anything action := only.mono fun _ _ _ => trivial

theorem confined (only : Only Anything action) : Confined action :=
  fun base writes => (only base writes).mono fun _ _ _ => trivial

theorem reads (only : Only Nothing action) (base : Contents) (writes : Writes) :
    Ensures base action writes fun _ later => later = writes := by
  refine (only base writes).mono fun _ later extended => Table.eq_of_find?_eq fun key => ?_
  rcases extended key with same | ⟨_, _, never⟩
  · exact same
  · cases never

end Scoped.Only

end FsMeta

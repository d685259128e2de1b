import FsMeta.Proofs.Tree.Refusing

set_option autoImplicit false

namespace FsMeta

inductive Mutation where
  | create (node : INode)
  | reparent (id source destination : Int64)
  | deleteChild (parent : Int64) (name : String)
  | deleteFile (id : Int64)
  | deleteDirectory (id : Int64)
  | upsert (file block : Int64) (info : BlockMeta) (replicas : BlockStorage)
  | deleteBlock (file block : Int64)
  | truncate (file size : Int64)
  | replace (file : Int64) (blocks : List Block)

namespace Mutation

open Scoped (Calm Opens Spares Yields)

variable {base : Contents} {writes : Writes}

def perform : Mutation → Scoped Unit
  | create node => Tree.create node
  | reparent id source destination => Tree.reparent id source destination
  | deleteChild parent name => Tree.deleteChild parent name
  | deleteFile id => Tree.deleteFile id
  | deleteDirectory id => do
    let _ ← Tree.deleteDirectory id
  | upsert file block info replicas => do
    let _ ← Chain.upsert file block info replicas
  | deleteBlock file block => Chain.delete file block
  | truncate file size => Chain.truncate file size
  | replace file blocks => Chain.replace file blocks

def Late (contents : Contents) : Mutation → Prop
  | create node => contents.Displaces node
  | replace file blocks => Chain.Faulty file blocks
  | _ => False

def Undoes (before after : Contents) : Mutation → Prop
  | create node => before.Without after (before.Stale node)
  | replace file blocks => Chain.Interrupted before after file blocks
  | _ => False

theorem spares (owned : (base.write writes).Owned) {mutation : Mutation} (early : ¬ mutation.Late (base.write writes)) :
    Spares base mutation.perform writes := by
  cases mutation with
  | create node => exact Tree.spares_create owned early
  | reparent id source destination => exact Tree.spares_reparent id source destination
  | deleteChild parent name => exact Tree.spares_deleteChild parent name
  | deleteFile id => exact Tree.spares_deleteFile id
  | deleteDirectory id => exact (Tree.spares_deleteDirectory owned id).map
  | upsert file block info replicas => exact (Chain.spares_upsert file block info replicas).map
  | deleteBlock file block => exact Chain.spares_delete file block
  | truncate file size => exact Chain.spares_truncate file size
  | replace file blocks => exact Chain.spares_replace early

theorem Late.yields (legible : (base.write writes).Legible) {mutation : Mutation}
    (late : mutation.Late (base.write writes)) :
    Yields base mutation.perform writes fun result later =>
      (∃ error, result = .error error ∧ error.kind = .invalidArgument) ∧
        mutation.Undoes (base.write writes) (base.write later) := by
  cases mutation with
  | create node => exact Tree.yields_create_displaced legible late
  | replace file blocks => exact Chain.Faulty.yields late (legible.chains file)
  | _ => exact late.elim

/-- An inode that is given a name that is taken has lost its link, and a file that is given a block that is not valid
has lost its chain and got the blocks in front of that one. -/
theorem refused_spares {storage : Storage} {scope : Scope} (opens : Opens storage scope base writes)
    (owned : (base.write writes).Owned) (mutation : Mutation) :
    let ended := mutation.perform.run storage scope
    (¬ mutation.Late (base.write writes) →
      ∀ error, ended.1 = .error error → error.Refusal → error ∉ scope.schedule.errors →
        ended.2.tx = scope.tx) ∧
    (mutation.Late (base.write writes) → (base.write writes).Legible → Calm scope →
      (∃ error, ended.1 = .error error ∧ error.kind = .invalidArgument) ∧
        ∃ later, ended.2.tx = { scope.tx with writes := later } ∧
          mutation.Undoes (base.write writes) (base.write later)) := by
  intro ended
  refine ⟨fun early => spares owned early storage scope opens, fun late legible calm => ?_⟩
  obtain ⟨later, stays, refused, undoes⟩ := late.yields legible storage scope opens calm
  exact ⟨refused, later, congrArg Scope.tx stays, undoes⟩

def cluttered : List (Key × Bytes) :=
  [(.inode 2, Record.encode (Tree.directory 2 1 "a")), (.child 1 "a", Record.encode (ChildLink.mk 2)),
    (.inode 3, Record.encode (Tree.directory 3 1 "b")), (.child 1 "b", Record.encode (ChildLink.mk 3)),
    (.fileBlock 5 0, Record.encode (FileBlock.mk 10 4 0)),
    (.blockMeta 10, Record.encode { id := 10, numberBytes := 4 : BlockMeta }),
    (.blockStorage 10, Record.encode { id := 10, nodes := [] : BlockStorage })]

theorem legible_cluttered : (Engine.holding cluttered).storage.store.committed.Legible := by
  have sound : ∀ record ∈ cluttered, Contents.Sound record.1.bytes record.2 := by
    simp only [cluttered, List.forall_mem_cons, List.not_mem_nil, false_imp_iff, implies_true, and_true]
    refine ⟨?_, .link _ _ _ rfl rfl, ?_, .link _ _ _ rfl rfl, .entry _ _ _ rfl rfl, .block _ (.inl rfl),
      .block _ (.inr rfl)⟩
    · exact .inode 2 _ rfl rfl ⟨rfl, by decide, rfl, Tree.sized_directory (by decide)⟩ (by decide)
    · exact .inode 3 _ rfl rfl ⟨rfl, by decide, rfl, Tree.sized_directory (by decide)⟩ (by decide)
  refine Contents.legible_of_sound fun place bytes held => ?_
  obtain ⟨key, member, rfl⟩ := Engine.exists_of_holding held
  exact sound _ member

def opened : Scope :=
  { tx := (Transaction.begin (Engine.holding cluttered).storage.store).1, interrupts := .never }

-- A directory is no file, and so it stays. Under the name of the other one it cannot be written, and is cut off.
theorem refused_spares_cluttered :
    let storage := (Engine.holding cluttered).storage
    ((deleteFile 2).perform.run storage opened).2.tx = opened.tx ∧
      ∃ later, ((create (Tree.directory 2 1 "b")).perform.run storage opened).2.tx =
          { opened.tx with writes := later } ∧
        storage.store.committed.Without (storage.store.committed.write later)
          (storage.store.committed.Stale (Tree.directory 2 1 "b")) := by
  intro storage
  have opens : Opens storage opened storage.store.committed .empty := ⟨rfl, rfl, rfl⟩
  have whole : storage.store.committed.write .empty = storage.store.committed := Contents.write_empty _
  have spares := refused_spares opens (whole.symm ▸ legible_cluttered.owned)
  rw [whole] at spares
  refine ⟨(spares (deleteFile 2)).1 id (.invalid "inode 2 is a directory") (by decide +kernel) (.inr rfl)
    List.not_mem_nil, ?_⟩
  have held : storage.store.committed.Holds (.inode 2) (Tree.directory 2 1 "a") :=
    Tree.holds_directory (by decide) (by decide +kernel)
  have linked (name : String) (id : Int64)
      (stored : storage.store.committed (Key.child 1 name).bytes = some (Record.encode (ChildLink.mk id))) :
      storage.store.committed.Holds (.child 1 name) (ChildLink.mk id) := ⟨_, stored, Record.decode_encode_link _⟩
  have late : (create (Tree.directory 2 1 "b")).Late storage.store.committed := by
    refine ⟨by decide, fun existing again => by rw [again.unique held]; rfl, ?_, ?_⟩
    · exact ⟨_, _, held, rfl, .inr (by decide), linked "a" 2 (by decide +kernel)⟩
    · have other := linked "b" 3 (by decide +kernel)
      rintro (absent | own)
      · exact Contents.not_holds_of_absent absent _ other
      · exact absurd (congrArg ChildLink.id (other.unique own)) (by decide)
  obtain ⟨_, later, stays, without⟩ :=
    (spares (create (Tree.directory 2 1 "b"))).2 late legible_cluttered ⟨rfl, rfl⟩
  exact ⟨later, stays, without⟩

-- What was linked and listed before is not seen any more, although both calls were refused.
theorem undone_cluttered :
    let storage := (Engine.holding cluttered).storage
    let created := (create (Tree.directory 2 1 "b")).perform.run storage opened
    let replaced :=
      (replace 5 [{ id := 11, numberBytes := 7 }, { id := 12, numberBytes := -1 }]).perform.run storage opened
    storage.store.committed.Legible ∧
      created.1 = .error (.invalid "\"b\" in directory 1 is already linked to inode 3") ∧
      opened.tx.get storage.store (Key.child 1 "a").bytes = .ok (some (Record.encode (ChildLink.mk 2))) ∧
      created.2.tx.get storage.store (Key.child 1 "a").bytes = .ok none ∧
      replaced.1 = .error (.invalid "block 12 fields must not be negative") ∧
      opened.tx.get storage.store (Key.fileBlock 5 0).bytes = .ok (some (Record.encode (FileBlock.mk 10 4 0))) ∧
      replaced.2.tx.get storage.store (Key.fileBlock 5 0).bytes =
        .ok (some (Record.encode (FileBlock.mk 11 7 12))) := by
  intro storage created replaced
  refine ⟨legible_cluttered, ?_, ?_, ?_, ?_, ?_, ?_⟩ <;> decide +kernel

end Mutation

end FsMeta

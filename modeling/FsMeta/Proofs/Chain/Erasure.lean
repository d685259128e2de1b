import FsMeta.Proofs.Chain.Edits
import FsMeta.Proofs.Chain.Within
import FsMeta.Proofs.Remaining
import FsMeta.Proofs.Yielding

set_option autoImplicit false

namespace FsMeta

namespace Contents

variable {contents earlier later : Contents} {writes : Writes} {file : Int64} {goes : Bytes → Prop}

def Chained (contents : Contents) (file : Int64) : Prop :=
  ∀ key bytes, contents key = some bytes → (Key.fileBlocks file).isPrefixOf key = true →
    ∃ (index : UInt64) (entry : FileBlock), key = (Key.fileBlock file index).bytes ∧
      Record.decode bytes = .ok entry

def OfChain (contents : Contents) (file : Int64) (key : Bytes) : Prop :=
  (Key.fileBlocks file).isPrefixOf key = true ∨
    ∃ block, contents.Names file block ∧ (key = (Key.blockMeta block).bytes ∨ key = (Key.blockStorage block).bytes)

theorem names_iff (chained : contents.Chained file) {block : Int64} : contents.Names file block ↔
    ∃ (index : UInt64) (entry : FileBlock), contents.Holds (.fileBlock file index) entry ∧ entry.blockId = block := by
  constructor
  · rintro ⟨key, bytes, entry, begins, held, decoded, same⟩
    obtain ⟨index, _, rfl, _⟩ := chained key bytes held begins
    exact ⟨index, entry, ⟨bytes, held, decoded⟩, same⟩
  · rintro ⟨index, entry, ⟨bytes, held, decoded⟩, same⟩
    exact ⟨_, bytes, entry, (Key.fileBlock file index).begins, held, decoded, same⟩

theorem without_apply (contents : Contents) (writes : Writes) {edits : List (Key × Option Bytes)}
    (deletes : ∀ edit ∈ edits, edit.2 = none) :
    (contents.write writes).Without (contents.write (writes.apply edits)) fun key =>
      ∃ edit ∈ edits, edit.1.bytes = key where
  gone := by
    rintro _ ⟨⟨key, value⟩, member, rfl⟩
    obtain rfl : value = none := deletes _ member
    have written : (writes.apply edits).find? key.bytes = some none :=
      Writes.find?_apply_of_mem member fun other also => deletes _ also
    rw [write_apply, written]
    rfl
  kept := by
    intro key absent
    have unwritten : (writes.apply edits).find? key = writes.find? key :=
      Writes.find?_apply_of_not_mem fun edit member same => absent ⟨edit, member, same⟩
    rw [write_apply, write_apply, unwritten]

end Contents

namespace Chain

open Scoped (Yields)

variable {base : Contents} {writes : Writes} {file : Int64} {found : List ChainEntry}

theorem entryOfPair_eq {index : UInt64} {entry : FileBlock} {bytes : Bytes}
    (decoded : Record.decode bytes = .ok entry) :
    entryOfPair file ((Key.fileBlock file index).bytes, bytes) = .ok { index, entry } := by
  rw [entryOfPair, Key.fileBlockIndex_bytes, decoded]
  rfl

theorem yields_entries (positive : 0 < file) (chained : (base.write writes).Chained file) :
    Yields base (entries file) writes fun result later => later = writes ∧ ∃ found, result = .ok found ∧
      ∀ entry, entry ∈ found ↔ (base.write writes).Holds (.fileBlock file entry.index) entry.entry := by
  refine .demand (demands_requirePositive _ file) (fun _ low => absurd positive low) fun _ => ?_
  refine .bind (.scan fun pairs _ members => .lift ⟨rfl, ?_⟩)
  have known {key bytes : Bytes} (member : (key, bytes) ∈ pairs) : ∃ (index : UInt64) (entry : FileBlock),
      key = (Key.fileBlock file index).bytes ∧ Record.decode bytes = .ok entry := by
    obtain ⟨held, begins⟩ := (members key bytes).1 member
    exact chained key bytes held begins
  obtain ⟨found, listed⟩ : ∃ found, pairs.mapM (entryOfPair file) = .ok found := by
    refine exists_mapM_iff.2 fun ⟨key, bytes⟩ member => ?_
    obtain ⟨index, entry, rfl, decoded⟩ := known member
    exact ⟨_, entryOfPair_eq decoded⟩
  refine ⟨found, listed, fun ⟨index, entry⟩ => ?_⟩
  constructor
  · intro member
    obtain ⟨⟨key, bytes⟩, among, read⟩ := exists_of_mem_mapM listed member
    obtain ⟨place, stored, rfl, decoded⟩ := known among
    rw [entryOfPair_eq decoded] at read
    cases read
    exact ⟨bytes, ((members _ _).1 among).1, decoded⟩
  · rintro ⟨bytes, held, decoded⟩
    exact mem_of_mapM listed ((members _ _).2 ⟨held, (Key.fileBlock file index).begins⟩) (entryOfPair_eq decoded)

theorem yields_removeAll (found : List ChainEntry) {post : Except Error PUnit → Writes → Prop}
    (holds : post (.ok ⟨⟩) (writes.apply (removals file found))) :
    Yields base (found.forM (remove file)) writes post := by
  induction found generalizing writes with
  | nil => exact .pure holds
  | cons entry rest ih => exact .bind (.bind (.delete (.bind (.delete (.delete (ih holds))))))

theorem yields_deleteAll (positive : 0 < file) (chained : (base.write writes).Chained file) :
    Yields base (deleteAll file) writes fun result later => (∃ count, result = .ok count) ∧
      (base.write writes).Without (base.write later) ((base.write writes).OfChain file) := by
  refine .bind ((yields_entries positive chained).mono ?_)
  rintro _ _ ⟨rfl, found, rfl, members⟩
  refine .bind (yields_removeAll found (.pure ⟨⟨_, rfl⟩, ?_⟩))
  have deletes : ∀ edit ∈ removals file found, edit.2 = none := fun edit member => (mem_removals.1 member).1
  refine (Contents.without_apply base _ deletes).congr fun key stored => ?_
  constructor
  · rintro ⟨⟨known, value⟩, member, rfl⟩
    obtain ⟨_, entry, listed, rfl | rfl | rfl⟩ := mem_removals.1 member
    · exact .inl (Key.fileBlock file _).begins
    · exact .inr ⟨_, (Contents.names_iff chained).2 ⟨_, _, (members entry).1 listed, rfl⟩, .inl rfl⟩
    · exact .inr ⟨_, (Contents.names_iff chained).2 ⟨_, _, (members entry).1 listed, rfl⟩, .inr rfl⟩
  · have listed {index : UInt64} {entry : FileBlock} (held : Contents.Holds _ (.fileBlock file index) entry) :
        { index, entry } ∈ found := (members { index, entry }).2 held
    rintro (begins | ⟨block, names, same⟩)
    · obtain ⟨bytes, held⟩ := Option.isSome_iff_exists.1 stored
      obtain ⟨index, entry, rfl, decoded⟩ := chained key bytes held begins
      exact ⟨_, mem_removals.2 ⟨rfl, _, listed ⟨bytes, held, decoded⟩, .inl rfl⟩, rfl⟩
    · obtain ⟨index, entry, held, rfl⟩ := (Contents.names_iff chained).1 names
      rcases same with rfl | rfl
      · exact ⟨_, mem_removals.2 ⟨rfl, _, listed held, .inr (.inl rfl)⟩, rfl⟩
      · exact ⟨_, mem_removals.2 ⟨rfl, _, listed held, .inr (.inr rfl)⟩, rfl⟩

end Chain

end FsMeta

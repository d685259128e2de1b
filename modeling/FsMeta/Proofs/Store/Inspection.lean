import FsMeta.Proofs.Store.Opening

set_option autoImplicit false

namespace FsMeta

open Journal

namespace Disk

variable {disk : Disk} {index : Nat} {frames : List Frame} {tail : Bytes}

theorem readStore_joined (unreadable : Unreadable tail) (place : disk.place = .directory (.file index))
    (content : disk.file index = .regular (joined frames ++ tail)) (path : String) :
    disk.readStore path = .ok (Store.ofEntries (frames.map Frame.entry)) := by
  have named : disk.journal? = .ok (.file index) := by
    rw [journal?, place]
  have present : disk.hasJournal = true := by
    rw [hasJournal, named]
    rfl
  have source : disk.source = .ok (.bytes (joined frames ++ tail)) := by
    rw [Disk.source, named]
    simp only [content]
    rfl
  have read := good_entries_joined frames unreadable
  simp only [readStore, present, if_true, source, bind, Except.bind, read]
  rfl

theorem readStore_agrees {content : Bytes} (place : disk.place = .directory (.file index))
    (file : disk.file index = .regular content) (policy : SyncPolicy) (path : String) :
    ∃ reader server later, disk.readStore path = .ok reader ∧
      disk.openStore policy = (.ok (index, server), later) ∧
      (Orderly content → reader.clock = server.clock ∧ ∀ key,
        (Transaction.begin reader).1.get (Transaction.begin reader).2 key =
          (Transaction.begin server).1.get (Transaction.begin server).2 key) := by
  obtain ⟨frames, tail, rfl, unreadable⟩ := exists_joined_unreadable content
  obtain ⟨kept, more, rfl, ascending, stops⟩ := exists_ascending_append 0 frames
  have split : joined (kept ++ more) ++ tail = joined kept ++ (joined more ++ tail) := by
    rw [joined_append, List.append_assoc]
  have opens := openStore_joined ascending (stops tail unreadable) place (split ▸ file) policy
  refine ⟨_, _, _, readStore_joined unreadable place file path, opens, fun orderly => ?_⟩
  have whole : Ascending 0 (kept ++ more) := orderly _ (List.prefix_append _ _)
  have nothing : more = [] := by
    have longest : kept ++ more <+: kept := by
      apply isPrefix_of_ascending (stops tail unreadable) whole
      rw [← split]
      exact List.prefix_append _ _
    have length := longest.length_le
    rw [List.length_append] at length
    exact List.length_eq_zero_iff.1 (by omega)
  subst nothing
  rw [List.append_nil]
  refine ⟨rfl, fun key => ?_⟩
  rw [Transaction.get_begin, Transaction.get_begin]
  rfl

def inspected (content : Bytes) : Disk := { place := .directory (.file 0), files := [.regular content] }

def first : Entry := ⟨5, 10, 0, [.put [97] [49]]⟩

theorem readStore_agrees_torn :
    let second : Entry := ⟨6, 20, 0, [.put [98] [50]]⟩
    let disk := inspected (first.image ++ second.image.take 20)
    ∃ reader server later, disk.readStore "journal" = .ok reader ∧
      disk.openStore .everyWrite = (.ok (0, server), later) ∧ reader.clock = server.clock := by
  intro second disk
  have fits (entry : Entry) (small : entry.body.length < 100) : entry.Fits :=
    Nat.le_of_lt (Nat.lt_trans small (by decide))
  have firstFits : first.Fits := fits first (by decide +kernel)
  have secondFits : second.Fits := fits second (by decide +kernel)
  let frame := Frame.ofEntry first firstFits
  have ascending : Ascending 0 [frame] := by
    simp [frame, Frame.ofEntry, first]
  have orderly : Orderly (first.image ++ second.image.take 20) := by
    have torn : Unreadable (second.image.take 20) := (second.framed secondFits).torn 20 (by decide +kernel)
    have joins : joined [frame] = first.image := List.append_nil _
    exact joins ▸ orderly_joined ascending torn
  have place : disk.place = .directory (.file 0) := rfl
  have file : disk.file 0 = .regular (first.image ++ second.image.take 20) := rfl
  obtain ⟨reader, server, later, read, opens, agree⟩ := readStore_agrees place file .everyWrite "journal"
  exact ⟨reader, server, later, read, opens, (agree orderly).1⟩

/-- Two frames of one number: who only reads finds the second one too. -/
theorem readStore_disagrees_repeated :
    let second : Entry := ⟨5, 20, 0, [.put [98] [50]]⟩
    let disk := inspected (first.image ++ second.image)
    let shown := fun store : Store =>
      (store.clock, ((Transaction.begin store).1.get (Transaction.begin store).2 [98]).toOption)
    (disk.readStore "journal").toOption.map shown = some (20, some (some [50])) ∧
      (disk.openStore .everyWrite).1.toOption.map (fun opened => shown opened.2) =
        some (10, some none) := by
  decide +kernel

end Disk

end FsMeta

import FsMeta.Disk
import FsMeta.Proofs.Journal.Recovery
import FsMeta.Proofs.Store.Replay

set_option autoImplicit false

namespace FsMeta.Disk

open Journal

def Loads (bytes : Bytes) (contents : Contents) : Prop :=
  ∀ (disk : Disk) (index : Nat) (policy : SyncPolicy), disk.place = .directory (.file index) →
    disk.file index = .regular bytes →
    ∃ store later, disk.openStore policy = (.ok (index, store), later) ∧ ∀ key,
      (Transaction.begin store).1.get (Transaction.begin store).2 key = .ok (contents key)

theorem openStore_absent (files : List File) (policy : SyncPolicy) :
    openStore { place := .directory .absent, files } policy =
      (.ok (files.length,
          { Store.ofEntries [] with journal := some (.ofMedium policy { file := emptyFile }) }),
        { place := .directory (.file files.length), files := files ++ [emptyFile] }) := by
  let made : Disk := { place := .directory (.file files.length), files := files ++ [emptyFile] }
  have empty : made.file files.length = emptyFile := by
    simp [made, file]
  have logged : ({ place := .directory .absent, files } : Disk).openLog policy =
      .ok (files.length, .ofMedium policy { file := made.file files.length }, made) := rfl
  rw [empty] at logged
  have fresh : ({ place := .directory .absent, files } : Disk).hasJournal = false := rfl
  simp only [openStore, makeDirectory, fresh, Bool.false_eq_true, if_false, logged]
  rfl

theorem file_setFile {disk : Disk} {index : Nat} {front rest : Bytes}
    (content : disk.file index = .regular (front ++ rest)) :
    (disk.setFile index (.regular front)).file index = .regular front := by
  by_cases inside : index < disk.files.length
  · simp [file, setFile, inside]
  · have outside : disk.files.length ≤ index := Nat.not_lt.1 inside
    have missing (file : File) : (disk.setFile index file).file index = emptyFile := by
      simp [Disk.file, setFile, List.set_eq_of_length_le outside, List.getElem?_eq_none outside]
    have gone : disk.file index = emptyFile := by
      simp [file, List.getElem?_eq_none outside]
    have empty : [] = front ++ rest := File.regular.inj (gone.symm.trans content)
    rw [missing, emptyFile, (List.append_eq_nil_iff.1 empty.symm).1]

def opened (policy : SyncPolicy) (frames : List Frame) : Store :=
  { Store.ofEntries (frames.map Frame.entry) with
    journal := some (.ofMedium policy { file := .regular (joined frames) }) }

variable {frames : List Frame} {tail : Bytes} {disk : Disk} {index : Nat}

theorem openStore_joined (ascending : Ascending 0 frames) (stops : Stops (topLsn 0 frames) tail)
    (place : disk.place = .directory (.file index))
    (content : disk.file index = .regular (joined frames ++ tail)) (policy : SyncPolicy) :
    disk.openStore policy =
      (.ok (index, opened policy frames), disk.setFile index (.regular (joined frames))) := by
  let cut := disk.setFile index (.regular (joined frames))
  have made : disk.makeDirectory = .ok disk := by
    rw [makeDirectory, place]
  have named : disk.journal? = .ok (.file index) := by
    rw [journal?, place]
  have present : disk.hasJournal = true := by
    rw [hasJournal, named]
    rfl
  have read : disk.recover = .ok (frames.map Frame.entry, .of frames tail, cut) := by
    rw [recover, named]
    simp only [bind, Except.bind, content, recover_joined ascending stops]
    rfl
  have kept : cut.openJournal = .ok (index, cut) := by
    rw [openJournal, show cut.place = _ from place]
  have logged : cut.openLog policy =
      .ok (index, .ofMedium policy { file := .regular (joined frames) }, cut) := by
    rw [openLog, kept]
    simp only [bind, Except.bind, cut, file_setFile content]
    rfl
  simp only [openStore, made, present, if_true, read, logged, opened, cut]

theorem committed_opened (policy : SyncPolicy) (frames : List Frame) :
    (opened policy frames).committed = Contents.replay (frames.map Frame.entry) :=
  Store.readAt_ofEntries _ (UInt64.le_refl _)

theorem loads_stops (ascending : Ascending 0 frames) (stops : Stops (topLsn 0 frames) tail) :
    Loads (joined frames ++ tail) (Contents.replay (frames.map Frame.entry)) := by
  intro disk index policy place content
  refine ⟨_, _, openStore_joined ascending stops place content policy, fun key => ?_⟩
  rw [Transaction.get_begin, committed_opened]

theorem loads_joined (ascending : Ascending 0 frames) (unreadable : Unreadable tail) :
    Loads (joined frames ++ tail) (Contents.replay (frames.map Frame.entry)) :=
  loads_stops ascending (.inl unreadable)

end FsMeta.Disk

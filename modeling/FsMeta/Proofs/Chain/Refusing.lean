import FsMeta.Proofs.Chain.Replacing
import FsMeta.Proofs.Chain.Shortening
import FsMeta.Proofs.Refusing

set_option autoImplicit false

namespace FsMeta

theorem Key.not_refusal {scanned key : Bytes} {error : Error} (failed : fileBlockIndex scanned key = .error error) :
    ¬ error.Refusal := by
  rw [fileBlockIndex] at failed
  split at failed
  · cases failed
    exact Error.not_refusal (.inl rfl)
  · split at failed
    · cases failed
    · cases failed
      rintro (kind | kind) <;> cases kind

theorem exists_error_of_bind {ε α β : Type} {first : Except ε α} {next : α → Except ε β} {error : ε}
    (failed : first >>= next = .error error) :
    first = .error error ∨ ∃ value, first = .ok value ∧ next value = .error error := by
  cases first with
  | error found =>
    cases failed
    exact .inl rfl
  | ok value => exact .inr ⟨value, rfl, failed⟩

namespace Chain

open Scoped (Firm Reads Spares)

variable {base : Contents} {writes : Writes} {file block size : Int64}

theorem not_refusal_of_pair {pair : Bytes × Bytes} {error : Error} (failed : entryOfPair file pair = .error error) :
    ¬ error.Refusal := by
  rcases exists_error_of_bind failed with outside | ⟨index, _, failed⟩
  · exact Key.not_refusal outside
  · rcases exists_error_of_bind failed with damaged | ⟨entry, _, failed⟩
    · exact Record.not_refusal damaged
    · cases failed

theorem not_refusal_of_pairs {pairs : List (Bytes × Bytes)} {error : Error}
    (failed : entriesOfPairs file pairs = .error error) : ¬ error.Refusal := by
  induction pairs with
  | nil => cases failed
  | cons pair rest ih =>
    rw [entriesOfPairs, List.mapM_cons] at failed
    rcases exists_error_of_bind failed with first | ⟨entry, _, failed⟩
    · exact not_refusal_of_pair first
    · rcases exists_error_of_bind failed with later | ⟨others, _, failed⟩
      · exact ih later
      · cases failed

theorem reads_entries (file : Int64) : Reads (entries file) :=
  .bind (.lift _) fun _ => .bind (.scan _) fun _ => .lift _

theorem reads_part (α : Type) [Record α] (file : Int64) (entry : ChainEntry) (name : String) (key : Key) :
    Reads (part α file entry name key) := by
  refine .bind (.find? α key.bytes) fun found => ?_
  cases found with
  | none => exact .throw _
  | some value => exact .pure _

theorem reads_resolved (file : Int64) : Reads (resolved file) :=
  .bind (reads_entries file) fun found => .mapM (fun entry =>
    .bind (reads_part BlockMeta file entry _ _) fun _ => .bind (reads_part BlockStorage file entry _ _) fun _ =>
      .pure _) found

theorem firm_entries (positive : 0 < file) {post : List ChainEntry → Writes → Prop}
    (holds : ∀ found, post found writes) : Firm base (entries file) writes post := by
  have accepted : requirePositive "file id" file = .ok () := (demands_requirePositive _ file).met positive
  rw [entries, accepted]
  exact .bind (.pure (.bind (.scan fun pairs =>
    .lift (fun _ => not_refusal_of_pairs) fun found _ => holds found)))

theorem firm_removeAll {α : Type} (toEntry : α → ChainEntry) (elements : List α) {post : PUnit → Writes → Prop}
    (holds : post ⟨⟩ (writes.apply (removals file (elements.map toEntry)))) :
    Firm base (elements.forM fun element => remove file (toEntry element)) writes post := by
  induction elements generalizing writes with
  | nil => exact .pure holds
  | cons element rest ih => exact .bind (.bind (.delete (.bind (.delete (.delete (ih holds))))))

theorem firm_deleteAll (positive : 0 < file) {post : Nat → Writes → Prop}
    (holds : ∀ count found, post count (writes.apply (removals file found))) :
    Firm base (deleteAll file) writes post := by
  refine .bind (firm_entries positive fun found => .bind (firm_removeAll id found (.pure ?_)))
  rw [List.map_id]
  exact holds _ found

theorem firm_putAll (start : Nat) {blocks : List Block} (counts : ∀ block ∈ blocks, block.info.Counts)
    {post : Unit → Writes → Prop} (holds : ∀ later, post () later) :
    Firm base (putAll file start blocks) writes post := by
  induction blocks generalizing start writes with
  | nil => exact .pure (holds _)
  | cons block rest ih =>
    obtain ⟨here, others⟩ := List.forall_mem_cons.1 counts
    have valid : block.info.validate = .ok () := block.info.demands_validate.met here
    rw [putAll, valid]
    exact .bind (.pure (.bind (.put (.bind (.put (.bind (.put (ih _ others))))))))

theorem spares_delete (file block : Int64) : Spares base (delete file block) writes := by
  refine .require fun _ _ => .behind (reads_entries file) fun found => ?_
  cases found.find? (isFor block) with
  | none => exact .of_reads (.throw _)
  | some entry => exact .of_firm (.bind (.delete (.bind (.delete (.delete trivial)))))

theorem firm_shorten (last : ChainBlock) (residual : Int64) :
    Firm base (shorten file last residual) writes fun _ _ => True := by
  have resizes (writes : Writes) : Firm base (if last.block.numberBytes ≠ residual then
      Scoped.put (Key.blockMeta last.block.id).bytes { last.block.info with numberBytes := residual }
      else pure ()) writes fun _ _ => True := by
    split
    · exact .put trivial
    · exact .pure trivial
  rw [shorten]
  dsimp only
  split
  · exact .bind (.put (resizes _))
  · exact resizes _

theorem spares_truncate (file size : Int64) : Spares base (truncate file size) writes := by
  rw [truncate]
  dsimp only
  split
  · exact .fail _ _
  refine .behind (reads_resolved file) fun chain => ?_
  cases total? 0 chain with
  | none => exact .of_reads (.throw _)
  | some total =>
    dsimp only
    split
    · exact .fail _ _
    split
    · exact .of_firm (firm_removeAll ChainBlock.toChainEntry chain trivial)
    · cases cut? size 0 chain with
      | none => exact .of_reads (.throw _)
      | some cut =>
        exact .of_firm (.bind (firm_removeAll ChainBlock.toChainEntry cut.dropped (firm_shorten _ _)))

theorem firm_relink (predecessor : Option ChainEntry) (block : Int64) {post : PUnit → Writes → Prop}
    (holds : ∀ later, post ⟨⟩ later) : Firm base (predecessor.forM (relink file · block)) writes post := by
  cases predecessor with
  | none => exact .pure (holds _)
  | some entry =>
    change Firm base (relink file entry block) writes post
    rw [relink]
    split
    · exact .pure (holds _)
    · exact .put (holds _)

theorem spares_upsert (file block : Int64) (info : BlockMeta) (replicas : BlockStorage) :
    Spares base (upsert file block info replicas) writes := by
  refine .require fun _ _ => .require fun _ _ => .require fun _ _ => .behind (reads_entries file) fun found => ?_
  refine .of_firm (.bind (firm_relink _ _ fun between => .bind (.put (.bind (.put (.bind ?_))))))
  exact .bind (.find? (fun _ => .put (.pure trivial)) fun _ _ => .put (.pure trivial))

structure Faulty (file : Int64) (blocks : List Block) : Prop where
  positive : 0 < file
  distinct : requireDistinct file [] blocks = .ok ()
  invalid : ∃ block ∈ blocks, ¬ block.info.Counts

theorem spares_replace {blocks : List Block} (sound : ¬ Faulty file blocks) :
    Spares base (replace file blocks) writes := by
  refine .require fun _ distinct => ?_
  by_cases positive : 0 < file
  · have counts : ∀ block ∈ blocks, block.info.Counts := by
      by_contra invalid
      exact sound ⟨positive, distinct, by simpa using invalid⟩
    exact .of_firm (.bind (firm_deleteAll positive fun _ _ => firm_putAll 0 counts fun _ => trivial))
  · rw [deleteAll, entries, bind_assoc, bind_assoc]
    exact .require fun _ accepted => absurd (pos_of_requirePositive accepted) positive

open Scoped (Yields)

variable {blocks : List Block}

/-- The chain that was there is gone, and the blocks in front of the first one that is refused are placed, the last
of them with that one behind it. -/
def Interrupted (before after : Contents) (file : Int64) (blocks : List Block) : Prop :=
  ∃ (good : List Block) (bad : Block) (rest : List Block) (erased : Contents),
    blocks = good ++ bad :: rest ∧ (∀ block ∈ good, block.info.Counts) ∧ ¬ bad.info.Counts ∧
      before.Without erased (before.OfChain file) ∧
      after = ((placements file 0 blocks).take (3 * good.length)).foldl (fun contents edit =>
        contents.put edit.1 edit.2) erased

theorem Contents.write_apply_eq (contents : Contents) (writes : Writes) (edits : List (Key × Option Bytes)) :
    contents.write (writes.apply edits) =
      edits.foldl (fun contents edit => contents.put edit.1 edit.2) (contents.write writes) := by
  induction edits generalizing writes with
  | nil => rfl
  | cons edit rest ih => rw [List.foldl_cons, ← Contents.write_insert, ← ih]; rfl

theorem yields_putAll_faulty (start : Nat) (good : List Block) {bad : Block} (rest : List Block)
    (counts : ∀ block ∈ good, block.info.Counts) (invalid : ¬ bad.info.Counts) :
    Yields base (putAll file start (good ++ bad :: rest)) writes fun result later =>
      (∃ error, result = .error error ∧ error.kind = .invalidArgument) ∧
        later = writes.apply ((placements file start (good ++ bad :: rest)).take (3 * good.length)) := by
  induction good generalizing start writes with
  | nil =>
    exact .demand bad.info.demands_validate (fun error _ kind => ⟨⟨error, rfl, kind⟩, rfl⟩)
      fun holds => absurd holds invalid
  | cons block more ih =>
    obtain ⟨here, others⟩ := List.forall_mem_cons.1 counts
    refine .demand block.info.demands_validate (fun _ low => absurd here low) fun _ => ?_
    refine .bind (.put (.bind (.put (.bind (.put ((ih _ others).mono ?_))))))
    rintro result later ⟨refused, rfl⟩
    exact ⟨refused, by rw [List.length_cons, Nat.mul_succ]; rfl⟩

theorem Faulty.yields (faulty : Faulty file blocks) (chained : (base.write writes).Chained file) :
    Yields base (replace file blocks) writes fun result later =>
      (∃ error, result = .error error ∧ error.kind = .invalidArgument) ∧
        Interrupted (base.write writes) (base.write later) file blocks := by
  obtain ⟨positive, distinct, invalid⟩ := faulty
  obtain ⟨good, bad, rest, rfl, counts, fails⟩ : ∃ good bad rest, blocks = good ++ bad :: rest ∧
      (∀ block ∈ good, block.info.Counts) ∧ ¬ bad.info.Counts := by
    classical
    obtain ⟨bad, found⟩ := Option.isSome_iff_exists.1
      (List.find?_isSome.2 (by simpa using invalid : ∃ block ∈ blocks, decide (¬ block.info.Counts) = true))
    obtain ⟨fails, good, rest, split, passed⟩ := List.find?_eq_some_iff_append.1 found
    exact ⟨good, bad, rest, split, by simpa using passed, by simpa using fails⟩
  rw [replace, distinct]
  refine .bind (.pure (.bind ((yields_deleteAll positive chained).mono ?_)))
  rintro _ between ⟨⟨_, rfl⟩, erased⟩
  refine (yields_putAll_faulty 0 good rest counts fails).mono ?_
  rintro result later ⟨refused, rfl⟩
  exact ⟨refused, good, bad, rest, _, rfl, counts, fails, erased, Contents.write_apply_eq _ _ _⟩

end Chain

end FsMeta

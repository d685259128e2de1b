import FsMeta.Proofs.Key.Decoding
import FsMeta.Proofs.Tree.Numbering
import FsMeta.Proofs.Yielding
import FsMeta.Tree.Listing
import Mathlib.Data.Set.List

set_option autoImplicit false

namespace FsMeta

namespace Tree

open Scoped (Opens Calm run_bind_ok run_bind_error run_lift_bind run_map)

def renamed (name : String) (node : INode) : INode := { node with name }

variable {storage : Storage} {scope : Scope} {base : Contents} {writes : Writes} {parent : Int64} {name : String}

theorem requirePositive_of_pos (field : String) (positive : 0 < parent) : requirePositive field parent = .ok () :=
  (demands_requirePositive field parent).met positive

theorem requireName_of_ne (named : name ≠ "") : requireName name = .ok () := by
  rw [requireName, if_neg (by simpa using named)]

section

variable (opens : Opens storage scope base writes) (calm : Calm scope)
include opens calm

theorem exists_run_linked (parent : Int64) (name : String) (id : Int64) :
    ∃ outcome, (linked parent name id).run storage scope = (outcome, scope) := by
  rcases found : (inode? id).run storage scope with ⟨outcome, later⟩
  have same : later = scope := congrArg Prod.snd (found.symm.trans (opens.run_find? calm _))
  subst same
  rcases outcome with error | _ | node
  · exact ⟨_, run_bind_error found⟩
  · exact ⟨_, run_bind_ok found⟩
  · exact ⟨_, run_bind_ok found⟩

theorem exists_run_child (positive : 0 < parent) (named : name ≠ "") {bytes : Bytes}
    (held : base.write writes (Key.child parent name).bytes = some bytes) (details : Bool) :
    ∃ outcome, (child parent name details).run storage scope = (outcome, scope) ∧
      (listed parent (!details) ((Key.child parent name).bytes, bytes)).run storage scope =
        (outcome.map (renamed name), scope) ∧
      (details = false → outcome = (fun link : ChildLink => placeholder link.id name) <$> Record.decode bytes) := by
  have link : (Scoped.find ChildLink (Key.child parent name).bytes).run storage scope = (Record.decode bytes, scope) :=
    opens.run_find calm held
  have read : Key.childName (Key.children parent) (Key.child parent name).bytes = .ok name :=
    Key.childName_eq_ok_iff.2 ⟨named, rfl⟩
  rw [child, listed, requirePositive_of_pos _ positive, requireName_of_ne named, read]
  simp only [run_lift_bind]
  cases decoded : (Record.decode bytes : Except Error ChildLink) with
  | error error =>
    rw [decoded] at link
    exact ⟨.error error, run_bind_error link, run_bind_error rfl, fun _ => rfl⟩
  | ok value =>
    rw [decoded] at link
    rw [run_bind_ok link, run_lift_bind]
    cases details with
    | false => exact ⟨_, rfl, rfl, fun _ => rfl⟩
    | true =>
      obtain ⟨outcome, found⟩ := exists_run_linked opens calm parent name value.id
      refine ⟨outcome.map INode.summary, ?_, ?_, nofun⟩
      · exact (run_map _ _).trans (by rw [found])
      · refine (run_map (fun node : INode => renamed name node.summary) _).trans ?_
        rw [found]
        cases outcome <;> rfl

theorem run_child_of_holds (positive : 0 < parent) (named : name ≠ "") {id : Int64} {node : INode}
    (link : (base.write writes).Holds (.child parent name) (ChildLink.mk id))
    (inode : (base.write writes).Holds (.inode id) node) :
    (child parent name true).run storage scope = (.ok node.summary, scope) := by
  obtain ⟨bytes, held, decoded⟩ := link
  obtain ⟨record, stored, read⟩ := inode
  have leads := opens.run_find calm held (α := ChildLink)
  rw [decoded] at leads
  have found := opens.run_find? calm (Key.inode id).bytes (α := INode)
  rw [stored, Option.elim_some, read] at found
  rw [child, requirePositive_of_pos _ positive, requireName_of_ne named, run_lift_bind, run_lift_bind,
    run_bind_ok leads]
  refine (run_map _ _).trans ?_
  rw [linked, inode?, run_bind_ok found]
  rfl

theorem exists_run_child_missing (parent : Int64)
    (missing : ¬ (name ≠ "" ∧ (base.write writes (Key.child parent name).bytes).isSome)) (details : Bool) :
    ∃ error, (child parent name details).run storage scope = (.error error, scope) := by
  rw [child]
  cases required : requirePositive "parent id" parent with
  | error error => exact ⟨error, run_bind_error rfl⟩
  | ok _ =>
    rw [run_lift_bind]
    by_cases filled : name = ""
    · rw [requireName, if_pos (by simpa using filled)]
      exact ⟨_, run_bind_error rfl⟩
    · rw [requireName_of_ne filled, run_lift_bind]
      have absent : base.write writes (Key.child parent name).bytes = none := by
        rw [Option.eq_none_iff_forall_ne_some]
        rintro bytes held
        exact missing ⟨filled, by rw [held]; rfl⟩
      have searched := opens.run_find? calm (Key.child parent name).bytes (α := ChildLink)
      rw [absent] at searched
      exact ⟨_, run_bind_error (run_bind_ok searched)⟩

end

structure Legible (contents : Contents) (parent : Int64) : Prop where
  names : ∀ key, (contents key).isSome → (Key.children parent).isPrefixOf key = true →
    ∃ name, name ≠ "" ∧ key = (Key.child parent name).bytes
  links : ∀ name bytes, contents (Key.child parent name).bytes = some bytes →
    ∃ link : ChildLink, Record.decode bytes = .ok link

theorem exists_run_children (opens : Opens storage scope base writes) (calm : Calm scope) (positive : 0 < parent)
    (legible : Legible (base.write writes) parent) :
    ∃ names : List String, names.Pairwise (fun name later => Utf8.encode name < Utf8.encode later) ∧
      (∀ name, name ∈ names ↔ name ≠ "" ∧ (base.write writes (Key.child parent name).bytes).isSome) ∧
      ∀ details, (children parent (!details)).run storage scope =
        (names.mapM fun name => ((child parent name details).run storage scope).1.map (renamed name), scope) := by
  obtain ⟨pairs, scanned, gathers⟩ := opens.run_scan calm (Key.children parent)
  let entry (name : String) : Bytes × Bytes :=
    ((Key.child parent name).bytes, (base.write writes (Key.child parent name).bytes).getD [])
  have named : pairs ∈ Set.range (List.map entry) := by
    rw [Set.range_list_map]
    rintro ⟨key, bytes⟩ member
    obtain ⟨held, begins⟩ := (gathers.members key bytes).1 member
    obtain ⟨name, _, rfl⟩ := legible.names key (by rw [held]; rfl) begins
    exact ⟨name, by simp only [entry, held, Option.getD_some]⟩
  obtain ⟨names, rfl⟩ := named
  have known {name : String} (member : name ∈ names) : name ≠ "" ∧
      base.write writes (Key.child parent name).bytes = some (entry name).2 := by
    obtain ⟨held, begins⟩ := (gathers.members _ _).1 (List.mem_map_of_mem member)
    obtain ⟨title, filled, same⟩ := legible.names _ (by rw [held]; rfl) begins
    cases Key.bytes_injective same
    exact ⟨filled, held⟩
  refine ⟨names, ?_, fun name => ⟨fun member => ?_, fun ⟨filled, held⟩ => ?_⟩, fun details => ?_⟩
  · refine (List.pairwise_map.1 gathers.ascending).imp fun before => ?_
    exact (Bytes.append_lt_append_iff (Key.children parent)).1 before
  · obtain ⟨filled, held⟩ := known member
    exact ⟨filled, by rw [held]; rfl⟩
  · obtain ⟨bytes, held⟩ := Option.isSome_iff_exists.1 held
    have listed := (gathers.members _ _).2 ⟨held, (Key.child parent name).begins⟩
    obtain ⟨title, member, same⟩ := List.mem_map.1 listed
    have key : (Key.child parent title).bytes = (Key.child parent name).bytes := congrArg Prod.fst same
    cases Key.bytes_injective key
    exact member
  · rw [children, requirePositive_of_pos _ positive, run_lift_bind, run_bind_ok scanned, List.mapM_map]
    refine Scoped.run_mapM fun name member => ?_
    obtain ⟨filled, held⟩ := known member
    obtain ⟨outcome, found, listed, _⟩ := exists_run_child opens calm positive filled held details
    exact listed.trans (by rw [found])

structure Agrees (lookup : String → Bool → Except Error INode) (listing : Bool → Except Error (List INode))
    (nodes : List INode) : Prop where
  listed : listing true = .ok nodes
  ascending : nodes.Pairwise fun node later => Utf8.encode node.name < Utf8.encode later.name
  members : ∀ id name, (∃ node ∈ nodes, node.id = id ∧ node.name = name) ↔
    ∃ node, lookup name false = .ok node ∧ node.id = id
  succeeds : (∃ details, listing false = .ok details) ↔
    ∀ node ∈ nodes, ∃ found, lookup node.name true = .ok found
  details : ∀ details, listing false = .ok details →
    List.Forall₂ (fun node detail => ∃ found, lookup node.name true = .ok found ∧
      detail = { found with name := node.name }) nodes details

theorem children_agree (opens : Opens storage scope base writes) (calm : Calm scope) (positive : 0 < parent)
    (legible : Legible (base.write writes) parent) :
    ∃ nodes, Agrees (fun name details => ((child parent name details).run storage scope).1)
      (fun simple => ((children parent simple).run storage scope).1) nodes := by
  obtain ⟨names, ascending, members, listing⟩ := exists_run_children opens calm positive legible
  let lookup (name : String) (details : Bool) := ((child parent name details).run storage scope).1
  -- The names come from the scan. The simple listing needs only their links, the detailed one every inode too.
  have simple : ∀ name ∈ names, ∃ id, lookup name false = .ok (placeholder id name) := by
    intro name member
    obtain ⟨filled, held⟩ := (members name).1 member
    obtain ⟨bytes, held⟩ := Option.isSome_iff_exists.1 held
    obtain ⟨outcome, found, _, same⟩ := exists_run_child opens calm positive filled held false
    obtain ⟨link, decoded⟩ := legible.links name bytes held
    refine ⟨link.id, ?_⟩
    simp only [lookup, found]
    rw [same rfl, decoded]
    rfl
  choose! ids known using simple
  have detailed : ((children parent false).run storage scope).1 =
      names.mapM fun name => (lookup name true).map (renamed name) := congrArg Prod.fst (listing true)
  have among {name : String} {details : Bool} {node : INode} (found : lookup name details = .ok node) :
      name ∈ names := by
    by_contra absent
    obtain ⟨error, missing⟩ :=
      exists_run_child_missing opens calm parent (fun held => absent ((members name).2 held)) details
    cases found.symm.trans (congrArg Prod.fst missing)
  refine ⟨names.map fun name => placeholder (ids name) name, ?_⟩
  constructor
  · refine (congrArg Prod.fst (listing false)).trans (mapM_eq_ok_iff.2 ?_)
    rw [List.forall₂_map_right_iff, List.forall₂_same]
    intro name member
    exact congrArg (Except.map (renamed name)) (known name member)
  · exact List.pairwise_map.2 ascending
  · intro id name
    constructor
    · rintro ⟨node, listed, rfl, rfl⟩
      obtain ⟨name, member, rfl⟩ := List.mem_map.1 listed
      exact ⟨_, known name member, rfl⟩
    · rintro ⟨node, found, rfl⟩
      have member := among found
      cases (known name member).symm.trans found
      exact ⟨_, List.mem_map_of_mem member, rfl, rfl⟩
  · rw [List.forall_mem_map]
    constructor
    · rintro ⟨details, listed⟩ name member
      obtain ⟨_, looked⟩ := exists_mapM_iff.1 ⟨details, detailed.symm.trans listed⟩ name member
      obtain ⟨found, answered, _⟩ := map_eq_ok_iff.1 looked
      exact ⟨found, answered⟩
    · intro each
      have mapped : ∀ name ∈ names, ∃ detail, (lookup name true).map (renamed name) = .ok detail := by
        intro name member
        obtain ⟨found, answered⟩ := each name member
        exact ⟨_, map_eq_ok_iff.2 ⟨found, answered, rfl⟩⟩
      obtain ⟨details, listed⟩ := exists_mapM_iff.2 mapped
      exact ⟨details, detailed.trans listed⟩
  · intro details listed
    rw [List.forall₂_map_left_iff]
    refine (mapM_eq_ok_iff.1 (detailed.symm.trans listed)).imp fun name detail looked => ?_
    exact map_eq_ok_iff.1 looked

theorem Tied.legible {contents : Contents} {whole : Prop} (tied : Tied contents [] whole) (parent : Int64) :
    Legible contents parent where
  names := by
    intro key stored begins
    obtain ⟨bytes, held⟩ := Option.isSome_iff_exists.1 stored
    obtain ⟨other, name, id, rfl, rfl⟩ := tied.kept.child held begins
    obtain ⟨_, same⟩ := Key.isPrefixOf_children_iff.1 begins
    cases same
    obtain ⟨node, inode, _, rfl⟩ := tied.down parent name id List.not_mem_nil held
    refine ⟨node.name, fun unnamed => ?_, rfl⟩
    have filled := inode.2.name
    rw [unnamed] at filled
    cases filled
  links := by
    intro name bytes held
    obtain ⟨id, _, decoded⟩ := tied.kept.link held
    exact ⟨_, decoded⟩

theorem Tied.exists_run_children {whole : Prop} (tied : Tied (base.write writes) [] whole)
    (opens : Opens storage scope base writes) (calm : Calm scope) (positive : 0 < parent) :
    ∃ details, ((children parent false).run storage scope).1 = .ok details ∧
      ∀ detail ∈ details, detail.parentId = parent := by
  obtain ⟨names, _, members, listing⟩ := Tree.exists_run_children opens calm positive (tied.legible parent)
  have looked : ∀ name ∈ names, ∃ node : INode, ((child parent name true).run storage scope).1 = .ok node ∧
      node.parentId = parent := by
    intro name member
    obtain ⟨filled, stored⟩ := (members name).1 member
    obtain ⟨bytes, held⟩ := Option.isSome_iff_exists.1 stored
    obtain ⟨id, link, decoded⟩ := tied.kept.link held
    obtain ⟨node, inode, rfl, rfl⟩ := tied.down _ _ id List.not_mem_nil link
    exact ⟨node.summary, congrArg Prod.fst (run_child_of_holds opens calm positive filled link.holds inode.holds), rfl⟩
  have detailed := congrArg Prod.fst (listing true)
  have each : ∀ name ∈ names, ∃ detail,
      ((child parent name true).run storage scope).1.map (renamed name) = .ok detail := by
    intro name member
    obtain ⟨node, found, _⟩ := looked name member
    exact ⟨_, map_eq_ok_iff.2 ⟨node, found, rfl⟩⟩
  obtain ⟨details, listed⟩ := exists_mapM_iff.2 each
  refine ⟨details, detailed.trans listed, fun detail member => ?_⟩
  obtain ⟨name, among, found⟩ := exists_of_mem_mapM listed member
  obtain ⟨node, known, parent⟩ := looked name among
  obtain ⟨other, same, rfl⟩ := map_eq_ok_iff.1 found
  cases known.symm.trans same
  exact parent

namespace System

variable {system : System} {tx : Transaction}

def Views (system : System) (tx : Transaction) : Prop :=
  (tx.finished = false ∧ ∃ client ∈ system.clients, client.scope.tx = tx) ∨ tx = (Transaction.begin system.store).1

theorem Views.open (views : system.Views tx) : tx.finished = false := by
  rcases views with ⟨unfinished, _⟩ | rfl
  · exact unfinished
  · rfl

theorem Views.reads (views : system.Views tx) (linked : system.Linked) (numbered : system.Numbered) :
    (∃ whole, Tied (tx.reads system.store) [] whole) ∧ (tx.reads system.store).Numbered := by
  have initial : Contents.empty.Numbered := by
    rintro _ ⟨⟩
  rcases views with ⟨unfinished, client, member, rfl⟩ | rfl
  · obtain ⟨index, found⟩ := List.mem_iff_getElem?.1 member
    have reads : client.scope.tx.reads system.store =
        (Contents.empty.after (system.world.past.take client.born)).write client.scope.tx.writes :=
      linked.sound.reads (session_of_client found) unfinished
    rw [reads]
    refine ⟨⟨_, (linked.woven client member unfinished).tied⟩, ?_⟩
    have past : (Contents.empty.after (system.world.past.take client.born)).Numbered :=
      initial.after fun writes taken => numbered.past writes (List.mem_of_mem_take taken)
    exact past.write (numbered.clients client member)
  · have reads : (Transaction.begin system.store).1.reads system.store = Contents.empty.after system.world.past :=
      (Contents.write_empty _).trans linked.sound.committed
    rw [reads]
    exact ⟨⟨_, linked.tied⟩, initial.after numbered.past⟩

end System

theorem listing_agrees :
    (∀ (storage : Storage) (scope : Scope) (parent : Int64), scope.tx.finished = false → Calm scope → 0 < parent →
      Legible (scope.tx.reads storage.store) parent →
      ∃ nodes, Agrees (fun name details => ((child parent name details).run storage scope).1)
        (fun simple => ((children parent simple).run storage scope).1) nodes) ∧
    ∀ (journal : Option Journal.Log) (loose : Bool) (requests : List Request),
      (System.opened journal loose).Steady requests →
      let system := (System.opened journal loose).run requests
      ∀ scope : Scope, system.Views scope.tx → Calm scope →
      ∀ parent, (0 < parent ∨ ∃ node : INode, (scope.tx.reads system.store).Holds (.inode parent) node) →
        Legible (scope.tx.reads system.store) parent ∧
        ∃ details, ((children parent false).run system.engine.storage scope).1 = .ok details ∧
          ∀ detail ∈ details, detail.parentId = parent := by
  constructor
  · intro storage scope parent unfinished calm positive legible
    exact children_agree ⟨rfl, rfl, unfinished⟩ calm positive legible
  · intro journal loose requests steady system scope views calm parent directory
    have linked : system.Linked := (System.linked_opened journal loose).run requests steady
    have numbered : system.Numbered := (System.numbered_opened journal loose).run requests
    obtain ⟨⟨whole, tied⟩, numbered⟩ := views.reads linked numbered
    have positive : 0 < parent := directory.elim id fun ⟨node, held⟩ => numbered parent held.isSome
    exact ⟨tied.legible parent, tied.exists_run_children ⟨rfl, rfl, views.open⟩ calm positive⟩

def branch : INode := { id := 1, name := "branch", kind := .directory, parentId := 9 }

def leaf (id : Int64) (name : String) : INode := { id, name, parentId := 1 }

-- One name begins another one, and one is written in two bytes. The client has not committed yet.
def sprouting : List Request :=
  [.begin .never, .change 0 (.create branch ⟨by decide, by decide, by decide⟩),
    .change 0 (.create (leaf 2 "é") ⟨by decide, by decide, by decide⟩),
    .change 0 (.create (leaf 3 "ab") ⟨by decide, by decide, by decide⟩),
    .change 0 (.create (leaf 4 "a") ⟨by decide, by decide, by decide⟩)]

def sprouted : System := (System.opened none true).run sprouting

def sprout : Scope :=
  { tx := (sprouted.clients.map fun client => client.scope.tx).headD (Transaction.begin sprouted.store).1
    interrupts := .never }

theorem listing_agrees_sprout : Calm sprout ∧ Legible (sprout.tx.reads sprouted.store) 1 ∧
    ∃ nodes details, Agrees (fun name details => ((child 1 name details).run sprouted.engine.storage sprout).1)
        (fun simple => ((children 1 simple).run sprouted.engine.storage sprout).1) nodes ∧
      nodes.map INode.name = ["a", "ab", "é"] ∧
      ((children 1 false).run sprouted.engine.storage sprout).1 = .ok details ∧
      ∀ detail ∈ details, detail.parentId = 1 := by
  have calm : Calm sprout := ⟨rfl, rfl⟩
  have unfinished : sprout.tx.finished = false := by decide +kernel
  have views : sprouted.Views sprout.tx := by
    cases known : sprouted.clients with
    | nil => exact .inr (by rw [sprout, known]; rfl)
    | cons client rest => exact .inl ⟨unfinished, client, by simp [known], by rw [sprout, known]; rfl⟩
  obtain ⟨agree, reached⟩ := listing_agrees
  obtain ⟨legible, details, listed, parents⟩ :=
    reached none true sprouting (System.steady_of_length_lt (by decide)) sprout views calm 1 (.inl (by decide))
  obtain ⟨nodes, agrees⟩ := agree sprouted.engine.storage sprout 1 unfinished calm (by decide) legible
  refine ⟨calm, legible, nodes, details, agrees, ?_, listed, parents⟩
  have answered : ((children 1 true).run sprouted.engine.storage sprout).1 =
      .ok [placeholder 4 "a", placeholder 3 "ab", placeholder 2 "é"] := by decide +kernel
  rw [Except.ok.inj (agrees.listed.symm.trans answered)]
  rfl

end Tree

end FsMeta

import FsMeta.Record.Wire
import FsMeta.Proofs.Json.Number
import FsMeta.Proofs.Json.Parser
import Mathlib.Data.List.Basic

set_option autoImplicit false

namespace FsMeta.Wire

open Json (Plain)

theorem integer?_int {least most n : Int} (low : least ≤ n) (high : n ≤ most) :
    integer? least most (.int n) = some n := by
  rw [Json.int, integer?, Json.Number.int?_ofInt]
  exact if_pos ⟨low, high⟩

@[simp] theorem int32?_toInt (n : Int32) : int32? (.int n.toInt) = some n := by
  have low : -2147483648 ≤ n.toInt := n.le_toInt
  have high : n.toInt ≤ 2147483647 := Int.le_of_lt_add_one n.toInt_lt
  rw [int32?, integer?_int low high]
  exact congrArg some n.ofInt_toInt

@[simp] theorem int64?_number64 (n : Int64) : int64? (number64 n) = some n := by
  have low : -9223372036854775808 ≤ n.toInt := n.le_toInt
  have high : n.toInt ≤ 9223372036854775807 := Int.le_of_lt_add_one n.toInt_lt
  rw [int64?, number64, integer?_int low high]
  exact congrArg some n.ofInt_toInt

@[simp] theorem uint64?_toNat (n : UInt64) : uint64? (.int n.toNat) = some n := by
  have high : (n.toNat : Int) ≤ 18446744073709551615 := Int.ofNat_le.2 (Nat.le_of_lt_succ n.toNat_lt)
  rw [uint64?, integer?_int (Int.natCast_nonneg _) high]
  exact congrArg some UInt64.ofNat_toNat

@[simp] theorem text?_string (s : String) : text? (.string s) = some s := rfl

theorem list?_map {α : Type} {element? : Json → Option α} {json : α → Json}
    (read : ∀ value, element? (json value) = some value) (values : List α) :
    list? element? (.array (values.map json)) = some values := by
  have pure : element? ∘ json = fun value => pure value := funext read
  rw [list?, List.mapM_map, pure, List.mapM_pure, List.map_id']
  rfl

def named (members : List (String × Json)) : List (Option String × Json) :=
  members.map fun (key, value) => (some key, value)

theorem filter_named_of_not_mem {members : List (String × Json)} {key : String}
    (absent : key ∉ members.map Prod.fst) : (named members).filter (·.1 = some key) = [] := by
  rw [List.filter_eq_nil_iff]
  rintro _ holds
  obtain ⟨member, among, rfl⟩ := List.mem_map.1 holds
  simpa using fun same => absent (List.mem_map.2 ⟨member, among, same⟩)

theorem filter_named {members : List (String × Json)} (distinct : (members.map Prod.fst).Nodup)
    {key : String} {value : Json} (among : (key, value) ∈ members) :
    (named members).filter (·.1 = some key) = [(some key, value)] := by
  obtain ⟨front, back, rfl⟩ := List.append_of_mem among
  rw [List.map_append, List.map_cons, List.nodup_append] at distinct
  obtain ⟨-, later, apart⟩ := distinct
  have before : key ∉ front.map Prod.fst := fun early => apart _ early _ List.mem_cons_self rfl
  have after := (List.nodup_cons.1 later).1
  have parts : named (front ++ (key, value) :: back) = named front ++ (some key, value) :: named back :=
    List.map_append
  rw [parts, List.filter_append, List.filter_cons_of_pos (by simp), filter_named_of_not_mem before,
    filter_named_of_not_mem after, List.nil_append]

theorem member?_named {members : List (String × Json)} (distinct : (members.map Prod.fst).Nodup)
    {key : String} {value : Json} (among : (key, value) ∈ members) :
    member? (named members) key = some (some value) := by
  rw [member?, filter_named distinct among]

theorem objectFields?_named {members picked : List (String × Json)} (distinct : (members.map Prod.fst).Nodup)
    (among : picked ⊆ members) :
    objectFields? (picked.map Prod.fst) (named members) = some (picked.map fun member => some member.2) := by
  have keys : (named members).all (·.1.isSome) = true := by simp [named]
  rw [objectFields?, if_pos keys]
  induction picked with
  | nil => rfl
  | cons member others ih =>
    obtain ⟨first, later⟩ := List.cons_subset.1 among
    rw [List.map_cons, List.mapM_cons, member?_named distinct first, ih later]
    rfl

theorem fields?_fields {names : List String} {members : List (String × Json)}
    (keys : members.map Prod.fst = names) (distinct : names.Nodup) :
    fields? names (.fields members) = some (members.map fun member => some member.2) := by
  subst keys
  exact objectFields?_named distinct (List.Subset.refl members)

class Lawful (α : Type) [Wire α] : Prop where
  plain : ∀ value : α, Plain (toJson value)
  read : ∀ value : α, ofJson? (toJson value) = some value

theorem parse?_print {α : Type} [Wire α] [Lawful α] (value : α) :
    parse? (Utf8.encode (print value)) = some value := by
  rw [parse?, print, Json.parse_render (Lawful.plain value)]
  exact Lawful.read value

instance : Lawful INode.Kind where
  plain kind := .int _
  read kind := by
    change int32? (.int kind.number.toInt) >>= INode.Kind.ofNumber? = some kind
    rw [int32?_toInt]
    cases kind <;> rfl

theorem plain_inodeMembers (node : INode) : ∀ member ∈ inodeMembers node, Plain member.2 :=
  List.forall_iff_forall_mem.1
    ⟨.int _, .string _, .int _, .int _, .int _, .int _, .int _, .int _, .string _, .string _⟩

theorem inodeOfFields?_members (node : INode) :
    inodeOfFields? ((inodeMembers node).map fun member => some member.2) = some node := by
  simp [inodeMembers, inodeOfFields?, givenOr?, Lawful.read]

instance : Lawful INode where
  plain node := .fields (plain_inodeMembers node)
  read node := by
    change fields? inodeNames (.fields (inodeMembers node)) >>= inodeOfFields? = some node
    rw [fields?_fields (by rfl) (by decide)]
    exact inodeOfFields?_members node

instance : Lawful ChildLink where
  plain link := .fields (List.forall_mem_singleton.2 (.int _))
  read link := by
    simp only [ofJson?, toJson]
    rw [fields?_fields (by rfl) (by decide)]
    simp [given?]

instance : Lawful StorageLocation where
  plain location := .fields (List.forall_iff_forall_mem.1 ⟨.string _, .string _⟩)
  read location := by
    simp only [ofJson?, toJson]
    rw [fields?_fields (by rfl) (by decide)]
    simp [givenOr?]

theorem plain_list {α : Type} [Wire α] [Lawful α] (values : List α) : Plain (.array (values.map toJson)) :=
  .array fun element among => by
    obtain ⟨value, -, rfl⟩ := List.mem_map.1 among
    exact Lawful.plain value

@[simp] theorem locations?_locationsJson (locations : List StorageLocation) :
    locations? (locationsJson locations) = some locations := list?_map Lawful.read locations

theorem plain_blockMetaMembers (info : BlockMeta) : ∀ member ∈ blockMetaMembers info, Plain member.2 :=
  List.forall_iff_forall_mem.1 ⟨.int _, .int _, .int _, .int _, .int _, .string _⟩

theorem blockMetaOfFields?_members (info : BlockMeta) :
    blockMetaOfFields? ((blockMetaMembers info).map fun member => some member.2) = some info := by
  simp [blockMetaMembers, blockMetaOfFields?, givenOr?]

instance : Lawful BlockMeta where
  plain info := .fields (plain_blockMetaMembers info)
  read info := by
    change fields? blockMetaNames (.fields (blockMetaMembers info)) >>= blockMetaOfFields? = some info
    rw [fields?_fields (by rfl) (by decide)]
    exact blockMetaOfFields?_members info

instance : Lawful BlockStorage where
  plain replicas := .fields (List.forall_iff_forall_mem.1 ⟨.int _, plain_list replicas.nodes⟩)
  read replicas := by
    simp only [ofJson?, toJson]
    rw [fields?_fields (by rfl) (by decide)]
    simp [givenOr?]

instance : Lawful Block where
  plain block := .fields (List.forall_mem_append.2
    ⟨plain_blockMetaMembers block.info, List.forall_mem_singleton.2 (plain_list block.storage)⟩)
  read block := by
    simp only [ofJson?, toJson]
    rw [fields?_fields (by rfl) (by decide)]
    change (blockMetaOfFields? ((blockMetaMembers block.info).map fun member => some member.2)).bind (fun info =>
      (locations? (locationsJson block.storage)).bind fun storage =>
        some (.ofParts info { nodes := storage })) = some block
    rw [blockMetaOfFields?_members, locations?_locationsJson]
    rfl

instance : Lawful FileBlock where
  plain entry := .fields (List.forall_iff_forall_mem.1 ⟨.int _, .int _, .int _⟩)
  read entry := by
    simp only [ofJson?, toJson]
    rw [fields?_fields (by rfl) (by decide)]
    simp [given?]

instance : Lawful Timestamps where
  plain stamps := .fields (List.forall_iff_forall_mem.1 ⟨.array (by simp [Plain.int]), .int _⟩)
  read stamps := by
    simp only [ofJson?, toJson]
    rw [fields?_fields (by rfl) (by decide)]
    simp [given?, list?_map uint64?_toNat]

theorem sound_int {n : Int} (fits : n.natAbs < UInt64.size) : (Json.int n).sound = true := by
  rw [Json.int, Json.sound, Json.Number.finite_ofInt fits]

theorem sound_number64 (n : Int64) : (number64 n).sound = true := by
  have low : -9223372036854775808 ≤ n.toInt := n.le_toInt
  have high : n.toInt < 9223372036854775808 := n.toInt_lt
  exact sound_int (by rw [UInt64.size]; omega)

theorem leaf_inodeMembers (node : INode) :
    ∀ member ∈ inodeMembers node, member.2.sound = true ∧ member.2.depth = 0 := by
  have number (n : Int64) : (number64 n).sound = true ∧ (number64 n).depth = 0 := ⟨sound_number64 n, rfl⟩
  have text (s : String) : (Json.string s).sound = true ∧ (Json.string s).depth = 0 := ⟨rfl, rfl⟩
  have kind : Json.sound (toJson node.kind) = true ∧ Json.depth (toJson node.kind) = 0 :=
    ⟨by cases node.kind <;> exact sound_int (by decide), rfl⟩
  exact List.forall_iff_forall_mem.1
    ⟨number _, text _, number _, number _, number _, number _, kind, number _, text _, text _⟩

def fileMembers (file : INodeFile) : List (String × Json) :=
  inodeMembers file.inode ++ [("blocks", .array (file.blocks.map toJson))]

def keeps (members : List (Option String × Json)) : Bool :=
  (members.filter (·.1 ≠ some "blocks")).all fun (_, value) => value.sound && value.depth < maxDepth

theorem keeps_fileMembers (file : INodeFile) : keeps (named (fileMembers file)) = true := by
  rw [keeps, List.all_eq_true]
  intro _ kept
  obtain ⟨holds, other⟩ := List.mem_filter.1 kept
  obtain ⟨member, among, rfl⟩ := List.mem_map.1 holds
  rcases List.mem_append.1 among with inode | blocks
  · obtain ⟨sound, flat⟩ := leaf_inodeMembers file.inode member inode
    simp [sound, flat, maxDepth]
  · rw [List.mem_singleton] at blocks
    simp [blocks] at other

instance : Lawful INodeFile where
  plain file := .fields (List.forall_mem_append.2
    ⟨plain_inodeMembers file.inode, List.forall_mem_singleton.2 (plain_list file.blocks)⟩)
  read file := by
    have keys : (fileMembers file).map Prod.fst = inodeNames ++ ["blocks"] := rfl
    have distinct : ((fileMembers file).map Prod.fst).Nodup := by
      rw [keys]
      decide
    have own : objectFields? inodeNames (named (fileMembers file)) =
        some ((inodeMembers file.inode).map fun member => some member.2) :=
      objectFields?_named distinct (List.subset_append_left _ _)
    have blocks := member?_named distinct (List.mem_append_right _ List.mem_cons_self)
    change (guard (keeps (named (fileMembers file)) = true) >>= fun _ =>
      objectFields? inodeNames (named (fileMembers file)) >>= fun fields => inodeOfFields? fields >>= fun inode =>
        (member? (named (fileMembers file)) "blocks" >>= givenOr? [] (list? ofJson?)) >>= fun blocks =>
          some { inode, blocks }) = some file
    rw [guard, if_pos (keeps_fileMembers file), own, blocks]
    simp only [Option.bind_eq_bind, Option.bind_some, Option.pure_def, inodeOfFields?_members, givenOr?,
      list?_map Lawful.read]

def RoundTrips (α : Type) [Wire α] : Prop := ∀ value : α, parse? (Utf8.encode (print value)) = some value

theorem every_record_round_trips :
    RoundTrips INode.Kind ∧ RoundTrips INode ∧ RoundTrips INodeFile ∧ RoundTrips StorageLocation ∧
      RoundTrips BlockMeta ∧ RoundTrips BlockStorage ∧ RoundTrips Block ∧ RoundTrips ChildLink ∧
      RoundTrips FileBlock ∧ RoundTrips Timestamps :=
  ⟨parse?_print, parse?_print, parse?_print, parse?_print, parse?_print, parse?_print, parse?_print, parse?_print,
    parse?_print, parse?_print⟩

example : print ({ inode := { id := -9223372036854775808, name := "a\"\x01é" } } : INodeFile) =
    "\x7b\"id\":-9223372036854775808,\"name\":\"a\\\"\\u0001é\",\"permission\":0," ++
      "\"modification_time\":0,\"access_time\":0,\"header\":0,\"type\":0,\"parent_id\":0," ++
      "\"client_name\":\"\",\"client_machine\":\"\",\"blocks\":[]\x7d" := by decide +kernel

end FsMeta.Wire

import FsMeta.Proofs.Record.Layout
import FsMeta.Proofs.Text.Utf8

set_option autoImplicit false

namespace FsMeta

namespace Layout

theorem restores_text {content : String} (fits : (Utf8.encode content).length < UInt64.size) :
    Layout.text.Restores content := by
  intro rest
  have count := restores_uint64 (UInt64.ofNat (Utf8.encode content).length)
  simp only [text, List.append_assoc, count _, bind, Except.bind]
  have long : ¬ (Utf8.encode content ++ rest).length < (UInt64.ofNat (Utf8.encode content).length).toNat := by
    rw [UInt64.toNat_ofNat_of_lt' fits, List.length_append]
    omega
  rw [if_neg long]
  simp [UInt64.toNat_ofNat_of_lt' fits, List.splitAt_eq, Utf8.decode_encode, pure, Except.pure]

theorem restores_inodeKind (kind : INode.Kind) : inodeKind.Restores kind :=
  (restores_int32 kind.number).partly (by cases kind <;> rfl)

theorem restores_childLink (link : ChildLink) : childLink.Restores link :=
  (restores_int64 link.id).iso rfl

end Layout

theorem INode.kind_eq_directory {node : INode} (directory : node.isDirectory = true) : node.kind = .directory := by
  simpa [isDirectory] using directory

theorem INode.kind_eq_file {node : INode} (file : node.isDirectory = false) : node.kind = .file := by
  cases kind : node.kind with
  | file => rfl
  | directory => simp [isDirectory, kind] at file

/-- Every text in memory is as short as that. -/
structure INode.Sized (node : INode) : Prop where
  name : (Utf8.encode node.name).length < UInt64.size
  clientName : (Utf8.encode node.clientName).length < UInt64.size
  clientMachine : (Utf8.encode node.clientMachine).length < UInt64.size

open Layout in
theorem INode.Sized.restores {node : INode} (sized : node.Sized) : Layout.inode.Restores node := by
  rw [Layout.inode]
  refine Restores.iso ?_ rfl
  refine Restores.pair (restores_int64 _) ?_
  refine Restores.pair (restores_text sized.name) ?_
  refine Restores.pair (restores_int64 _) ?_
  refine Restores.pair (restores_int64 _) ?_
  refine Restores.pair (restores_int64 _) ?_
  refine Restores.pair (restores_int64 _) ?_
  refine Restores.pair (restores_inodeKind _) ?_
  refine Restores.pair (restores_int64 _) ?_
  exact Restores.pair (restores_text sized.clientName) (restores_text sized.clientMachine)

namespace Record

theorem decode_encode {α : Type} [Record α] {value : α}
    (restores : (Record.layout (α := α)).Restores value) : decode (encode value) = .ok value := by
  rw [decode, encode, restores.read]

theorem decode_encode_inode {node : INode} (sized : node.Sized) : decode (encode node) = .ok node :=
  decode_encode sized.restores

theorem decode_encode_link (link : ChildLink) : decode (encode link) = .ok link :=
  decode_encode (Layout.restores_childLink link)

end Record

end FsMeta

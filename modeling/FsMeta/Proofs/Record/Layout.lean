import FsMeta.Proofs.Bytes
import FsMeta.Record.Layout

set_option autoImplicit false

namespace FsMeta.Layout

variable {α β : Type}

def Restores (layout : Layout α) (a : α) : Prop :=
  ∀ rest, layout.take (layout.write a ++ rest) = .ok (a, rest)

theorem Restores.read {layout : Layout α} {a : α} (restores : layout.Restores a) :
    layout.read (layout.write a) = .ok a := by
  have whole := restores []
  rw [List.append_nil] at whole
  rw [Layout.read, whole]
  rfl

theorem takeBytes_append (bytes rest : Bytes) :
    takeBytes bytes.length (bytes ++ rest) = .ok (bytes, rest) := by
  induction bytes with
  | nil => rfl
  | cons byte bytes ih =>
    simp only [List.length_cons, List.cons_append, takeBytes, ih]
    rfl

theorem restores_number {width n : Nat} (fits : n < 256 ^ width) : (number width).Restores n := by
  intro rest
  have taken := takeBytes_append (Bytes.littleEndian width n) rest
  rw [Bytes.length_littleEndian] at taken
  simp only [number, taken]
  change Except.ok (Bytes.ofLittleEndian (Bytes.littleEndian width n), rest) = _
  rw [Bytes.ofLittleEndian_littleEndian fits]

theorem Restores.iso {layout : Layout α} {back : α → β} {forth : β → α} {b : β}
    (restores : layout.Restores (forth b)) (inverse : back (forth b) = b) :
    (layout.iso back forth).Restores b := by
  intro rest
  simp only [Layout.iso, restores rest]
  change Except.ok (back (forth b), rest) = _
  rw [inverse]

theorem Restores.partly {layout : Layout α} {back : α → Except Fault β} {forth : β → α} {b : β}
    (restores : layout.Restores (forth b)) (inverse : back (forth b) = .ok b) :
    (layout.partly back forth).Restores b := by
  intro rest
  simp only [Layout.partly, restores rest]
  change (back (forth b) >>= fun b => pure (b, rest)) = _
  rw [inverse]
  rfl

theorem Restores.pair {first : Layout α} {second : Layout β} {p : α × β}
    (left : first.Restores p.1) (right : second.Restores p.2) : (first.pair second).Restores p := by
  intro rest
  simp only [Layout.pair, List.append_assoc, left (second.write p.2 ++ rest)]
  change (second.take (second.write p.2 ++ rest) >>= fun taken => pure ((p.1, taken.1), taken.2)) = _
  rw [right]
  rfl

theorem restores_byte (byte : UInt8) : Layout.byte.Restores byte :=
  (restores_number byte.toNat_lt).iso UInt8.ofNat_toNat

theorem restores_uint32 (n : UInt32) : uint32.Restores n :=
  (restores_number n.toNat_lt).iso UInt32.ofNat_toNat

theorem restores_uint64 (n : UInt64) : uint64.Restores n :=
  (restores_number n.toNat_lt).iso UInt64.ofNat_toNat

theorem restores_int32 (n : Int32) : int32.Restores n := (restores_uint32 _).iso rfl

theorem restores_int64 (n : Int64) : int64.Restores n := (restores_uint64 _).iso rfl

theorem takeMany_append {layout : Layout α} {elements : List α}
    (restores : ∀ element ∈ elements, layout.Restores element) (rest : Bytes) :
    takeMany layout elements.length (elements.flatMap layout.write ++ rest) = .ok (elements, rest) := by
  induction elements with
  | nil => rfl
  | cons element elements ih =>
    have first := restores element List.mem_cons_self
    have others := ih fun later member => restores later (List.mem_cons_of_mem _ member)
    simp only [List.length_cons, List.flatMap_cons, List.append_assoc, takeMany, first _]
    change (takeMany layout elements.length _ >>= fun taken => pure (element :: taken.1, taken.2)) = _
    rw [others]
    rfl

theorem restores_list {layout : Layout α} {elements : List α}
    (restores : ∀ element ∈ elements, layout.Restores element)
    (fits : elements.length < UInt64.size) : (list layout).Restores elements := by
  intro rest
  have count := restores_uint64 (UInt64.ofNat elements.length)
  simp only [list, List.append_assoc, count _]
  change takeMany layout (UInt64.ofNat elements.length).toNat _ = _
  rw [UInt64.toNat_ofNat_of_lt' fits, takeMany_append restores]

theorem restores_bytes {bytes : Bytes} (fits : bytes.length < UInt64.size) :
    Layout.bytes.Restores bytes :=
  restores_list (fun byte _ => restores_byte byte) fits

end FsMeta.Layout

import FsMeta.Journal.File
import FsMeta.Journal.Frame

set_option autoImplicit false

namespace FsMeta.Journal

structure Cursor where
  source : Source
  position : Nat := 0
  deriving Repr, DecidableEq

namespace Cursor

def nextBody (cursor : Cursor) (header : Header) : Except Error (Option Entry) × Cursor :=
  match cursor.source.read header.length.toNat with
  | .error fault => (.error (.io fault), cursor)
  | .ok (body, source) =>
    let passed : Cursor := { cursor with source }
    if body.length < header.length.toNat then
      (.error (Damage.tornBody cursor.position body.length header.length).error, passed)
    else
      match Entry.ofBody header body with
      | .error damage => (.error damage.error, passed)
      | .ok entry =>
        (.ok (some entry), { passed with position := cursor.position + headerLength + body.length })

def next (cursor : Cursor) : Except Error (Option Entry) × Cursor :=
  match cursor.source.read headerLength with
  | .error fault => (.error (.io fault), cursor)
  | .ok (head, source) =>
    let passed : Cursor := { cursor with source }
    if head = [] then (.ok none, passed)
    else if head.length < headerLength then
      (.error (Damage.tornHeader cursor.position head.length).error, passed)
    else
      let header := Header.ofBytes head
      if header.tooLong then
        (.error (Damage.lengthOutOfRangeAt header.length cursor.position).error, passed)
      else passed.nextBody header

-- Every good frame takes bytes from the source, so its size bounds their number.
def entriesWithin : (bound : Nat) → Cursor → List (Except Error Entry)
  | 0, _ => []
  | bound + 1, cursor =>
    match cursor.next with
    | (.ok none, _) => []
    | (.error error, _) => [.error error]
    | (.ok (some entry), rest) => .ok entry :: entriesWithin bound rest

/-- The entries up to the end or the first fault, which comes last. -/
def entries (cursor : Cursor) : List (Except Error Entry) :=
  entriesWithin (cursor.source.size + 1) cursor

end Cursor

def good : List (Except Error Entry) → List Entry
  | .ok entry :: rest => entry :: good rest
  | _ => []

end FsMeta.Journal

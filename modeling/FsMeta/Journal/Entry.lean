import FsMeta.Record.Layout

set_option autoImplicit false

namespace FsMeta.Journal

inductive Operation where
  | put (key value : Bytes)
  | delete (key : Bytes)
  deriving Repr, DecidableEq

structure Entry where
  lsn : UInt64
  commitTime : UInt64
  timestamp : UInt64
  operations : List Operation
  deriving Repr, DecidableEq

def Operation.key : Operation → Bytes
  | put key _ => key
  | delete key => key

def Operation.layout : Layout Operation where
  write
    | put key value => Layout.uint32.write 0 ++ Layout.bytes.write key ++ Layout.bytes.write value
    | delete key => Layout.uint32.write 1 ++ Layout.bytes.write key
  take bytes := do
    let (tag, rest) ← Layout.uint32.take bytes
    if tag = 0 then
      let (key, rest) ← Layout.bytes.take rest
      let (value, rest) ← Layout.bytes.take rest
      pure (put key value, rest)
    else if tag = 1 then
      let (key, rest) ← Layout.bytes.take rest
      pure (delete key, rest)
    else throw (.unknownOperation tag)

def Entry.layout : Layout Entry :=
  (Layout.uint64.pair <| Layout.uint64.pair <| Layout.uint64.pair <|
    Layout.list Operation.layout).iso
    (fun (lsn, commitTime, timestamp, operations) => { lsn, commitTime, timestamp, operations })
    (fun entry => (entry.lsn, entry.commitTime, entry.timestamp, entry.operations))

end FsMeta.Journal

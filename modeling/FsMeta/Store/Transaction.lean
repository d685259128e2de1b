import FsMeta.Store.Basic

set_option autoImplicit false

namespace FsMeta

structure Transaction where
  snapshot : UInt64
  writes : Table (Option Bytes) := .empty
  finished : Bool := false

namespace Transaction

def closed : Error := .storage "transaction already finished"

def requireOpen (tx : Transaction) : Except Error Unit :=
  if tx.finished then .error closed else .ok ()

def begin (store : Store) : Transaction × Store :=
  ({ snapshot := store.clock }, { store with active := store.clock :: store.active })

def view (tx : Transaction) (store : Store) : Table Bytes :=
  (store.visibleAt tx.snapshot).overlay tx.writes

def get (tx : Transaction) (store : Store) (key : Bytes) : Except Error (Option Bytes) := do
  tx.requireOpen
  match tx.writes.find? key with
  | some written => pure written
  | none => pure ((store.history.find? key).bind (Version.valueAt tx.snapshot))

def write (tx : Transaction) (key : Bytes) (value : Option Bytes) : Except Error Transaction := do
  tx.requireOpen
  pure { tx with writes := tx.writes.insert key value }

def set (tx : Transaction) (key value : Bytes) : Except Error Transaction :=
  tx.write key (some value)

def delete (tx : Transaction) (key : Bytes) : Except Error Transaction := tx.write key none

def within (start : Bytes) (stop : Option Bytes) (key : Bytes) : Bool :=
  start ≤ key && stop.all (key < ·)

def iterate (tx : Transaction) (store : Store) (start : Bytes) (stop : Option Bytes) :
    Except Error (List (Bytes × Bytes)) := do
  tx.requireOpen
  pure ((tx.view store).filter (within start stop)).entries

end Transaction

end FsMeta

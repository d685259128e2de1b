import FsMeta.Journal.Crc32
import FsMeta.Journal.Entry
import FsMeta.Text.Escaped

set_option autoImplicit false

/-!
Frames: an entry behind a header of sequence number, checksum and length. The number stands in the
header and in the body, so a frame that is put in the wrong place is noticed.
-/
namespace FsMeta.Journal

inductive Damage where
  | incompleteHeader (found : Nat)
  | lengthOutOfRange (length : UInt32)
  | incompleteBody (expected found : Nat)
  | checksum (lsn : UInt64) (stored computed : UInt32)
  | undecodable (lsn : UInt64) (fault : Layout.Fault)
  | lsnMismatch (header body : UInt64)
  | tornHeader (offset found : Nat)
  | lengthOutOfRangeAt (length : UInt32) (offset : Nat)
  | tornBody (offset found : Nat) (length : UInt32)
  deriving Repr, DecidableEq

structure Header where
  lsn : UInt64
  checksum : UInt32
  length : UInt32
  deriving Repr, DecidableEq

def headerLength : Nat := 16

def maxBodyLength : Nat := 64 * 1024 * 1024

def hexWord (word : UInt32) : String :=
  "0x" ++ String.ofList ((Bytes.bigEndian 4 word.toNat).flatMap Escaped.hexByte)

def Damage.message : Damage → String
  | incompleteHeader found => s!"incomplete header: expected {headerLength} bytes, got {found}"
  | lengthOutOfRange length => s!"entry length {length} out of range"
  | incompleteBody expected found => s!"incomplete body: expected {expected} bytes, got {found}"
  | checksum lsn stored computed =>
    s!"CRC mismatch at lsn {lsn}: stored {hexWord stored}, computed {hexWord computed}"
  | undecodable lsn fault => s!"undecodable entry at lsn {lsn}: {fault.message}"
  | lsnMismatch header body => s!"header lsn {header} does not match body lsn {body}"
  | tornHeader offset found => s!"torn header at offset {offset}: {found} of {headerLength} bytes"
  | lengthOutOfRangeAt length offset => s!"entry length {length} out of range at offset {offset}"
  | tornBody offset found length => s!"torn body at offset {offset}: {found} of {length} bytes"

def Damage.error (damage : Damage) : Error := .journalCorruption damage.message

def Header.bytes (header : Header) : Bytes :=
  Bytes.bigEndian 8 header.lsn.toNat ++ Bytes.bigEndian 4 header.checksum.toNat
    ++ Bytes.bigEndian 4 header.length.toNat

def Header.ofBytes (bytes : Bytes) : Header where
  lsn := UInt64.ofNat (Bytes.ofBigEndian (bytes.take 8))
  checksum := UInt32.ofNat (Bytes.ofBigEndian ((bytes.drop 8).take 4))
  length := UInt32.ofNat (Bytes.ofBigEndian ((bytes.drop 12).take 4))

def Header.tooLong (header : Header) : Bool := maxBodyLength < header.length.toNat

def frameOfBody (lsn : UInt64) (body : Bytes) : Bytes :=
  Header.bytes { lsn, checksum := Crc32.checksum body, length := UInt32.ofNat body.length } ++ body

namespace Entry

def frame (entry : Entry) : Except Error Bytes :=
  let body := layout.write entry
  if maxBodyLength < body.length then
    .error (.storage s!"WAL entry too large: {body.length} bytes (max {maxBodyLength})")
  else .ok (frameOfBody entry.lsn body)

def ofBody (header : Header) (body : Bytes) : Except Damage Entry :=
  let computed := Crc32.checksum body
  if computed ≠ header.checksum then
    .error (.checksum header.lsn header.checksum computed)
  else
    match layout.read body with
    | .error fault => .error (.undecodable header.lsn fault)
    | .ok entry =>
      if entry.lsn = header.lsn then .ok entry else .error (.lsnMismatch header.lsn entry.lsn)

def ofFrame (bytes : Bytes) : Except Damage (Entry × Nat) :=
  if bytes.length < headerLength then .error (.incompleteHeader bytes.length)
  else
    let header := Header.ofBytes (bytes.take headerLength)
    let total := headerLength + header.length.toNat
    if header.tooLong then .error (.lengthOutOfRange header.length)
    else if bytes.length < total then .error (.incompleteBody total bytes.length)
    else do
      let entry ← ofBody header ((bytes.drop headerLength).take header.length.toNat)
      pure (entry, total)

end Entry

end FsMeta.Journal

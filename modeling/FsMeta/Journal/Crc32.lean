import FsMeta.Bytes

set_option autoImplicit false

/-! The checksum of frames: CRC-32 with the reflected polynomial 0xedb88320. -/
namespace FsMeta.Crc32

def polynomial : UInt32 := 0xedb88320

def shift (register : UInt32) : UInt32 :=
  if register &&& 1 = 1 then (register >>> 1) ^^^ polynomial else register >>> 1

def shifts : Nat → UInt32 → UInt32
  | 0, register => register
  | count + 1, register => shifts count (shift register)

def absorb (register : UInt32) (byte : UInt8) : UInt32 :=
  shifts 8 (register ^^^ byte.toUInt32)

def checksum (bytes : Bytes) : UInt32 := bytes.foldl absorb 0xffffffff ^^^ 0xffffffff

end FsMeta.Crc32

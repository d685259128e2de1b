import FsMeta.Text.Utf8

set_option autoImplicit false

namespace FsMeta.Percent

def sign : UInt8 := 0x25

def digit? (byte : UInt8) : Option UInt8 :=
  if 0x30 ≤ byte && byte ≤ 0x39 then some (byte - 0x30)
  else if 0x41 ≤ byte && byte ≤ 0x46 then some (byte - 0x37)
  else if 0x61 ≤ byte && byte ≤ 0x66 then some (byte - 0x57)
  else none

def byte? (high low : UInt8) : Option UInt8 := do
  let high ← digit? high
  let low ← digit? low
  pure (high * 16 + low)

def decode : Bytes → Bytes
  | [] => []
  | first :: high :: low :: rest =>
    match if first = sign then byte? high low else none with
    | some byte => byte :: decode rest
    | none => first :: decode (high :: low :: rest)
  | first :: rest => first :: decode rest

-- In queries a plus sign is a blank.
def formText (bytes : Bytes) : String :=
  Utf8.lossy (decode (bytes.map fun byte => if byte = 0x2b then 0x20 else byte))

def formPair (bytes : Bytes) : String × String :=
  (formText (bytes.takeWhile (· ≠ 0x3d)), formText ((bytes.dropWhile (· ≠ 0x3d)).drop 1))

def formPairs (query : Bytes) : List (String × String) :=
  ((Bytes.splitOn 0x26 query).filter (· ≠ [])).map formPair

end FsMeta.Percent

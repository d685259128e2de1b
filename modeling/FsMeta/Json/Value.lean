import FsMeta.Json.Number

set_option autoImplicit false

/-!
JSON values and their tokens. A text is absent where a string literal is closed but denotes no text:
it holds a lone surrogate or bytes that are not UTF-8. Such a literal may be passed over, not used.
-/
namespace FsMeta

inductive Json where
  | null
  | bool (value : Bool)
  | number (literal : Json.Number)
  | text (content : Option String)
  | array (elements : List Json)
  | object (members : List (Option String × Json))
  deriving Inhabited

namespace Json

inductive Token where
  | beginArray
  | endArray
  | beginObject
  | endObject
  | comma
  | colon
  | null
  | bool (value : Bool)
  | number (literal : Number)
  | text (content : Option String)
  deriving Repr, DecidableEq

mutual

def tokens : Json → List Token
  | null => [.null]
  | bool value => [.bool value]
  | number literal => [.number literal]
  | text content => [.text content]
  | array [] => [.beginArray, .endArray]
  | array (element :: rest) => .beginArray :: tokens element ++ elementTokens rest
  | object [] => [.beginObject, .endObject]
  | object ((key, value) :: rest) =>
    .beginObject :: .text key :: .colon :: tokens value ++ memberTokens rest

def elementTokens : List Json → List Token
  | [] => [.endArray]
  | element :: rest => .comma :: tokens element ++ elementTokens rest

def memberTokens : List (Option String × Json) → List Token
  | [] => [.endObject]
  | (key, value) :: rest =>
    .comma :: .text key :: .colon :: tokens value ++ memberTokens rest

end

mutual

def depth : Json → Nat
  | array elements => 1 + elementDepth elements
  | object members => 1 + memberDepth members
  | _ => 0

def elementDepth : List Json → Nat
  | [] => 0
  | element :: rest => max (depth element) (elementDepth rest)

def memberDepth : List (Option String × Json) → Nat
  | [] => 0
  | (_, value) :: rest => max (depth value) (memberDepth rest)

end

mutual

-- Whether the value can be kept: every text is one, every number is finite.
def sound : Json → Bool
  | number literal => literal.finite
  | text content => content.isSome
  | array elements => elementsSound elements
  | object members => membersSound members
  | _ => true

def elementsSound : List Json → Bool
  | [] => true
  | element :: rest => sound element && elementsSound rest

def membersSound : List (Option String × Json) → Bool
  | [] => true
  | (key, value) :: rest => key.isSome && sound value && membersSound rest

end

def int (n : Int) : Json := number (Number.ofInt n)

def string (s : String) : Json := text (some s)

def fields (members : List (String × Json)) : Json :=
  object (members.map fun (key, value) => (some key, value))

end Json

end FsMeta

import FsMeta.Json.Lexer

set_option autoImplicit false

namespace FsMeta.Json

-- Elements and members are kept latest first.
inductive Frame where
  | array (elements : List Json)
  | object (members : List (Option String × Json))
  | member (members : List (Option String × Json)) (key : Option String)

inductive Expected where
  | value
  | elementOrEnd
  | commaOrEnd
  | keyOrEnd
  | key
  | colon
  | nothing (result : Json)

structure State where
  frames : List Frame := []
  expected : Expected := .value

def State.close (value : Json) : List Frame → Option State
  | [] => some { frames := [], expected := .nothing value }
  | .array elements :: frames =>
    some { frames := .array (value :: elements) :: frames, expected := .commaOrEnd }
  | .member members key :: frames =>
    some { frames := .object ((key, value) :: members) :: frames, expected := .commaOrEnd }
  | .object _ :: _ => none

def State.begin (frames : List Frame) : Token → Option State
  | .beginArray => some { frames := .array [] :: frames, expected := .elementOrEnd }
  | .beginObject => some { frames := .object [] :: frames, expected := .keyOrEnd }
  | .null => State.close .null frames
  | .bool value => State.close (.bool value) frames
  | .number literal => State.close (.number literal) frames
  | .text content => State.close (.text content) frames
  | _ => none

def State.step (state : State) (token : Token) : Option State :=
  match state.expected, state.frames, token with
  | .value, frames, token => State.begin frames token
  | .elementOrEnd, .array elements :: frames, .endArray =>
    State.close (.array elements.reverse) frames
  | .elementOrEnd, frames, token => State.begin frames token
  | .commaOrEnd, .array elements :: frames, .comma =>
    some { frames := .array elements :: frames, expected := .value }
  | .commaOrEnd, .array elements :: frames, .endArray =>
    State.close (.array elements.reverse) frames
  | .commaOrEnd, .object members :: frames, .comma =>
    some { frames := .object members :: frames, expected := .key }
  | .commaOrEnd, .object members :: frames, .endObject =>
    State.close (.object members.reverse) frames
  | .keyOrEnd, .object members :: frames, .endObject =>
    State.close (.object members.reverse) frames
  | .keyOrEnd, .object members :: frames, .text key =>
    some { frames := .member members key :: frames, expected := .colon }
  | .key, .object members :: frames, .text key =>
    some { frames := .member members key :: frames, expected := .colon }
  | .colon, frames, .colon => some { frames, expected := .value }
  | _, _, _ => none

def State.run : State → List Token → Option Json
  | { expected := .nothing result, .. }, [] => some result
  | _, [] => none
  | state, token :: rest =>
    match state.step token with
    | some next => next.run rest
    | none => none

def parse (bytes : Bytes) : Option Json := do
  let tokens ← scan bytes
  State.run {} tokens

end FsMeta.Json

import FsMeta.Text.Utf8

set_option autoImplicit false

namespace FsMeta.Http

inductive Segment where
  | literal (text : String)
  | parameter (name : String)
  deriving Repr, DecidableEq

abbrev Pattern := List Segment

namespace Pattern

def match? : Pattern → List Bytes → Option (List (String × Bytes))
  | [], [] => some []
  | .literal text :: pattern, segment :: rest =>
    if segment = Utf8.encode text then match? pattern rest else none
  | [.parameter name], [segment] => if segment = [] then none else some [(name, segment)]
  | .parameter name :: pattern, segment :: rest => ((name, segment) :: ·) <$> match? pattern rest
  | _, _ => none

end Pattern

end FsMeta.Http

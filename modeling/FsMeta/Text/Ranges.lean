set_option autoImplicit false

namespace FsMeta

abbrev Ranges := List (Nat × Nat)

def Ranges.contains : Ranges → Nat → Bool
  | [], _ => false
  | (first, last) :: rest, point => first ≤ point && (point ≤ last || contains rest point)

end FsMeta

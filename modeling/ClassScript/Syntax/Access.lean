/-!
# Access to members
-/

namespace ClassScript

inductive Access where
  | everywhere
  /-- The class that declares the member. -/
  | ownClass
  /-- The class that declares the member and the classes that inherit from it. -/
  | subclasses
deriving Repr, DecidableEq, Inhabited

def Access.text : Access → String
  | .everywhere => "public"
  | .ownClass => "private"
  | .subclasses => "protected"

end ClassScript

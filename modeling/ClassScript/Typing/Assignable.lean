import ClassScript.Syntax.Ty
import ClassScript.Typing.Registry

/-!
# Which types fit where
-/

namespace ClassScript.Ty

/-- Whether values of type `child` are values of type `parent`. Everything is an `Object`, and a
type that admits null is a wider one. Arguments do not vary, but a type without any is not held to
those of the other, because types of values carry none. -/
def covariant (lineage : Lineage) (child parent : Ty) : Bool :=
  if child = parent then true
  else if child.nullable && !parent.nullable then false
  else if parent.name = "Object" && parent.generics.isEmpty then true
  else if !child.generics.isEmpty && child.generics ≠ parent.generics then false
  else lineage.isSubclass child.name parent.name

/-- The same relation, read from the other side. -/
def contravariant (lineage : Lineage) (parent child : Ty) : Bool :=
  covariant lineage child parent

def acceptsNull (target : Ty) : Bool :=
  target.nullable || !target.isPrimitive

/-- Whether a value of a type can be stored in a slot of the type `target`. Among the types of
values only that of the null reference is nullable. -/
def assignable (lineage : Lineage) (value target : Ty) : Bool :=
  if value.nullable then target.acceptsNull else covariant lineage value target

end ClassScript.Ty

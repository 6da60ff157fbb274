import ClassScript.Assoc

/-!
# Class names and their parents

The registry knows for each class name the parent of the class that was declared last under it.
Since inner scopes may reuse a name, the ancestors of a value come from a chain of its own where
one is known; a lineage is a registry with such chains before it.
-/

namespace ClassScript

/-- The latest class of each name, with the name of its parent. -/
structure Registry where
  parents : Assoc String (Option String)
deriving Inhabited

namespace Registry

def define (r : Registry) (name : String) (parent : Option String) : Registry :=
  ⟨r.parents.insert name parent⟩

def basic : Registry :=
  (Registry.mk {}).define "Object" none |>.define "Type" (some "Object")

def contains (r : Registry) (name : String) : Bool :=
  r.parents.contains name

def parentOf? (r : Registry) (name : String) : Option String :=
  (r.parents.get? name).join

def ancestorsWithin (r : Registry) : (budget : Nat) → (name : String) → List String
  | 0, _ => []
  | budget + 1, name =>
    match r.parentOf? name with
    | some parent => parent :: r.ancestorsWithin budget parent
    | none => []

/-- The ancestors of a name, without itself. A redefined class can be its own ancestor; the number
of classes ends the walk on such a loop. -/
def ancestors (r : Registry) (name : String) : List String :=
  r.ancestorsWithin r.parents.size name

def isSubclass (r : Registry) (descendant ancestor : String) : Bool :=
  descendant == ancestor || (r.ancestors descendant).contains ancestor

end Registry

/-- A registry, and chains of class names that precede it. A chain begins with the class that it is
about. -/
structure Lineage where
  registry : Registry
  chains : List (List String) := []

namespace Lineage

/-- The first chain about a class decides, and the registry if there is none. -/
def isSubclass (l : Lineage) (descendant ancestor : String) : Bool :=
  match l.chains.find? fun chain => chain.head? == some descendant with
  | some chain => chain.contains ancestor
  | none => l.registry.isSubclass descendant ancestor

end Lineage

end ClassScript

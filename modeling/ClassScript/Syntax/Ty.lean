/-!
# Types

A type is the name of a class, whether it admits the null reference, and its arguments. It is
written the other way round: `?<Number>List`.
-/

namespace ClassScript

structure Ty where
  name : String
  nullable : Bool := false
  generics : List Ty := []
deriving Repr, Inhabited

namespace Ty

mutual

def decEq : (a b : Ty) → Decidable (a = b)
  | ⟨name, nullable, generics⟩, ⟨name', nullable', generics'⟩ =>
    if hname : name = name' then
      if hnullable : nullable = nullable' then
        match decEqList generics generics' with
        | isTrue h => isTrue (by rw [hname, hnullable, h])
        | isFalse h => isFalse (by rintro ⟨⟩; exact h rfl)
      else isFalse (by rintro ⟨⟩; exact hnullable rfl)
    else isFalse (by rintro ⟨⟩; exact hname rfl)

def decEqList : (as bs : List Ty) → Decidable (as = bs)
  | [], [] => isTrue rfl
  | [], _ :: _ => isFalse nofun
  | _ :: _, [] => isFalse nofun
  | a :: as, b :: bs =>
    match decEq a b with
    | isTrue h =>
      match decEqList as bs with
      | isTrue hs => isTrue (by rw [h, hs])
      | isFalse hs => isFalse (by rintro ⟨⟩; exact hs rfl)
    | isFalse h => isFalse (by rintro ⟨⟩; exact h rfl)

end

instance : DecidableEq Ty := decEq

def named (name : String) : Ty := { name }

def number : Ty := named "Number"
def string : Ty := named "String"
def boolean : Ty := named "Boolean"
def function : Ty := named "Function"
def list : Ty := named "List"
def object : Ty := named "Object"

/-- The type of a class seen as a value. -/
def classType : Ty := named "Type"

def null : Ty := { object with nullable := true }

/-- The types whose values are no references. -/
def isPrimitive (t : Ty) : Bool :=
  t.name ∈ ["Number", "String", "Boolean", "Function", "List"]

mutual

def text : Ty → String
  | ⟨name, nullable, generics⟩ =>
    let mark := if nullable then "?" else ""
    match generics with
    | [] => mark ++ name
    | first :: others => mark ++ "<" ++ text first ++ textRest others ++ ">" ++ name

def textRest : List Ty → String
  | [] => ""
  | t :: ts => ", " ++ text t ++ textRest ts

end

def listText (ts : List Ty) : String :=
  ", ".intercalate (ts.map text)

end Ty

end ClassScript

import ClassScript.Fault
import ClassScript.Number.Reading
import ClassScript.Syntax.Stmt
import ClassScript.Text.Blank

/-!
# Values

Numbers, strings, booleans and functions are what they are. Lists are shared: a list value names a
cell of the store, and a write through one name shows through all. Objects are handles of the heap.
-/

namespace ClassScript

/-- The number of a frame of bindings in the store. -/
abbrev FrameId := Nat

abbrev ListId := Nat

/-- The number of a class or an instance on the heap. -/
abbrev Handle := Nat

/-- The frames that code can see: the one that it declares names in, and those around it from the
inside out. -/
structure Scope where
  inner : FrameId
  outer : List FrameId := []
deriving Repr, DecidableEq, Inhabited

namespace Scope

/-- All frames of a scope, the innermost first. -/
def frames (s : Scope) : List FrameId :=
  s.inner :: s.outer

def child (s : Scope) (inner : FrameId) : Scope :=
  ⟨inner, s.frames⟩

def parent? (s : Scope) : Option Scope :=
  match s.outer with
  | [] => none
  | inner :: outer => some ⟨inner, outer⟩

end Scope

inductive Native where
  | print
  | println
  /-- Does nothing, and has no result: the constructor of a class that declares none. -/
  | nothing
  /-- A function that the program around the interpreter provides. -/
  | host (name : String)
deriving Repr, DecidableEq

inductive Code where
  | native (function : Native)
  /-- A body, and the scope in which it was written. -/
  | script (body : Stmt) (scope : Scope)

structure Overload where
  params : List Param
  /-- Without one the result is not checked. -/
  returnType : Option Ty
  code : Code
  /-- The class that the code belongs to, if any. -/
  owner : Option String

/-- A name for a list of overloads. -/
structure Function where
  name : String := ""
  overloads : List Overload := []

inductive Value where
  | number (n : Float)
  | string (s : String)
  | boolean (b : Bool)
  | function (f : Function)
  | list (id : ListId)
  | object (handle : Handle)
  | null

instance : Inhabited Value := ⟨.null⟩

namespace Value

def isNull : Value → Bool
  | .null => true
  | _ => false

def truthy : Value → Bool
  | .number n => n != 0.0 && !n.isNaN
  | .string s => !s.isEmpty
  | .boolean b => b
  | .function _ => false
  | .list _ => true
  | .object _ => true
  | .null => false

/-- The number that a value counts as. A string has to write one, with or without blanks around
it. -/
def toNumber : Value → Except Fault Float
  | .number n => .ok n
  | .boolean b => .ok (if b then 1.0 else 0.0)
  | .string s =>
    match Number.read? (Text.trim s) with
    | some n => .ok n
    | none => .error (.notNumeric s)
  | .function _ | .list _ => .ok 0.0
  | .object _ | .null => .ok (-1.0)

/-- The type of a value that does not depend on the heap. -/
def plainTy? : Value → Option Ty
  | .number _ => some .number
  | .string _ => some .string
  | .boolean _ => some .boolean
  | .function _ => some .function
  | .list _ => some .list
  | .null => some .null
  | .object _ => none

end Value

end ClassScript

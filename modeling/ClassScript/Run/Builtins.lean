import ClassScript.Run.State

/-!
# What a program finds when it starts

The classes `Object`, `Type` and `String`, and the functions `print` and `println`.
-/

namespace ClassScript

namespace Builtin

/-- A class with a constructor that does nothing. -/
def plainClass (name : String) (parent : Option Handle) : Container :=
  let c := Container.ofClass name parent
  { c with constructors := c.constructors.push (.native [] none .nothing) }

def stringField (readonly : Bool) (text : String) : Member :=
  { access := .everywhere, ty := .string, value := .string text, owner := "String",
    form := .field readonly }

def stringClass (parent : Handle) : Container :=
  { plainClass "String" (some parent) with
    members := ⟨[("empty", stringField true "")]⟩
    statics := ⟨[("hello", stringField false "Hello")]⟩ }

/-- A function that prints one value. Everything fits the last overload. -/
def printer (name : String) (code : Native) : Function :=
  { name
    overloads := [Ty.string, .number, .boolean, .object].map fun ty =>
      .native [{ name := "text", ty }] none code }

def heap : Heap :=
  ⟨#[some (plainClass "Object" none), some (plainClass "Type" (some 0)), some (stringClass 0)]⟩

def frame : Frame :=
  let cls (handle : Handle) : Binding := ⟨.classType, .object handle, true⟩
  let function (f : Function) : Binding := ⟨.function, .function f, false⟩
  ⟨[("Object", cls 0), ("Type", cls 1), ("String", cls 2),
    ("print", function (printer "print" .print)),
    ("println", function (printer "println" .println))]⟩

end Builtin

namespace State

/-- The start of a program beside frames and lists that values outside it may still use. -/
def startBeside (frames : Frames) (lists : Lists) : State :=
  { frames := frames.push Builtin.frame, lists, heap := Builtin.heap
    registry := Registry.basic, globals := { inner := frames.size }
    objectClass := 0, typeClass := 1 }

def start : State :=
  startBeside #[] #[]

def restart (s : State) : State :=
  { startBeside s.frames s.lists with sink := s.sink, kept := s.kept }

end State

end ClassScript

import ClassScript.Store.Collect
import ClassScript.Text.EditDistance
import ClassScript.Value.Overloads

/-!
# The state of a run

Everything that statements can read and change, and the questions that can be asked of it without
running code.
-/

namespace ClassScript

/-- Where output goes: the text since it was last taken, and how many bytes there were in all. -/
structure Sink where
  text : String := ""
  written : Nat := 0
  /-- No write may bring the number of bytes over this. -/
  limit : Option Nat := none

/-- Add a text; a sink takes all of it or nothing. -/
def Sink.write (s : Sink) (text : String) : Except Fault Sink :=
  let written := s.written + text.utf8ByteSize
  if s.limit.any (· < written) then .error (.outputFailed "sink is full")
  else .ok { s with text := s.text ++ text, written }

structure State extends Store where
  registry : Registry
  /-- The scope of the whole program. -/
  globals : Scope
  /-- The class that other classes inherit from. -/
  objectClass : Handle
  /-- The class of classes. -/
  typeClass : Handle
  /-- How many calls are running. -/
  callDepth : Nat := 0
  /-- The class that each piece of running code belongs to, the innermost first. -/
  context : List (Option String) := []
  sink : Sink := {}
  /-- A value that the host keeps. Programs cannot reach it. -/
  kept : Option Value := none

namespace State

def currentClass (s : State) : Option String :=
  s.context.head?.join

def typeOf (s : State) (value : Value) : Except Fault Ty :=
  match value with
  | .object handle => return (← s.heap.get handle).ty
  | _ => return value.plainTy?.getD .object

/-- The registry with the class chains of values before it. -/
def lineageOf (s : State) (values : List Value) : Except Fault Lineage := do
  let chains ← values.filterMapM fun value =>
    match value with
    | .object handle => s.heap.classChain handle
    | _ => .ok none
  return { registry := s.registry, chains }

def fits (s : State) (value : Value) (valueTy target : Ty) : Except Fault Bool := do
  return Ty.assignable (← s.lineageOf [value]) valueTy target

def leafText (s : State) : Value → Except Fault String
  | .number n => .ok (Number.printed.text n)
  | .string t => .ok t
  | .boolean b => .ok (if b then "true" else "false")
  | .function f => .ok (if f.name.isEmpty then "[function]" else s!"[function {f.name}]")
  | .object handle => do
    let c ← s.heap.get handle
    return if c.isClass then s!"[class {c.name}]" else s!"[object {c.name}]"
  | .null => .ok "null"
  | .list _ => .ok "[...]"

def listText (items : List String) : String :=
  "[ " ++ ", ".intercalate items ++ " ]"

def textOf (s : State) (value : Value) : Except Fault String :=
  s.lists.render s.leafText listText s.lists.size [] value

/-- The fault of a name that nothing binds, with a name that was perhaps meant. -/
def undefinedName (s : State) (scope : Scope) (name : String) : Fault :=
  let threshold := (name.utf8ByteSize + 2) / 3
  .notDefined name (Text.nearestName name threshold (s.frames.visibleNames scope))

/-- Drop the containers that the program cannot reach any more. The second part is their number. -/
def collectGarbage (s : State) : State × Nat :=
  let (store, dropped) := s.toStore.collect s.globals [s.objectClass, s.typeClass]
  ({ s with toStore := store }, dropped)

end State

end ClassScript

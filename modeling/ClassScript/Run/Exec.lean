import ClassScript.Run.State

/-!
# Actions

An action changes the state and has a result, or it halts. What an action did before it halted stays
done. An action can halt because of a fault, or because it was given too little fuel: then nothing
is known about what it would do with more.
-/

namespace ClassScript

inductive Halt where
  | fault (f : Fault)
  | outOfFuel

abbrev Exec := EStateM Halt State

/-- How a statement ends: at its end, with the value of a last expression, or by a `return` on its
way to the call around it. -/
inductive Flow where
  | normal (value : Option Value)
  | returned (value : Option Value)

namespace Exec

variable {α : Type}

def fault (f : Fault) : Exec α :=
  throw (.fault f)

def ask (question : State → Except Fault α) : Exec α := fun s =>
  match question s with
  | .ok a => .ok a s
  | .error f => .error (.fault f) s

def ofExcept (result : Except Fault α) : Exec α :=
  ask fun _ => result

/-- Run an action between two changes of the state; the second comes also when the action halts. -/
def between (enter leave : State → State) (action : Exec α) : Exec α := fun s =>
  match action (enter s) with
  | .ok a s => .ok a (leave s)
  | .error h s => .error h (leave s)

def deeper (action : Exec α) : Exec α :=
  between (fun s => { s with callDepth := s.callDepth + 1 })
    (fun s => { s with callDepth := s.callDepth - 1 }) action

def asCodeOf (owner : Option String) (action : Exec α) : Exec α :=
  between (fun s => { s with context := owner :: s.context })
    (fun s => { s with context := s.context.tail }) action

/-- The same action, with room of its own for the calls that it makes. -/
def withRoom (action : Exec α) : Exec α := fun s =>
  (Task.spawn (fun _ => action s) .dedicated).get

def callsPerRoom : Nat := 100

/-- The same action, with room of its own after every so many calls. -/
def roomy (action : Exec α) : Exec α := fun s =>
  if s.callDepth % callsPerRoom = 0 then withRoom action s else action s

theorem roomy_eq (action : Exec α) : roomy action = action := by
  funext s
  unfold roomy withRoom
  split <;> rfl

def newScope (scope : Scope) : Exec Scope := fun s =>
  .ok (scope.child s.frames.size) { s with frames := s.frames.push {} }

def newList (items : List Value) : Exec Value := fun s =>
  .ok (.list s.lists.size) { s with lists := s.lists.push items.toArray }

def alloc (c : Container) : Exec Handle := fun s =>
  let (handle, heap) := s.heap.alloc c
  .ok handle { s with heap }

/-- Bind a name in a frame, whatever it was bound to before. -/
def define (id : FrameId) (name : String) (b : Binding) : Exec Unit :=
  modify fun s => { s with frames := s.frames.define id name b }

def rebind (id : FrameId) (name : String) (rule : State → Except Fault Binding) : Exec Unit := do
  define id name (← ask rule)

def write (text : String) : Exec Unit := fun s =>
  match s.sink.write text with
  | .ok sink => .ok () { s with sink }
  | .error f => .error (.fault f) s

def defaultValue (scope : Scope) (ty : Ty) : Exec Value := do
  if ty.nullable then return .null
  match ty.name with
  | "Number" => return .number 0.0
  | "String" => return .string ""
  | "Boolean" => return .boolean false
  | "List" => newList []
  | "Function" => return .function {}
  | name =>
    let s ← get
    if s.frames.contains scope name || s.registry.contains name then return .null
    else fault (s.undefinedName scope name)

end Exec

end ClassScript

import ClassScript.Run.Call

/-!
# Objects

Construction, and access to members. An instance has its own members and sees the statics of its
class and of the ancestors of that class.
-/

namespace ClassScript

structure MemberSlot where
  handle : Handle
  isStatic : Bool

namespace State

def memberHandle (s : State) (object : Value) (name : String) : Except Fault Handle :=
  match object with
  | .object handle => .ok handle
  | .null => .error (.nullMember name)
  | value => do .error (.noMember name (← s.typeOf value).text)

/-- A member of a container: of the instance itself, or a static one. -/
def locate (s : State) (handle : Handle) (name : String) : Except Fault (MemberSlot × Member) := do
  let c ← s.heap.get handle
  let own := if c.isClass then none else c.members.get? name
  match own with
  | some m => return (⟨handle, false⟩, m)
  | none =>
    match ← s.heap.findStatic (c.classHandle handle) name with
    | none => throw (.noMember name c.name)
    | some owner =>
      match (← s.heap.get owner).statics.get? name with
      | some m => return (⟨owner, true⟩, m)
      | none => throw (.noMember name c.name)

def mayAccess (s : State) (m : Member) : Bool :=
  match m.access with
  | .everywhere => true
  | .ownClass => s.currentClass == some m.owner
  | .subclasses => s.currentClass.any fun c => s.registry.isSubclass c m.owner

def checkAccess (s : State) (m : Member) (name : String) : Except Fault Unit :=
  if s.mayAccess m then .ok () else .error (.inaccessible m.owner name m.access)

def accessed (s : State) (object : Value) (name : String) :
    Except Fault (Handle × MemberSlot × Member) := do
  let handle ← s.memberHandle object name
  let (slot, m) ← s.locate handle name
  s.checkAccess m name
  return (handle, slot, m)

end State

namespace Container

def table (c : Container) (isStatic : Bool) : Assoc String Member :=
  if isStatic then c.statics else c.members

def setTable (c : Container) (isStatic : Bool) (members : Assoc String Member) : Container :=
  if isStatic then { c with statics := members } else { c with members }

def setValue (c : Container) (isStatic : Bool) (name : String) (value : Value) : Container :=
  match (c.table isStatic).get? name with
  | some m => c.setTable isStatic ((c.table isStatic).insert name { m with value })
  | none => c

end Container

namespace Evaluator

open Exec

def store (slot : MemberSlot) (name : String) (value : Value) : Exec Unit := do
  let c ← ask (·.heap.get slot.handle)
  if (c.table slot.isStatic).contains name then
    modify fun s =>
      { s with heap := s.heap.modify slot.handle fun c => c.setValue slot.isStatic name value }
  else fault (.noMember name c.name)

/-- Run the body of an accessor. The result is what the body produced and the value that it left
behind as `field`. -/
def runAccessorBody (ev : Evaluator) (code : AccessorCode) (scope : Scope) (field : Value) :
    Exec (Option Value × Value) := do
  let flow ← deeper (roomy (asCodeOf code.owner (ev.exec scope code.body)))
  let s ← get
  let field := ((s.frames.local? scope.inner "field").map Binding.value).getD field
  match flow with
  | .returned value | .normal value => return (value, field)

/-- Run an accessor with `this`, the cached value as `field` and, for a setter, the new `value`. -/
def runAccessor (ev : Evaluator) (code : AccessorCode) (this : Value) (ty : Ty) (field : Value)
    (value : Option Value) : Exec (Option Value × Value) := do
  checkDepth ev
  let scope ← newScope code.scope
  bindThis scope this
  define scope.inner "field" ⟨ty, field, false⟩
  if let some value := value then define scope.inner "value" ⟨ty, value, false⟩
  runAccessorBody ev code scope field

def memberGet (ev : Evaluator) (object : Value) (name : String) : Exec Value := do
  let (_, slot, m) ← ask (·.accessed object name)
  match m.form with
  | .property (some getter) _ =>
    let (produced, field) ← runAccessor ev getter object m.ty m.value none
    store slot name field
    return produced.getD field
  | _ => return m.value

def memberSet (ev : Evaluator) (object : Value) (name : String) (value : Value) : Exec Value := do
  let (handle, slot, m) ← ask (·.accessed object name)
  let typeName := (← ask (·.heap.get handle)).name
  if m.readonly then fault (.constantMember typeName name)
  let valueTy ← ask (·.typeOf value)
  unless ← ask (·.fits value valueTy m.ty) do
    fault (.notStorable valueTy .field name m.ty)
  match m.form with
  | .field _ => store slot name value
  | .property _ none => fault (.readOnlyProperty typeName name)
  | .property _ (some setter) =>
    let (_, field) ← runAccessor ev setter object m.ty m.value (some value)
    store slot name field
  return value

def newInstance (cls : Container) (handle : Handle) : Exec Handle := fun s =>
  let (c, lists) := cls.instantiate handle s.lists
  alloc c { s with lists }

def construct (ev : Evaluator) (cls : Handle) (args : List Value) : Exec Value := do
  -- an argument that is gone is the first thing to be noticed
  let _ ← ask fun s => args.mapM s.typeOf
  let c ← ask (·.heap.get cls)
  let o ← select c.constructors args
  let this := Value.object (← newInstance c cls)
  let _ ← invoke ev c.name o args (some this)
  return this

end Evaluator

end ClassScript

import ClassScript.Run.Object

/-!
# Class declarations

A class starts with the members and operators of its parent. What its body declares takes their
place; only methods and operators can be declared twice in one body, and then they gain overloads.
-/

namespace ClassScript

/-- A class in the making, and what its body has declared so far. -/
structure Draft where
  cls : Container
  members : List String := []
  statics : List String := []
  binaryOps : List BinOp := []
  unaryOps : List UnOp := []

namespace Draft

def declared (d : Draft) (isStatic : Bool) : List String :=
  if isStatic then d.statics else d.members

def put (d : Draft) (isStatic : Bool) (name : String) (m : Member) : Draft :=
  let cls := d.cls.setTable isStatic ((d.cls.table isStatic).insert name m)
  if isStatic then { d with cls, statics := name :: d.statics }
  else { d with cls, members := name :: d.members }

def insert (d : Draft) (isStatic : Bool) (name : String) (m : Member) : Except Fault Draft :=
  if name ∈ d.declared isStatic then .error (.duplicateMember name d.cls.name)
  else .ok (d.put isStatic name m)

/-- The function that a method of a name adds to: the one that the body has declared, or a new
one. -/
def methodFunction (d : Draft) (isStatic : Bool) (name : String) : Except Fault Function :=
  if name ∈ d.declared isStatic then
    match (d.cls.table isStatic).get? name with
    | some { form := .field _, value := .function f, .. } => .ok f
    | some _ => .error (.duplicateMember name d.cls.name)
    | none => .ok { name }
  else .ok { name }

def addMethod (d : Draft) (access : Access) (isStatic : Bool) (name : String) (o : Overload) :
    Except Fault Draft := do
  let f ← (← d.methodFunction isStatic name).add o
  return d.put isStatic name
    { access, ty := .function, value := .function f, owner := d.cls.name, form := .field true }

def addConstructor (d : Draft) (o : Overload) : Except Fault Draft := do
  return { d with cls := { d.cls with constructors := ← d.cls.constructors.add o } }

/-- Declare an overload of a binary operator; the first one in a body replaces what was
inherited. -/
def addBinary (d : Draft) (op : BinOp) (name : String) (o : Overload) : Except Fault Draft := do
  let existing := if op ∈ d.binaryOps then d.cls.binaryOps.get? op else none
  let f ← (existing.getD { name }).add o
  return { d with
    cls := { d.cls with binaryOps := d.cls.binaryOps.insert op f }
    binaryOps := op :: d.binaryOps }

def addUnary (d : Draft) (op : UnOp) (name : String) (o : Overload) : Except Fault Draft := do
  let existing := if op ∈ d.unaryOps then d.cls.unaryOps.get? op else none
  let f ← (existing.getD { name }).add o
  return { d with
    cls := { d.cls with unaryOps := d.cls.unaryOps.insert op f }
    unaryOps := op :: d.unaryOps }

/-- A class without a constructor gets one that does nothing. -/
def finished (d : Draft) : Container :=
  if d.cls.constructors.overloads.isEmpty then
    { d.cls with constructors := d.cls.constructors.push (.native [] none .nothing) }
  else d.cls

end Draft

namespace State

/-- The overload that a declaration makes in a scope. It belongs to the class whose code declares
it. -/
def overload (s : State) (scope : Scope) (decl : FunctionDecl) : Overload :=
  { params := decl.params, returnType := decl.returnType, code := .script decl.body scope,
    owner := s.currentClass }

def accessor (s : State) (scope : Scope) (decl : FunctionDecl) : AccessorCode :=
  { body := decl.body, scope, owner := s.currentClass }

def baseClass (s : State) (scope : Scope) (name : String) : Except Fault Handle :=
  match s.frames.get? scope name with
  | none => .error (s.undefinedName scope name)
  | some (.object handle) => do
    if (← s.heap.get handle).isClass then return handle else throw (.notAClass name)
  | some _ => .error (.notAClass name)

/-- The only class among the bases of a class, if there is any. -/
def parentOf (s : State) (scope : Scope) (name : String) :
    (found : Option Handle) → List Ty → Except Fault (Option Handle)
  | found, [] => .ok found
  | found, base :: bases => do
    let handle ← s.baseClass scope base.name
    match found with
    | some existing => throw (.multipleInheritance name (← s.heap.get existing).name)
    | none => s.parentOf scope name (some handle) bases

end State

namespace Evaluator

open Exec

def initialValue (ev : Evaluator) (scope : Scope) (name : String) (ty : Option Ty)
    (value : Option Expr) : Exec (Ty × Value) := do
  match ty, value with
  | none, none => return (.null, .null)
  | some ty, none => return (ty, ← defaultValue scope ty)
  | none, some e =>
    let value ← ev.eval scope e
    return (← ask (·.typeOf value), value)
  | some ty, some e =>
    let value ← ev.eval scope e
    let valueTy ← ask (·.typeOf value)
    unless ← ask (·.fits value valueTy ty) do
      fault (.notStorable valueTy .field name ty)
    return (ty, value)

def addMember (ev : Evaluator) (scope : Scope) (d : Draft) (m : MemberDecl) : Exec Draft := do
  let owner := d.cls.name
  match m.body with
  | .field name readonly ty value =>
    let (ty, value) ← initialValue ev scope name ty value
    ofExcept (d.insert m.isStatic name
      { access := m.access, ty, value, owner, form := .field readonly })
  | .property name ty getter setter value =>
    let (ty, value) ← initialValue ev scope name ty value
    let s ← get
    let form := .property (getter.map (s.accessor scope)) (setter.map (s.accessor scope))
    ofExcept (d.insert m.isStatic name { access := m.access, ty, value, owner, form })
  | .method decl => ask fun s => d.addMethod m.access m.isStatic decl.name (s.overload scope decl)
  | .constructor decl => ask fun s => d.addConstructor (s.overload scope decl)
  | .binary op decl => ask fun s => d.addBinary op decl.name (s.overload scope decl)
  | .unary op decl => ask fun s => d.addUnary op decl.name (s.overload scope decl)

def addMembers (ev : Evaluator) (scope : Scope) : Draft → List MemberDecl → Exec Draft
  | d, [] => return d
  | d, m :: ms => do addMembers ev scope (← addMember ev scope d m) ms

def inherit (name : String) (handle : Handle) (parent : Container) : Draft :=
  { cls := { Container.ofClass name (some handle) with
      members := parent.members, binaryOps := parent.binaryOps, unaryOps := parent.unaryOps } }

def defineClass (ev : Evaluator) (scope : Scope) (decl : ClassDecl) (handle : Handle)
    (parent : Container) : Exec Unit := do
  let draft ← asCodeOf (some decl.name)
    (addMembers ev scope (inherit decl.name handle parent) decl.members)
  let cls ← alloc draft.finished
  rebind scope.inner decl.name fun s =>
    s.frames.newConstant scope.inner decl.name .classType (.object cls)

/-- Declare a class. The registry knows its name as soon as its bases are known, since its body may
use it. -/
def declareClass (ev : Evaluator) (scope : Scope) (decl : ClassDecl) : Exec Unit := do
  let s ← get
  if (s.frames.local? scope.inner decl.name).isSome then fault (.alreadyDefined decl.name)
  let handle := (← ask (·.parentOf scope decl.name none decl.bases)).getD s.objectClass
  let parent ← ask (·.heap.get handle)
  modify fun s => { s with registry := s.registry.define decl.name (some parent.name) }
  defineClass ev scope decl handle parent

end Evaluator

end ClassScript

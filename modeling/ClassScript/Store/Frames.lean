import ClassScript.Assoc
import ClassScript.Typing.Assignable
import ClassScript.Value.Basic

/-!
# Bindings and scopes

A frame binds names; a scope has the frames that code can see, from the inside out. A name belongs
to the first frame of the scope that binds it.
-/

namespace ClassScript

structure Binding where
  /-- The declared type; every later value has to fit it. -/
  ty : Ty
  value : Value
  immutable : Bool
deriving Inhabited

abbrev Frame := Assoc String Binding

/-- All frames of a run; a new one gets the next number. -/
abbrev Frames := Array Frame

namespace Frames

def local? (fs : Frames) (id : FrameId) (name : String) : Option Binding :=
  fs[id]?.bind fun frame => frame.get? name

/-- The frame that a name belongs to. -/
def owner? (fs : Frames) (scope : Scope) (name : String) : Option FrameId :=
  scope.frames.find? fun id => (fs.local? id name).isSome

def get? (fs : Frames) (scope : Scope) (name : String) : Option Value :=
  (scope.frames.findSome? fun id => fs.local? id name).map Binding.value

def contains (fs : Frames) (scope : Scope) (name : String) : Bool :=
  scope.frames.any fun id => (fs.local? id name).isSome

def sorted (fs : Frames) (id : FrameId) : List (String × Binding) :=
  match fs[id]? with
  | some frame => frame.entries.mergeSort fun a b => decide (a.1 ≤ b.1)
  | none => []

/-- The names that a scope can see, those of inner frames first. -/
def visibleNames (fs : Frames) (scope : Scope) : List String :=
  scope.frames.flatMap fun id => (fs.sorted id).map Prod.fst

/-- Bind a name in a frame, whatever it was bound to before. -/
def define (fs : Frames) (id : FrameId) (name : String) (b : Binding) : Frames :=
  fs.modify id fun frame => frame.insert name b

/-! ## Declarations and assignments

Each of them finds the binding that a name gets, or the fault that prevents it. -/

/-- The binding of a declared variable. A frame may declare a variable again, with the same type. -/
def newVariable (fs : Frames) (id : FrameId) (name : String) (ty : Ty) (value : Value) :
    Except Fault Binding :=
  match fs.local? id name with
  | some existing =>
    if existing.immutable then .error (.alreadyDefined name)
    else if existing.ty ≠ ty then .error (.redeclared name ty existing.ty)
    else .ok ⟨ty, value, false⟩
  | none => .ok ⟨ty, value, false⟩

/-- The binding of a declared constant; the name has to be new in the frame. -/
def newConstant (fs : Frames) (id : FrameId) (name : String) (ty : Ty) (value : Value) :
    Except Fault Binding :=
  match fs.local? id name with
  | some _ => .error (.alreadyDefined name)
  | none => .ok ⟨ty, value, true⟩

def assigned (fs : Frames) (lineage : Lineage) (id : FrameId) (name : String) (valueTy : Ty)
    (value : Value) : Except Fault Binding :=
  match fs.local? id name with
  | none => .error (.notDefined name none)
  | some b =>
    if b.immutable then .error (.redefinedConstant name)
    else if Ty.assignable lineage valueTy b.ty then .ok { b with value }
    else .error (.notStorable valueTy .variable name b.ty)

def declare (fs : Frames) (id : FrameId) (name : String) (ty : Ty) (value : Value) :
    Except Fault Frames :=
  fs.define id name <$> fs.newVariable id name ty value

def declareConstant (fs : Frames) (id : FrameId) (name : String) (ty : Ty) (value : Value) :
    Except Fault Frames :=
  fs.define id name <$> fs.newConstant id name ty value

def assign (fs : Frames) (lineage : Lineage) (id : FrameId) (name : String) (valueTy : Ty)
    (value : Value) : Except Fault Frames :=
  fs.define id name <$> fs.assigned lineage id name valueTy value

/-! ## What a frame binds -/

theorem local?_eq_some {fs : Frames} {id : FrameId} {name : String} {b : Binding}
    (h : fs.local? id name = some b) : ∃ frame, fs[id]? = some frame ∧ b ∈ frame.values := by
  obtain ⟨frame, hframe, hb⟩ := Option.bind_eq_some_iff.mp h
  exact ⟨frame, hframe, Assoc.mem_values_of_get? hb⟩

theorem getElem?_define (fs : Frames) (id : FrameId) (name : String) (b : Binding) (i : FrameId) :
    (fs.define id name b)[i]? = if id = i then fs[i]?.map (·.insert name b) else fs[i]? := by
  rw [define, Array.getElem?_modify]

@[simp]
theorem size_define (fs : Frames) (id : FrameId) (name : String) (b : Binding) :
    (fs.define id name b).size = fs.size := by
  rw [define, Array.size_modify]

end Frames

end ClassScript

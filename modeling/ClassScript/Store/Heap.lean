import ClassScript.Assoc
import ClassScript.Store.Lists

/-!
# The heap

Classes and instances, by handle. Handles are given out in order and never twice; a container that
was swept away leaves its handle empty.
-/

namespace ClassScript

structure AccessorCode where
  body : Stmt
  scope : Scope
  owner : Option String

inductive MemberForm where
  /-- A method is a readonly field that holds a function. -/
  | field (readonly : Bool)
  /-- The value is what the accessors see as `field`. -/
  | property (getter setter : Option AccessorCode)

def MemberForm.accessors : MemberForm → List AccessorCode
  | .field _ => []
  | .property getter setter => getter.toList ++ setter.toList

structure Member where
  access : Access
  ty : Ty
  value : Value
  /-- The class that declares the member. -/
  owner : String
  form : MemberForm

def Member.readonly (m : Member) : Bool :=
  match m.form with
  | .field readonly => readonly
  | .property .. => false

inductive ContainerKind where
  | classOf (parent : Option Handle)
  | instanceOf (cls : Handle)
deriving Repr, DecidableEq

structure Container where
  name : String
  kind : ContainerKind
  /-- An instance has none. -/
  constructors : Function := {}
  /-- For a class, what its instances start with. -/
  members : Assoc String Member := {}
  /-- An instance has none. -/
  statics : Assoc String Member := {}
  binaryOps : Assoc BinOp Function := {}
  unaryOps : Assoc UnOp Function := {}

namespace Container

def ofClass (name : String) (parent : Option Handle) : Container :=
  { name, kind := .classOf parent, constructors := { name } }

def isClass (c : Container) : Bool :=
  match c.kind with
  | .classOf _ => true
  | .instanceOf _ => false

/-- The class that has the operators and statics of this container, which itself has the handle
`own`. -/
def classHandle (c : Container) (own : Handle) : Handle :=
  match c.kind with
  | .classOf _ => own
  | .instanceOf cls => cls

def parent? (c : Container) : Option Handle :=
  match c.kind with
  | .classOf parent => parent
  | .instanceOf _ => none

def ty (c : Container) : Ty :=
  match c.kind with
  | .classOf _ => .classType
  | .instanceOf _ => .named c.name

/-- Copies of members for a new instance; each has lists of its own. -/
def copyMembers : List (String × Member) → Lists → List (String × Member) × Lists
  | [], ls => ([], ls)
  | (name, m) :: members, ls =>
    let (value, ls) := ls.copy m.value
    let (members, ls) := copyMembers members ls
    ((name, { m with value }) :: members, ls)

def instantiate (cls : Container) (handle : Handle) (ls : Lists) : Container × Lists :=
  let (members, ls) := copyMembers cls.members.entries ls
  ({ name := cls.name, kind := .instanceOf handle, members := ⟨members⟩ }, ls)

end Container

/-- Containers by handle; the next handle is the size of the array. -/
structure Heap where
  slots : Array (Option Container) := #[]

namespace Heap

def get (h : Heap) (handle : Handle) : Except Fault Container :=
  match h.slots[handle]? with
  | some (some c) => .ok c
  | _ => .error (.missingObject handle)

def alloc (h : Heap) (c : Container) : Handle × Heap :=
  (h.slots.size, ⟨h.slots.push (some c)⟩)

def modify (h : Heap) (handle : Handle) (f : Container → Container) : Heap :=
  ⟨h.slots.modify handle fun slot => slot.map f⟩

def toList (h : Heap) : List (Handle × Container) :=
  h.slots.toList.zipIdx.filterMap fun (slot, handle) => slot.map (handle, ·)

def size (h : Heap) : Nat :=
  h.slots.foldl (fun n slot => if slot.isSome then n + 1 else n) 0

/-- The nearest class, from `handle` up, with a static member of a name. No chain of parents is
longer than the heap. -/
def findStaticWithin (h : Heap) (name : String) :
    (bound : Nat) → Handle → Except Fault (Option Handle)
  | 0, _ => .ok none
  | bound + 1, handle => do
    let c ← h.get handle
    if c.statics.contains name then return some handle
    match c.parent? with
    | some parent => h.findStaticWithin name bound parent
    | none => return none

def findStatic (h : Heap) (handle : Handle) (name : String) : Except Fault (Option Handle) :=
  h.findStaticWithin name (h.slots.size + 1) handle

def namesWithin (h : Heap) : (bound : Nat) → Handle → Except Fault (List String)
  | 0, _ => .ok []
  | bound + 1, handle => do
    let c ← h.get handle
    match c.parent? with
    | some parent => return c.name :: (← h.namesWithin bound parent)
    | none => return [c.name]

/-- The names of the class of an instance and of the ancestors of that class, the nearest first;
`none` for a class. -/
def classChain (h : Heap) (handle : Handle) : Except Fault (Option (List String)) := do
  match (← h.get handle).kind with
  | .instanceOf cls => return some (← h.namesWithin (h.slots.size + 1) cls)
  | .classOf _ => return none

def sweep (h : Heap) (keep : Handle → Bool) : Heap :=
  ⟨h.slots.mapIdx fun handle slot => if keep handle then slot else none⟩

/-! ## What a handle stands for -/

theorem get_eq_ok_iff {h : Heap} {handle : Handle} {c : Container} :
    h.get handle = .ok c ↔ h.slots[handle]? = some (some c) := by
  unfold get
  split <;> simp_all

theorem mem_toList {h : Heap} {handle : Handle} {c : Container} :
    (handle, c) ∈ h.toList ↔ h.get handle = .ok c := by
  simp [toList, List.mem_filterMap, List.mem_zipIdx_iff_getElem?, get_eq_ok_iff]

theorem lt_size_of_get {h : Heap} {handle : Handle} {c : Container} (hc : h.get handle = .ok c) :
    handle < h.slots.size :=
  (Array.getElem?_eq_some_iff.mp (get_eq_ok_iff.mp hc)).1

theorem get_alloc (h : Heap) (c : Container) (handle : Handle) :
    (h.alloc c).2.get handle = if handle = h.slots.size then .ok c else h.get handle := by
  simp only [alloc, get, Array.getElem?_push]
  by_cases hnew : handle = h.slots.size <;> simp [hnew]

theorem get_alloc_self (h : Heap) (c : Container) : (h.alloc c).2.get h.slots.size = .ok c := by
  rw [get_alloc, if_pos rfl]

theorem get_modify (h : Heap) (handle : Handle) (f : Container → Container) (i : Handle) :
    (h.modify handle f).get i = if handle = i then (h.get i).map f else h.get i := by
  simp only [modify, get, Array.getElem?_modify]
  by_cases hi : handle = i
  · rw [if_pos hi, if_pos hi]
    cases h.slots[i]? with
    | none => rfl
    | some slot => cases slot <;> rfl
  · rw [if_neg hi, if_neg hi]

@[simp]
theorem size_slots_modify (h : Heap) (handle : Handle) (f : Container → Container) :
    (h.modify handle f).slots.size = h.slots.size := by
  simp [modify]

theorem get_sweep (h : Heap) (keep : Handle → Bool) (handle : Handle) :
    (h.sweep keep).get handle =
      if keep handle then h.get handle else .error (.missingObject handle) := by
  simp only [sweep, get, Array.getElem?_mapIdx]
  cases h.slots[handle]? with
  | none => simp
  | some slot => cases keep handle <;> simp

end Heap

end ClassScript

import ClassScript.Proofs.StoreGraph
import ClassScript.Run.ClassBody

/-!
# What running code can get to

A horizon tells which points of the store code can get to. Points that were garbage at some moment
are stale from then on: the store may still have them, but nothing that code holds leads to them.
Beside that, a horizon says whether everything within it has to be there, and which functions that
are not written in the language code may hold.

A value, a member or a container is within a horizon when everything it refers to is. A state is
closed when no point within the horizon leads out of it.
-/

namespace ClassScript

/-- Which points of the store code can get to, and what else can be said about a run. -/
structure Horizon where
  /-- Points that code cannot get to. -/
  stale : Node → Prop
  /-- Whether all points that are not stale are there. -/
  sound : Prop
  /-- The functions outside the language that code may hold. -/
  native : Native → Prop
  /-- After such a halt nothing is said about the rest of a run. -/
  cut : Halt → Prop
  /-- Whether the host may do to a state what no code does. Then nothing is known of the store. -/
  foreign : Prop
  not_stale : foreign → ∀ n, ¬ stale n
  not_sound : foreign → ¬ sound
  all_native : foreign → ∀ f, native f

namespace Node

def Present (s : State) : Node → Prop
  | .container handle => ∃ c, s.heap.get handle = .ok c
  | .list id => id < s.lists.size
  | .frame id => id < s.frames.size

/-- Whether the number of a point was ever given out. -/
def InRange (s : State) : Node → Prop
  | .container handle => handle < s.heap.slots.size
  | .list id => id < s.lists.size
  | .frame id => id < s.frames.size

theorem Present.inRange {s : State} {n : Node} (h : n.Present s) : n.InRange s := by
  cases n with
  | container handle =>
      obtain ⟨c, hc⟩ := h
      exact Heap.lt_size_of_get hc
  | list id => exact h
  | frame id => exact h

def Within (H : Horizon) (s : State) (n : Node) : Prop :=
  ¬ H.stale n ∧ (H.sound → n.Present s)

end Node

namespace State

def Keeps (s t : State) : Prop :=
  ∀ n : Node, n.Present s → n.Present t

theorem Keeps.refl (s : State) : s.Keeps s :=
  fun _ h => h

theorem Keeps.trans {s t u : State} (hst : s.Keeps t) (htu : t.Keeps u) : s.Keeps u :=
  fun n h => htu n (hst n h)

end State

def Horizon.Keeps (H : Horizon) (s t : State) : Prop :=
  H.sound → s.Keeps t

theorem Horizon.Keeps.refl {H : Horizon} (s : State) : H.Keeps s s :=
  fun _ => .refl s

theorem Horizon.Keeps.trans {H : Horizon} {s t u : State} (hst : H.Keeps s t)
    (htu : H.Keeps t u) : H.Keeps s u :=
  fun hsound => (hst hsound).trans (htu hsound)

section Within

variable (H : Horizon) (s : State)

def Scope.Within (scope : Scope) : Prop :=
  ∀ id ∈ scope.frames, (Node.frame id).Within H s

def Code.Within : Code → Prop
  | .native f => H.native f
  | .script _ scope => scope.Within H s

def Function.Within (f : Function) : Prop :=
  ∀ o ∈ f.overloads, o.code.Within H s

def Value.Within : Value → Prop
  | .object handle => (Node.container handle).Within H s
  | .list id => (Node.list id).Within H s
  | .function f => f.Within H s
  | .number _ | .string _ | .boolean _ | .null => True

structure Member.Within (m : Member) : Prop where
  value : m.value.Within H s
  accessors : ∀ a ∈ m.form.accessors, a.scope.Within H s

structure Container.Within (c : Container) : Prop where
  above : ∀ handle, c.kind.above? = some handle → (Node.container handle).Within H s
  constructors : c.constructors.Within H s
  members : ∀ m ∈ c.members.values, m.Within H s
  statics : ∀ m ∈ c.statics.values, m.Within H s
  binaryOps : ∀ f ∈ c.binaryOps.values, f.Within H s
  unaryOps : ∀ f ∈ c.unaryOps.values, f.Within H s

end Within

section Mono

variable {H : Horizon} {s t : State}

/-! What is within the horizon stays there as the store grows. -/

theorem Node.Within.mono (hst : H.Keeps s t) {n : Node} (h : n.Within H s) : n.Within H t :=
  ⟨h.1, fun hsound => hst hsound n (h.2 hsound)⟩

theorem Scope.Within.mono (hst : H.Keeps s t) {scope : Scope} (h : scope.Within H s) :
    scope.Within H t :=
  fun id hid => (h id hid).mono hst

theorem Code.Within.mono (hst : H.Keeps s t) {code : Code} (h : code.Within H s) :
    code.Within H t := by
  cases code with
  | native f => exact h
  | script body scope => exact Scope.Within.mono hst h

theorem Function.Within.mono (hst : H.Keeps s t) {f : Function} (h : f.Within H s) :
    f.Within H t :=
  fun o ho => (h o ho).mono hst

theorem Value.Within.mono (hst : H.Keeps s t) {v : Value} (h : v.Within H s) : v.Within H t := by
  cases v with
  | object handle => exact Node.Within.mono hst h
  | list id => exact Node.Within.mono hst h
  | function f => exact Function.Within.mono hst h
  | number _ | string _ | boolean _ | null => trivial

theorem Member.Within.mono (hst : H.Keeps s t) {m : Member} (h : m.Within H s) : m.Within H t :=
  ⟨h.value.mono hst, fun a ha => (h.accessors a ha).mono hst⟩

theorem Container.Within.mono (hst : H.Keeps s t) {c : Container} (h : c.Within H s) :
    c.Within H t where
  above handle hh := (h.above handle hh).mono hst
  constructors := h.constructors.mono hst
  members m hm := (h.members m hm).mono hst
  statics m hm := (h.statics m hm).mono hst
  binaryOps f hf := (h.binaryOps f hf).mono hst
  unaryOps f hf := (h.unaryOps f hf).mono hst

/-! A scope with a new frame, and the parts of a container. -/

theorem Scope.Within.child {scope : Scope} (h : scope.Within H s) {id : FrameId}
    (hid : (Node.frame id).Within H s) : (scope.child id).Within H s := by
  intro i hi
  rcases List.mem_cons.mp hi with rfl | hi
  · exact hid
  · exact h i hi

theorem Scope.Within.inner {scope : Scope} (h : scope.Within H s) :
    (Node.frame scope.inner).Within H s :=
  h _ List.mem_cons_self

theorem Function.Within.empty (name : String) : Function.Within H s { name } :=
  fun _ h => absurd h List.not_mem_nil

theorem Function.Within.push {f : Function} (hf : f.Within H s) {o : Overload}
    (ho : o.code.Within H s) : (f.push o).Within H s := by
  intro o' ho'
  rcases List.mem_append.mp ho' with ho' | ho'
  · exact hf o' ho'
  · rw [List.mem_singleton.mp ho']
    exact ho

theorem Member.Within.setValue {m : Member} (h : m.Within H s) {v : Value} (hv : v.Within H s) :
    Member.Within H s { m with value := v } :=
  ⟨hv, h.accessors⟩

theorem Container.Within.table {c : Container} (h : c.Within H s) (isStatic : Bool) :
    ∀ m ∈ (c.table isStatic).values, m.Within H s := by
  cases isStatic with
  | false => exact h.members
  | true => exact h.statics

theorem Container.Within.setTable {c : Container} (h : c.Within H s) (isStatic : Bool)
    {members : Assoc String Member} (hm : ∀ m ∈ members.values, m.Within H s) :
    (c.setTable isStatic members).Within H s := by
  cases isStatic with
  | false => exact { h with members := hm }
  | true => exact { h with statics := hm }

end Mono

/-! ## Closed states -/

/-- No point within the horizon leads out of it, and what a program starts from is within it. -/
structure Horizon.Closed (H : Horizon) (s : State) : Prop where
  frame : ∀ id frame, (Node.frame id).Within H s → s.frames[id]? = some frame →
    ∀ b ∈ frame.values, b.value.Within H s
  list : ∀ id, (Node.list id).Within H s → ∀ v ∈ s.lists.elements id, v.Within H s
  container : ∀ handle c, (Node.container handle).Within H s → s.heap.get handle = .ok c →
    c.Within H s
  globals : s.globals.Within H s
  objectClass : (Node.container s.objectClass).Within H s
  typeClass : (Node.container s.typeClass).Within H s
  /-- New points are not stale. -/
  past : ∀ n, H.stale n → n.InRange s

/-- A state stays closed when it grows by things that are within the horizon. -/
theorem Horizon.Closed.grow {H : Horizon} {s t : State} (h : H.Closed s) (hst : H.Keeps s t)
    (hglobals : t.globals = s.globals) (hobject : t.objectClass = s.objectClass)
    (htype : t.typeClass = s.typeClass) (hrange : ∀ n : Node, n.InRange s → n.InRange t)
    (hframe : ∀ (id : FrameId) (frame : Frame), t.frames[id]? = some frame → ∀ b ∈ frame.values,
      b.value.Within H t ∨ ∃ old : Frame, s.frames[id]? = some old ∧ b ∈ old.values)
    (hlist : ∀ id, ∀ v ∈ t.lists.elements id, v.Within H t ∨ v ∈ s.lists.elements id)
    (hcontainer : ∀ handle c, ¬ H.stale (.container handle) → t.heap.get handle = .ok c →
      c.Within H t ∨ s.heap.get handle = .ok c) :
    H.Closed t where
  frame id frame hid hf b hb := by
    rcases hframe id frame hf b hb with hnew | ⟨old, hold, hb⟩
    · exact hnew
    · have hpresent : (Node.frame id).Present s := (Array.getElem?_eq_some_iff.mp hold).1
      exact (h.frame id old ⟨hid.1, fun _ => hpresent⟩ hold b hb).mono hst
  list id hid v hv := by
    rcases hlist id v hv with hnew | hv
    · exact hnew
    · have hpresent : (Node.list id).Present s := Lists.lt_size_of_mem_elements hv
      exact (h.list id ⟨hid.1, fun _ => hpresent⟩ v hv).mono hst
  container handle c hh hc := by
    rcases hcontainer handle c hh.1 hc with hnew | hc
    · exact hnew
    · exact (h.container handle c ⟨hh.1, fun _ => ⟨c, hc⟩⟩ hc).mono hst
  globals := hglobals ▸ h.globals.mono hst
  objectClass := hobject ▸ h.objectClass.mono hst
  typeClass := htype ▸ h.typeClass.mono hst
  past n hn := hrange n (h.past n hn)

/-! ## Horizons without an edge -/

section Foreign

variable {H : Horizon} (hforeign : H.foreign) (s : State)

include hforeign

theorem Node.within_of_foreign (n : Node) : n.Within H s := by
  refine ⟨H.not_stale hforeign n, fun hsound => ?_⟩
  exact absurd hsound (H.not_sound hforeign)

theorem Code.within_of_foreign (code : Code) : code.Within H s := by
  cases code with
  | native f => exact H.all_native hforeign f
  | script body scope => exact fun id _ => Node.within_of_foreign hforeign s _

theorem Function.within_of_foreign (f : Function) : f.Within H s :=
  fun o _ => Code.within_of_foreign hforeign s o.code

theorem Value.within_of_foreign (v : Value) : v.Within H s := by
  cases v with
  | object handle | list id => exact Node.within_of_foreign hforeign s _
  | function f => exact Function.within_of_foreign hforeign s f
  | number _ | string _ | boolean _ | null => trivial

theorem Member.within_of_foreign (m : Member) : m.Within H s where
  value := Value.within_of_foreign hforeign s m.value
  accessors _ _ _ _ := Node.within_of_foreign hforeign s _

theorem Container.within_of_foreign (c : Container) : c.Within H s where
  above _ _ := Node.within_of_foreign hforeign s _
  constructors := Function.within_of_foreign hforeign s _
  members m _ := Member.within_of_foreign hforeign s m
  statics m _ := Member.within_of_foreign hforeign s m
  binaryOps f _ := Function.within_of_foreign hforeign s f
  unaryOps f _ := Function.within_of_foreign hforeign s f

/-- Every state is closed where the host may do anything. -/
theorem Horizon.closed_of_foreign : H.Closed s where
  frame _ _ _ _ b _ := Value.within_of_foreign hforeign s b.value
  list _ _ v _ := Value.within_of_foreign hforeign s v
  container _ c _ _ := Container.within_of_foreign hforeign s c
  globals _ _ := Node.within_of_foreign hforeign s _
  objectClass := Node.within_of_foreign hforeign s _
  typeClass := Node.within_of_foreign hforeign s _
  past n hn := absurd hn (H.not_stale hforeign n)

end Foreign

end ClassScript

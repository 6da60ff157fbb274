import ClassScript.Proofs.Conduct

/-!
# What a state holds

Functions are everywhere in a state: in bindings and lists, in members, as constructors and
operators of classes, and in what the host keeps; and properties have accessors. A condition on
functions and accessors is met by all that a state holds, as long as each change puts only such
functions and accessors into it. Copies for new instances bring nothing that was not there before.
-/

namespace ClassScript

/-- Which functions there may be, and which accessors. Functions without overloads come with every
class. -/
structure Contents where
  function : Function → Prop
  accessor : AccessorCode → Prop
  empty : ∀ name, function { name }

structure Contents.Le (C D : Contents) : Prop where
  function : ∀ f, C.function f → D.function f
  accessor : ∀ a, C.accessor a → D.accessor a

section Only

variable (C : Contents)

def Value.Only : Value → Prop
  | .function f => C.function f
  | .number _ | .string _ | .boolean _ | .list _ | .object _ | .null => True

structure Member.Only (m : Member) : Prop where
  value : m.value.Only C
  accessors : ∀ a ∈ m.form.accessors, C.accessor a

structure Container.Only (c : Container) : Prop where
  constructors : C.function c.constructors
  member : ∀ isStatic, ∀ m ∈ (c.table isStatic).values, m.Only C
  binaryOps : ∀ f ∈ c.binaryOps.values, C.function f
  unaryOps : ∀ f ∈ c.unaryOps.values, C.function f

def Lists.Only (ls : Lists) : Prop :=
  ∀ id, ∀ v ∈ ls.elements id, v.Only C

def Flow.Only : Flow → Prop
  | .normal value | .returned value => ∀ v ∈ value, v.Only C

structure State.Only (s : State) : Prop where
  binding : ∀ (id : FrameId) (frame : Frame), s.frames[id]? = some frame →
    ∀ b ∈ frame.values, b.value.Only C
  lists : s.lists.Only C
  container : ∀ handle c, s.heap.get handle = .ok c → c.Only C
  kept : ∀ v ∈ s.kept, v.Only C

def Change.Only : Change → Prop
  | .list items => ∀ v ∈ items, v.Only C
  | .bind _ _ b => b.value.Only C
  | .setItem _ _ v | .setMember _ _ v => v.Only C
  | .addClass c | .addInstance c _ => c.Only C
  | .foreign _ => False
  | .frame | .register .. | .print _ => True

end Only

variable {C D : Contents}

theorem Change.Only.own {c : Change} (h : c.Only C) : c.Own := by
  cases c with
  | foreign f => exact h
  | _ => trivial

/-! ## Values and members -/

theorem Value.only_none : ∀ v ∈ (none : Option Value), v.Only C :=
  nofun

theorem Value.Only.some {v : Value} (h : v.Only C) : ∀ w ∈ some v, w.Only C := by
  rintro _ ⟨⟩
  exact h

theorem Value.Only.mono {v : Value} (h : v.Only C) (hle : C.Le D) : v.Only D := by
  cases v with
  | function f => exact hle.function f h
  | number _ | string _ | boolean _ | list _ | object _ | null => trivial

theorem Member.Only.mono {m : Member} (h : m.Only C) (hle : C.Le D) : m.Only D :=
  ⟨h.value.mono hle, fun a ha => hle.accessor a (h.accessors a ha)⟩

theorem Member.Only.setValue {m : Member} (h : m.Only C) {v : Value} (hv : v.Only C) :
    Member.Only C { m with value := v } :=
  ⟨hv, h.accessors⟩

/-! ## Containers -/

namespace Container.Only

variable {c : Container}

theorem mono (h : c.Only C) (hle : C.Le D) : c.Only D where
  constructors := hle.function _ h.constructors
  member isStatic m hm := (h.member isStatic m hm).mono hle
  binaryOps f hf := hle.function f (h.binaryOps f hf)
  unaryOps f hf := hle.function f (h.unaryOps f hf)

theorem setTable (h : c.Only C) (isStatic : Bool) {members : Assoc String Member}
    (hmembers : ∀ m ∈ members.values, m.Only C) : (c.setTable isStatic members).Only C := by
  have hmember : ∀ static, ∀ m ∈ ((c.setTable isStatic members).table static).values, m.Only C := by
    intro static m hm
    rw [table_setTable] at hm
    split at hm
    · exact hmembers m hm
    · exact h.member static m hm
  cases isStatic <;> exact ⟨h.constructors, hmember, h.binaryOps, h.unaryOps⟩

theorem insert (h : c.Only C) (isStatic : Bool) (name : String) {m : Member} (hm : m.Only C) :
    (c.setTable isStatic ((c.table isStatic).insert name m)).Only C := by
  refine h.setTable isStatic fun m' hm' => ?_
  rcases Assoc.mem_values_insert hm' with rfl | hm'
  · exact hm
  · exact h.member isStatic m' hm'

theorem setValue (h : c.Only C) (isStatic : Bool) (name : String) {v : Value} (hv : v.Only C) :
    (c.setValue isStatic name v).Only C := by
  unfold Container.setValue
  split
  · next m hm =>
      have hold := h.member isStatic m (Assoc.mem_values_of_get? hm)
      exact h.insert isStatic name (hold.setValue hv)
  · exact h

end Container.Only

/-! ## Classes in the making -/

theorem Draft.only_put {d : Draft} (h : d.cls.Only C) (isStatic : Bool) (name : String) {m : Member}
    (hm : m.Only C) : (d.put isStatic name m).cls.Only C := by
  have hput : (d.put isStatic name m).cls =
      d.cls.setTable isStatic ((d.cls.table isStatic).insert name m) := by
    cases isStatic <;> rfl
  rw [hput]
  exact h.insert isStatic name hm

theorem Draft.only_inherit (name : String) (handle : Handle) {parent : Container}
    (h : parent.Only C) : (Evaluator.inherit name handle parent).cls.Only C where
  constructors := C.empty name
  member isStatic m hm := by
    cases isStatic with
    | false => exact h.member false m hm
    | true => exact absurd hm List.not_mem_nil
  binaryOps := h.binaryOps
  unaryOps := h.unaryOps

/-! ## Copies -/

theorem Lists.upholds_only (C : Contents) :
    Lists.Copying.Upholds (fun c => c.lists.Only C) fun _ v => v.Only C where
  mono _ _ hv := hv
  made _ _ := trivial
  element h _ := h _
  enter id h i v hv := by
    change v ∈ Lists.elements (Array.push _ #[]) i at hv
    rw [Lists.elements_push] at hv
    split at hv
    · exact absurd hv (Array.not_mem_empty v)
    · exact h i v hv
  fill cell h hitems i v hv := (Lists.mem_elements_fill hv).elim (hitems v) (h i v)

theorem Lists.Only.copy {ls : Lists} (h : ls.Only C) {v : Value} (hv : v.Only C) :
    (ls.copy v).1.Only C ∧ (ls.copy v).2.Only C := by
  have hend := (Lists.upholds_only C).copyWith (ls.size + 1) (c := { lists := ls }) h hv
  exact ⟨hend.values _ (List.mem_singleton_self _), hend.state⟩

theorem Container.only_copyMembers {members : List (String × Member)}
    (h : ∀ entry ∈ members, entry.2.Only C) {ls : Lists} (hls : ls.Only C) :
    (∀ entry ∈ (copyMembers members ls).1, entry.2.Only C) ∧
      (copyMembers members ls).2.Only C := by
  induction members generalizing ls with
  | nil => exact ⟨h, hls⟩
  | cons member members ih =>
      obtain ⟨name, m⟩ := member
      have hm := h (name, m) List.mem_cons_self
      obtain ⟨hvalue, hls'⟩ := hls.copy hm.value
      obtain ⟨hmembers, hlists⟩ := ih (fun entry he => h entry (List.mem_cons_of_mem _ he)) hls'
      refine ⟨fun entry hentry => ?_, hlists⟩
      rcases List.mem_cons.mp hentry with rfl | hentry
      · exact hm.setValue hvalue
      · exact hmembers entry hentry

/-- An instance has copies of the members of its class, and no functions of its own. -/
theorem Container.Only.instantiate {cls : Container} (h : cls.Only C) (handle : Handle)
    {ls : Lists} (hls : ls.Only C) :
    (cls.instantiate handle ls).1.Only C ∧ (cls.instantiate handle ls).2.Only C := by
  have hentries : ∀ entry ∈ cls.members.entries, entry.2.Only C := fun entry he =>
    h.member false entry.2 (List.mem_map.mpr ⟨entry, he, rfl⟩)
  obtain ⟨hmembers, hlists⟩ := Container.only_copyMembers hentries hls
  refine ⟨⟨C.empty "", fun isStatic m hm => ?_, fun _ hf => absurd hf List.not_mem_nil,
    fun _ hf => absurd hf List.not_mem_nil⟩, hlists⟩
  cases isStatic with
  | false =>
      obtain ⟨entry, hentry, rfl⟩ := List.mem_map.mp hm
      exact hmembers entry hentry
  | true => exact absurd hm List.not_mem_nil

/-! ## States -/

namespace State.Only

variable {s : State}

theorem mono (h : s.Only C) (hle : C.Le D) : s.Only D where
  binding id frame hframe b hb := (h.binding id frame hframe b hb).mono hle
  lists id v hv := (h.lists id v hv).mono hle
  container handle c hc := (h.container handle c hc).mono hle
  kept v hv := (h.kept v hv).mono hle

theorem local? (h : s.Only C) {id : FrameId} {name : String} {b : Binding}
    (hb : s.frames.local? id name = some b) : b.value.Only C := by
  obtain ⟨frame, hframe, hmem⟩ := Frames.local?_eq_some hb
  exact h.binding id frame hframe b hmem

theorem get? (h : s.Only C) {scope : Scope} {name : String} {v : Value}
    (hv : s.frames.get? scope name = some v) : v.Only C := by
  obtain ⟨b, hb, rfl⟩ := Option.map_eq_some_iff.mp hv
  obtain ⟨id, _, hlocal⟩ := List.exists_of_findSome?_eq_some hb
  exact h.local? hlocal

theorem item (h : s.Only C) (id : ListId) (i : Nat) :
    (((s.lists.elements id)[i]?).getD .null).Only C := by
  cases hitem : (s.lists.elements id)[i]? with
  | none => trivial
  | some v => exact h.lists id v (Array.mem_of_getElem? hitem)

theorem control (h : s.Only C) (depth : Nat) (context : List (Option String)) :
    (s.control depth context).Only C :=
  ⟨h.binding, h.lists, h.container, h.kept⟩

/-- A new container. -/
theorem alloc (h : s.Only C) {new : Container} (hnew : new.Only C) :
    (s.apply (.addClass new)).Only C where
  binding := h.binding
  lists := h.lists
  container handle c hc := by
    simp only [State.apply, Heap.get_alloc] at hc
    split at hc
    · cases hc
      exact hnew
    · exact h.container handle c hc
  kept := h.kept

/-- One change. -/
theorem apply (h : s.Only C) {c : Change} (hc : c.Only C) : (s.apply c).Only C := by
  cases c with
  | frame =>
      refine { h with binding := fun id frame hframe b hb => ?_ }
      simp only [State.apply, Array.getElem?_push] at hframe
      split at hframe
      · cases hframe
        exact absurd hb List.not_mem_nil
      · exact h.binding id frame hframe b hb
  | list items =>
      refine { h with lists := fun id v hv => ?_ }
      simp only [State.apply, Lists.elements_push] at hv
      split at hv
      · exact hc v (List.mem_toArray.mp hv)
      · exact h.lists id v hv
  | bind id name b =>
      refine { h with binding := fun i frame hframe b' hb' => ?_ }
      simp only [State.apply, Frames.getElem?_define] at hframe
      split at hframe
      · obtain ⟨old, hold, rfl⟩ := Option.map_eq_some_iff.mp hframe
        rcases Assoc.mem_values_insert hb' with rfl | hb'
        · exact hc
        · exact h.binding i old hold b' hb'
      · exact h.binding i frame hframe b' hb'
  | setItem id position v =>
      refine { h with lists := fun i w hw => ?_ }
      rcases Lists.mem_elements_modify hw with rfl | hw
      · exact hc
      · exact h.lists i w hw
  | setMember slot name v =>
      -- a member keeps its accessors when it gets another value
      refine { h with container := fun handle c hget => ?_ }
      simp only [State.apply, Heap.get_modify] at hget
      split at hget
      · cases hold : s.heap.get handle with
        | error f =>
            rw [hold] at hget
            cases hget
        | ok old =>
            rw [hold] at hget
            cases hget
            exact (h.container handle old hold).setValue slot.isStatic name hc
      · exact h.container handle c hget
  | addClass new => exact h.alloc hc
  | addInstance cls handle =>
      obtain ⟨hnew, hlists⟩ := Container.Only.instantiate hc handle h.lists
      exact { h.alloc hnew with lists := hlists }
  | foreign f => exact hc.elim
  | register _ _ | print _ => exact { h with }

/-- What one change keeps, a run keeps. -/
theorem after (h : s.Only C) {cs : List Change} (hcs : ∀ c ∈ cs, c.Only C) :
    (s.after cs).Only C := by
  induction cs generalizing s with
  | nil => exact h
  | cons c cs ih =>
      exact ih (h.apply (hcs c List.mem_cons_self)) fun d hd => hcs d (List.mem_cons_of_mem _ hd)

end State.Only

end ClassScript

import ClassScript.Proofs.Bodies
import ClassScript.Proofs.Change

/-!
# What code leaves as it is

Code may give a variable another value, but the variable keeps its type, and a constant keeps its
value too. Of a container only the values of members change that are not readonly, and of what a
class has for its instances nothing at all. Names are added to few frames: to those that code makes
for itself, and to the one that a declaration stands in.

Here each change of a state comes with the reasons why it respects this. A run is a list of such
changes, so that what one change keeps, a run keeps.
-/

namespace ClassScript

/-! ## What stays of a binding, a member and a container -/

structure Binding.Stays (b b' : Binding) : Prop where
  ty : b'.ty = b.ty
  immutable : b'.immutable = b.immutable
  value : b.immutable = true → b'.value = b.value

structure Member.Stays (m m' : Member) : Prop where
  access : m'.access = m.access
  ty : m'.ty = m.ty
  owner : m'.owner = m.owner
  /-- This is whether a field is readonly, and the accessors of a property. -/
  form : m'.form = m.form
  value : m.readonly = true → m'.value = m.value

structure Container.Stays (c c' : Container) : Prop where
  name : c'.name = c.name
  kind : c'.kind = c.kind
  constructors : c'.constructors = c.constructors
  binaryOps : c'.binaryOps = c.binaryOps
  unaryOps : c'.unaryOps = c.unaryOps
  names : ∀ isStatic, (c'.table isStatic).keys = (c.table isStatic).keys
  member : ∀ isStatic name m, (c.table isStatic).get? name = some m →
    ∃ m', (c'.table isStatic).get? name = some m' ∧ m.Stays m'

theorem Binding.Stays.refl (b : Binding) : b.Stays b :=
  ⟨rfl, rfl, fun _ => rfl⟩

theorem Binding.Stays.trans {a b c : Binding} (hab : a.Stays b) (hbc : b.Stays c) : a.Stays c where
  ty := hbc.ty.trans hab.ty
  immutable := hbc.immutable.trans hab.immutable
  value h := (hbc.value (hab.immutable.trans h)).trans (hab.value h)

theorem Member.Stays.readonly_eq {m m' : Member} (h : m.Stays m') : m'.readonly = m.readonly := by
  rw [readonly, readonly, h.form]

theorem Member.Stays.refl (m : Member) : m.Stays m :=
  ⟨rfl, rfl, rfl, rfl, fun _ => rfl⟩

theorem Member.Stays.trans {a b c : Member} (hab : a.Stays b) (hbc : b.Stays c) : a.Stays c where
  access := hbc.access.trans hab.access
  ty := hbc.ty.trans hab.ty
  owner := hbc.owner.trans hab.owner
  form := hbc.form.trans hab.form
  value h := (hbc.value (hab.readonly_eq.trans h)).trans (hab.value h)

theorem Container.Stays.refl (c : Container) : c.Stays c :=
  ⟨rfl, rfl, rfl, rfl, rfl, fun _ => rfl, fun _ _ m hm => ⟨m, hm, .refl m⟩⟩

theorem Container.Stays.trans {a b c : Container} (hab : a.Stays b) (hbc : b.Stays c) :
    a.Stays c where
  name := hbc.name.trans hab.name
  kind := hbc.kind.trans hab.kind
  constructors := hbc.constructors.trans hab.constructors
  binaryOps := hbc.binaryOps.trans hab.binaryOps
  unaryOps := hbc.unaryOps.trans hab.unaryOps
  names isStatic := (hbc.names isStatic).trans (hab.names isStatic)
  member isStatic name m hm := by
    obtain ⟨m₁, hm₁, hstays₁⟩ := hab.member isStatic name m hm
    obtain ⟨m₂, hm₂, hstays₂⟩ := hbc.member isStatic name m₁ hm₁
    exact ⟨m₂, hm₂, hstays₁.trans hstays₂⟩

theorem Container.Stays.isClass_eq {c c' : Container} (h : c.Stays c') :
    c'.isClass = c.isClass := by
  rw [isClass, h.kind, isClass]

theorem Container.table_setTable (c : Container) (isStatic static : Bool)
    (members : Assoc String Member) :
    (c.setTable isStatic members).table static =
      if static = isStatic then members else c.table static := by
  cases isStatic <;> cases static <;> rfl

/-- A new value for a member that is not readonly. -/
theorem Container.stays_setValue {c : Container} {isStatic : Bool} {name : String} {m : Member}
    (hm : (c.table isStatic).get? name = some m) (hwritable : m.readonly = false) (v : Value) :
    c.Stays (c.setValue isStatic name v) := by
  have hset : c.setValue isStatic name v =
      c.setTable isStatic ((c.table isStatic).insert name { m with value := v }) := by
    rw [setValue, hm]
  rw [hset]
  refine ⟨?_, ?_, ?_, ?_, ?_, fun static => ?_, fun static other m' hm' => ?_⟩
  · cases isStatic <;> rfl
  · cases isStatic <;> rfl
  · cases isStatic <;> rfl
  · cases isStatic <;> rfl
  · cases isStatic <;> rfl
  · rw [table_setTable]
    split
    · next hstatic =>
        subst hstatic
        exact Assoc.map_insertEntry hm rfl
    · rfl
  · rw [table_setTable]
    split
    · next hstatic =>
        subst hstatic
        by_cases hname : name = other
        · subst hname
          rw [hm] at hm'
          cases hm'
          refine ⟨_, Assoc.get?_insert_self .., rfl, rfl, rfl, rfl, fun hreadonly => ?_⟩
          rw [hwritable] at hreadonly
          cases hreadonly
        · exact ⟨m', by rw [Assoc.get?_insert_of_ne _ hname, hm'], .refl m'⟩
    · exact ⟨m', hm', .refl m'⟩

/-- A new value for a static member leaves the others alone. -/
theorem Container.members_setValue (c : Container) {isStatic : Bool} (hstatic : isStatic = true)
    (name : String) (v : Value) : (c.setValue isStatic name v).members = c.members := by
  subst hstatic
  unfold setValue
  split <;> rfl

/-! ## Null -/

def Ty.ExcludesNull (ty : Ty) : Prop :=
  ty.nullable = false ∧ ty.name ∈ ["Number", "String", "Boolean", "Function", "List"]

/-- Whether a slot of this type can hold a value, as far as null is concerned. -/
def Ty.Admits (ty : Ty) (v : Value) : Prop :=
  ty.ExcludesNull → v ≠ .null

def Container.NullSafe (c : Container) : Prop :=
  ∀ isStatic, ∀ m ∈ (c.table isStatic).values, m.ty.Admits m.value

/-- No binding and no member is null that its type keeps from being so. The value of a property is
what its accessors see as `field`. -/
structure State.NullSafe (s : State) : Prop where
  binding : ∀ (id : FrameId) (frame : Frame), s.frames[id]? = some frame →
    ∀ b ∈ frame.values, b.ty.Admits b.value
  member : ∀ handle c, s.heap.get handle = .ok c → c.NullSafe

theorem State.NullSafe.local? {s : State} (h : s.NullSafe) {id : FrameId} {name : String}
    {b : Binding} (hb : s.frames.local? id name = some b) : b.ty.Admits b.value := by
  obtain ⟨frame, hframe, hmem⟩ := Frames.local?_eq_some hb
  exact h.binding id frame hframe b hmem

theorem Container.NullSafe.setTable {c : Container} (h : c.NullSafe) (isStatic : Bool)
    {members : Assoc String Member} (hmembers : ∀ m ∈ members.values, m.ty.Admits m.value) :
    (c.setTable isStatic members).NullSafe := by
  intro static m hm
  rw [table_setTable] at hm
  split at hm
  · exact hmembers m hm
  · exact h static m hm

theorem Container.NullSafe.insert {c : Container} (h : c.NullSafe) (isStatic : Bool) (name : String)
    {m : Member} (hm : m.ty.Admits m.value) :
    (c.setTable isStatic ((c.table isStatic).insert name m)).NullSafe := by
  refine h.setTable isStatic fun m' hm' => ?_
  rcases Assoc.mem_values_insert hm' with rfl | hm'
  · exact hm
  · exact h isStatic m' hm'

theorem Container.NullSafe.setValue {c : Container} (h : c.NullSafe) {isStatic : Bool}
    {name : String} {m : Member} (hm : (c.table isStatic).get? name = some m) {v : Value}
    (hv : m.ty.Admits v) : (c.setValue isStatic name v).NullSafe := by
  have hset : c.setValue isStatic name v =
      c.setTable isStatic ((c.table isStatic).insert name { m with value := v }) := by
    rw [Container.setValue, hm]
  rw [hset]
  exact h.insert isStatic name hv

theorem Ty.Admits.copy {ty : Ty} {v : Value} (h : ty.Admits v) (ls : Lists) :
    ty.Admits (ls.copy v).1 := by
  cases v with
  | list id =>
      rw [Lists.copy_list]
      exact fun _ => nofun
  | null | number _ | string _ | boolean _ | function _ | object _ => exact h

theorem Container.admits_copyMembers {members : List (String × Member)}
    (h : ∀ entry ∈ members, entry.2.ty.Admits entry.2.value) (ls : Lists) :
    ∀ entry ∈ (copyMembers members ls).1, entry.2.ty.Admits entry.2.value := by
  induction members generalizing ls with
  | nil => exact fun _ hentry => absurd hentry List.not_mem_nil
  | cons member members ih =>
      obtain ⟨name, m⟩ := member
      intro entry hentry
      rcases List.mem_cons.mp hentry with rfl | hentry
      · exact (h (name, m) List.mem_cons_self).copy ls
      · exact ih (fun e he => h e (List.mem_cons_of_mem _ he)) (ls.copy m.value).2 entry hentry

theorem Container.NullSafe.instantiate {cls : Container} (h : cls.NullSafe) (handle : Handle)
    (ls : Lists) : (cls.instantiate handle ls).1.NullSafe := by
  have hentries : ∀ entry ∈ cls.members.entries, entry.2.ty.Admits entry.2.value := fun entry he =>
    h false entry.2 (List.mem_map.mpr ⟨entry, he, rfl⟩)
  intro isStatic m hm
  cases isStatic with
  | true => exact absurd hm List.not_mem_nil
  | false =>
      obtain ⟨entry, hentry, rfl⟩ := List.mem_map.mp hm
      exact admits_copyMembers hentries ls entry hentry

/-! ## Classes -/

/-- The class that all others inherit from is there. -/
def State.Rooted (s : State) : Prop :=
  ∃ c, s.heap.get s.objectClass = .ok c ∧ c.isClass = true

/-- A class has what some body declares, and the rest from another class, which is there. -/
def Container.Drafted (c : Container) (own : Own) (s : State) : Prop :=
  own.OfBody c.name ∧ ∃ handle parent, c.kind = .classOf (some handle) ∧
    s.heap.get handle = .ok parent ∧ parent.isClass = true ∧ c.Derives own (some parent)

/-- A class whose members stay goes on to inherit what it did. -/
theorem Container.Derives.child {c c' : Container} {own : Own} {parent : Option Container}
    (h : c.Derives own parent) (hstays : c.Stays c') (hmembers : c'.members = c.members) :
    c'.Derives own parent where
  member name := by rw [hmembers]; exact h.member name
  binary op := by rw [hstays.binaryOps]; exact h.binary op
  unary op := by rw [hstays.unaryOps]; exact h.unary op

/-- So does one whose parent's members stay. -/
theorem Container.Derives.parent {c p p' : Container} {own : Own} (h : c.Derives own (some p))
    (hstays : p.Stays p') (hmembers : p'.members = p.members) : c.Derives own (some p') where
  member name := by rw [h.member name, Option.bind_some, Option.bind_some, hmembers]
  binary op := by rw [h.binary op, Option.bind_some, Option.bind_some, hstays.binaryOps]
  unary op := by rw [h.unary op, Option.bind_some, Option.bind_some, hstays.unaryOps]

/-! ## The terms of a run -/

/-- What a run has to respect. In a strict run the host does nothing, null stays where it is
admitted, and classes keep what they have for their instances. -/
structure Terms (strict : Prop) where
  /-- The frames with a number below this are older than the run. -/
  base : Nat
  /-- The older frames that may gain names. -/
  free : FrameId → Prop

namespace Terms

variable {strict : Prop}

def Opens (T : Terms strict) (id : FrameId) : Prop :=
  T.base ≤ id ∨ T.free id

structure Upholds (T : Terms strict) (s t : State) : Prop where
  size : s.frames.size ≤ t.frames.size
  binding : ∀ id < T.base, ∀ name b, s.frames.local? id name = some b →
    ∃ b', t.frames.local? id name = some b' ∧ b.Stays b'
  names : ∀ id, ¬ T.Opens id → ∀ name, s.frames.local? id name = none →
    t.frames.local? id name = none
  container : ∀ handle c, s.heap.get handle = .ok c →
    ∃ c', t.heap.get handle = .ok c' ∧ c.Stays c'
  template : strict → ∀ handle c c', s.heap.get handle = .ok c → t.heap.get handle = .ok c' →
    c.isClass = true → c'.members = c.members
  nullSafe : strict → s.NullSafe → t.NullSafe

variable {T : Terms strict}

theorem Upholds.refl (s : State) : T.Upholds s s where
  size := Nat.le_refl _
  binding _ _ _ b hb := ⟨b, hb, .refl b⟩
  names _ _ _ h := h
  container _ c hc := ⟨c, hc, .refl c⟩
  template _ _ c c' hc hc' _ := by rw [Except.ok.inj (hc'.symm.trans hc)]
  nullSafe _ h := h

theorem Upholds.trans {s t u : State} (hst : T.Upholds s t) (htu : T.Upholds t u) :
    T.Upholds s u where
  size := Nat.le_trans hst.size htu.size
  binding id hid name b hb := by
    obtain ⟨b₁, hb₁, hstays₁⟩ := hst.binding id hid name b hb
    obtain ⟨b₂, hb₂, hstays₂⟩ := htu.binding id hid name b₁ hb₁
    exact ⟨b₂, hb₂, hstays₁.trans hstays₂⟩
  names id hid name h := htu.names id hid name (hst.names id hid name h)
  container handle c hc := by
    obtain ⟨c₁, hc₁, hstays₁⟩ := hst.container handle c hc
    obtain ⟨c₂, hc₂, hstays₂⟩ := htu.container handle c₁ hc₁
    exact ⟨c₂, hc₂, hstays₁.trans hstays₂⟩
  template hstrict handle c c' hc hc' hclass := by
    obtain ⟨c₁, hc₁, hstays⟩ := hst.container handle c hc
    rw [htu.template hstrict handle c₁ c' hc₁ hc' (hstays.isClass_eq.trans hclass),
      hst.template hstrict handle c c₁ hc hc₁ hclass]
  nullSafe hstrict h := htu.nullSafe hstrict (hst.nullSafe hstrict h)

end Terms

/-! ## What is known when a change is made -/

def Change.Proper {strict : Prop} (T : Terms strict) (s : State) : Change → Prop
  | .bind id name b =>
    (∀ old, id < T.base → s.frames.local? id name = some old →
      old.immutable = false ∧ b.ty = old.ty ∧ b.immutable = false) ∧
    (s.frames.local? id name = none → T.Opens id) ∧
    (strict → b.ty.Admits b.value)
  | .setMember slot name v =>
    ∃ c m, s.heap.get slot.handle = .ok c ∧ (c.isClass = true → slot.isStatic = true) ∧
      (c.table slot.isStatic).get? name = some m ∧ m.readonly = false ∧ (strict → m.ty.Admits v)
  | .addClass c => strict → c.NullSafe ∧ (s.Rooted → ∃ own, c.Drafted own s)
  | .addInstance cls handle => s.heap.get handle = .ok cls
  | .foreign f => ¬ strict ∧ T.Upholds s (s.apply (.foreign f))
  | .frame | .list _ | .setItem .. | .register .. | .print _ => True

def Terms.Permits {strict : Prop} (T : Terms strict) (s : State) : List Change → Prop
  | [] => True
  | c :: cs => c.Proper T s ∧ T.Permits (s.apply c) cs

namespace Frames

theorem local?_push (fs : Frames) (id : FrameId) (name : String) :
    local? (fs.push {}) id name = fs.local? id name := by
  simp only [local?, Array.getElem?_push]
  split
  · next hid =>
      subst hid
      rw [Array.getElem?_eq_none (Nat.le_refl _)]
      rfl
  · rfl

theorem local?_define_of_ne (fs : Frames) {id i : FrameId} {name n : String} (b : Binding)
    (h : ¬ (id = i ∧ name = n)) : (fs.define id name b).local? i n = fs.local? i n := by
  simp only [local?, getElem?_define]
  by_cases hid : id = i
  · have hname : name ≠ n := fun hname => h ⟨hid, hname⟩
    rw [if_pos hid]
    cases fs[i]? with
    | none => rfl
    | some frame => exact Assoc.get?_insert_of_ne frame hname b
  · rw [if_neg hid]

theorem local?_define_self {fs : Frames} {id : FrameId} (hid : id < fs.size) (name : String)
    (b : Binding) : (fs.define id name b).local? id name = some b := by
  simp only [local?, getElem?_define, if_pos, Array.getElem?_eq_getElem hid]
  exact Assoc.get?_insert_self ..

theorem lt_size_of_local? {fs : Frames} {id : FrameId} {name : String} {b : Binding}
    (h : fs.local? id name = some b) : id < fs.size := by
  obtain ⟨frame, hframe, _⟩ := local?_eq_some h
  exact (Array.getElem?_eq_some_iff.mp hframe).1

end Frames

section Proper

variable {strict : Prop} {T : Terms strict} {s : State}

theorem Change.Proper.own {c : Change} (h : c.Proper T s) (hstrict : strict) : c.Own := by
  cases c with
  | foreign f => exact h.1 hstrict
  | _ => trivial

/-- A change of the frames alone. -/
theorem Terms.upholds_frames {t : State} (hheap : t.heap = s.heap)
    (hsize : s.frames.size ≤ t.frames.size)
    (hbinding : ∀ id < T.base, ∀ name b, s.frames.local? id name = some b →
      ∃ b', t.frames.local? id name = some b' ∧ b.Stays b')
    (hnames : ∀ id, ¬ T.Opens id → ∀ name, s.frames.local? id name = none →
      t.frames.local? id name = none)
    (hnull : strict → s.NullSafe → ∀ (id : FrameId) (frame : Frame), t.frames[id]? = some frame →
      ∀ b ∈ frame.values, b.ty.Admits b.value) : T.Upholds s t where
  size := hsize
  binding := hbinding
  names := hnames
  container _ c hc := ⟨c, by rw [hheap, hc], .refl c⟩
  template _ _ c c' hc hc' _ := by rw [hheap, hc] at hc'; rw [Except.ok.inj hc']
  nullSafe hstrict hs := ⟨hnull hstrict hs, fun handle c hc => hs.member handle c (hheap ▸ hc)⟩

/-- A change of the heap alone. -/
theorem Terms.upholds_heap {t : State} (hframes : t.frames = s.frames)
    (hcontainer : ∀ handle c, s.heap.get handle = .ok c →
      ∃ c', t.heap.get handle = .ok c' ∧ c.Stays c')
    (htemplate : ∀ handle c c', s.heap.get handle = .ok c → t.heap.get handle = .ok c' →
      c.isClass = true → c'.members = c.members)
    (hnull : strict → s.NullSafe → ∀ handle c, t.heap.get handle = .ok c → c.NullSafe) :
    T.Upholds s t where
  size := Nat.le_of_eq (by rw [hframes])
  binding id _ name b hb := ⟨b, by rw [hframes, hb], .refl b⟩
  names id _ name h := by rw [hframes, h]
  container := hcontainer
  template _ := htemplate
  nullSafe hstrict hs := ⟨by rw [hframes]; exact hs.binding, hnull hstrict hs⟩

/-- A new container. -/
theorem Terms.upholds_alloc {t : State} {new : Container} (hframes : t.frames = s.frames)
    (hheap : t.heap = (s.heap.alloc new).2) (hnew : strict → s.NullSafe → new.NullSafe) :
    T.Upholds s t := by
  have hold : ∀ handle c, s.heap.get handle = .ok c → t.heap.get handle = .ok c := by
    intro handle c hc
    rw [hheap, Heap.get_alloc, if_neg (Nat.ne_of_lt (Heap.lt_size_of_get hc)), hc]
  refine upholds_heap hframes (fun handle c hc => ⟨c, hold handle c hc, .refl c⟩) ?_
    fun hstrict hs handle c hc => ?_
  · intro handle c c' hc hc' _
    rw [Except.ok.inj ((hold handle c hc).symm.trans hc')]
  · rw [hheap, Heap.get_alloc] at hc
    split at hc
    · cases hc
      exact hnew hstrict hs
    · exact hs.member handle c hc

theorem Change.Proper.upholds_bind {id : FrameId} {name : String} {b : Binding}
    (h : (Change.bind id name b).Proper T s) : T.Upholds s (s.apply (.bind id name b)) := by
  obtain ⟨hold, hnew, hadmits⟩ := h
  refine Terms.upholds_frames rfl (by simp [State.apply]) ?_ ?_ ?_
  · intro i hi n old hlocal
    by_cases hself : id = i ∧ name = n
    · obtain ⟨rfl, rfl⟩ := hself
      obtain ⟨himmutable, hty, hmutable⟩ := hold old hi hlocal
      refine ⟨b, Frames.local?_define_self (Frames.lt_size_of_local? hlocal) name b, hty, ?_, ?_⟩
      · rw [hmutable, himmutable]
      · intro hconstant
        rw [himmutable] at hconstant
        cases hconstant
    · exact ⟨old, (Frames.local?_define_of_ne _ b hself).trans hlocal, .refl old⟩
  · intro i hi n hlocal
    have hself : ¬ (id = i ∧ name = n) := by
      rintro ⟨rfl, rfl⟩
      exact hi (hnew hlocal)
    exact (Frames.local?_define_of_ne _ b hself).trans hlocal
  · intro hstrict hs i frame hframe b' hb'
    simp only [State.apply, Frames.getElem?_define] at hframe
    split at hframe
    · obtain ⟨old, hold, rfl⟩ := Option.map_eq_some_iff.mp hframe
      rcases Assoc.mem_values_insert hb' with rfl | hb'
      · exact hadmits hstrict
      · exact hs.binding i old hold b' hb'
    · exact hs.binding i frame hframe b' hb'

theorem Change.Proper.upholds_setMember {slot : MemberSlot} {name : String} {v : Value}
    (h : (Change.setMember slot name v).Proper T s) :
    T.Upholds s (s.apply (.setMember slot name v)) := by
  obtain ⟨old, m, hget, hstatic, hm, hwritable, hadmits⟩ := h
  have hafter : ∀ handle, (s.apply (.setMember slot name v)).heap.get handle =
      if slot.handle = handle then (s.heap.get handle).map fun c => c.setValue slot.isStatic name v
      else s.heap.get handle := fun handle => Heap.get_modify ..
  refine Terms.upholds_heap rfl ?_ ?_ ?_
  · intro handle c hc
    rw [hafter]
    split
    · next hslot =>
        subst hslot
        rw [hget] at hc
        cases hc
        exact ⟨_, by rw [hget]; rfl, old.stays_setValue hm hwritable v⟩
    · exact ⟨c, hc, .refl c⟩
  · intro handle c c' hc hc' hclass
    rw [hafter, hc] at hc'
    split at hc'
    · next hslot =>
        subst hslot
        cases hget.symm.trans hc
        cases hc'
        exact old.members_setValue (hstatic hclass) name v
    · rw [Except.ok.inj hc']
  · intro hstrict hs handle c hc
    rw [hafter] at hc
    split at hc
    · next hslot =>
        subst hslot
        rw [hget] at hc
        cases hc
        exact (hs.member slot.handle old hget).setValue hm (hadmits hstrict)
    · exact hs.member handle c hc

/-- One change. -/
theorem Change.Proper.upholds {c : Change} (h : c.Proper T s) : T.Upholds s (s.apply c) := by
  cases c with
  | frame =>
      refine Terms.upholds_frames rfl (by simp [State.apply]) ?_ ?_ ?_
      · intro id _ name b hb
        exact ⟨b, (Frames.local?_push s.frames id name).trans hb, .refl b⟩
      · intro id _ name hnone
        exact (Frames.local?_push s.frames id name).trans hnone
      · intro _ hs id frame hframe b hb
        simp only [State.apply, Array.getElem?_push] at hframe
        split at hframe
        · cases hframe
          exact absurd hb List.not_mem_nil
        · exact hs.binding id frame hframe b hb
  | bind id name b => exact h.upholds_bind
  | setMember slot name v => exact h.upholds_setMember
  | addClass new => exact Terms.upholds_alloc rfl rfl fun hstrict _ => (h hstrict).1
  | addInstance cls handle =>
      exact Terms.upholds_alloc rfl rfl fun _ hs => (hs.member handle cls h).instantiate handle _
  | foreign f => exact h.2
  | list _ | setItem _ _ _ | register _ _ | print _ =>
      exact Terms.upholds_heap rfl (fun _ c hc => ⟨c, hc, .refl c⟩)
        (fun _ c c' hc hc' _ => by rw [Except.ok.inj (hc'.symm.trans hc)]) fun _ hs => hs.member

end Proper

/-! ## Runs -/

namespace Terms.Permits

variable {strict : Prop} {T : Terms strict} {s : State}

theorem append {cs ds : List Change} (hcs : T.Permits s cs) (hds : T.Permits (s.after cs) ds) :
    T.Permits s (cs ++ ds) := by
  induction cs generalizing s with
  | nil => exact hds
  | cons c cs ih => exact ⟨hcs.1, ih hcs.2 hds⟩

theorem of_append {cs ds : List Change} (h : T.Permits s (cs ++ ds)) :
    T.Permits (s.after cs) ds := by
  induction cs generalizing s with
  | nil => exact h
  | cons c cs ih => exact ih h.2

theorem of_isPrefix {cs ds : List Change} (h : T.Permits s ds) (hcs : cs <+: ds) :
    T.Permits s cs := by
  induction cs generalizing s ds with
  | nil => trivial
  | cons c cs ih =>
      obtain ⟨rest, rfl⟩ := hcs
      exact ⟨h.1, ih h.2 (List.prefix_append cs rest)⟩

theorem own {cs : List Change} (h : T.Permits s cs) (hstrict : strict) : ∀ c ∈ cs, c.Own := by
  induction cs generalizing s with
  | nil => exact fun _ hc => absurd hc List.not_mem_nil
  | cons c cs ih =>
      intro d hd
      rcases List.mem_cons.mp hd with rfl | hd
      · exact h.1.own hstrict
      · exact ih h.2 d hd

/-- What one change keeps, a run keeps. -/
theorem upholds {cs : List Change} (h : T.Permits s cs) : T.Upholds s (s.after cs) := by
  induction cs generalizing s with
  | nil => exact .refl s
  | cons c cs ih => exact h.1.upholds.trans (ih h.2)

end Terms.Permits

/-! ## The depth of calls and the context do not matter -/

section Control

variable {strict : Prop} {T : Terms strict} {s t : State} {depth : Nat}
  {context : List (Option String)}

theorem State.NullSafe.control (h : s.NullSafe) (depth : Nat) (context : List (Option String)) :
    (s.control depth context).NullSafe :=
  ⟨h.binding, h.member⟩

theorem State.NullSafe.of_control (h : (s.control depth context).NullSafe) : s.NullSafe :=
  ⟨h.binding, h.member⟩

theorem Terms.Upholds.of_control
    (h : T.Upholds (s.control depth context) (t.control depth context)) : T.Upholds s t where
  size := h.size
  binding := h.binding
  names := h.names
  container := h.container
  template := h.template
  nullSafe hstrict hs := (h.nullSafe hstrict (hs.control depth context)).of_control

theorem Change.Proper.of_control {c : Change} (h : c.Proper T (s.control depth context)) :
    c.Proper T s := by
  cases c with
  | foreign f =>
      obtain ⟨hstrict, hupholds⟩ := h
      rw [State.apply_control] at hupholds
      exact ⟨hstrict, hupholds.of_control⟩
  | frame | list _ | bind _ _ _ | setItem _ _ _ | setMember _ _ _ | addClass _ | addInstance _ _
  | register _ _ | print _ => exact h

theorem Terms.Permits.of_control {cs : List Change}
    (h : T.Permits (s.control depth context) cs) : T.Permits s cs := by
  induction cs generalizing s with
  | nil => trivial
  | cons c cs ih =>
      have hrest := h.2
      rw [State.apply_control] at hrest
      exact ⟨h.1.of_control, ih hrest⟩

end Control

end ClassScript

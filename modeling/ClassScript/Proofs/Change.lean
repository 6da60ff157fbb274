import ClassScript.Proofs.Copying

/-!
# What a run can do to a state

Whatever code does, it changes the state in one of nine ways. Each change comes with what is known
at the moment when code makes it. Nothing that was there goes away, and a state that is closed stays
closed. Beside these there is what a function of the host may do, about which little is known.

The depth of calls and the class of the running code are no part of this: a run gives them back as
it found them.
-/

namespace ClassScript

/-- What a member is known by, whatever its value. -/
structure Origin where
  name : String
  /-- The class that declares the member. -/
  owner : String
  access : Access

def Member.origin (m : Member) (name : String) : Origin :=
  ⟨name, m.owner, m.access⟩

def Container.origins (c : Container) (isStatic : Bool) : List Origin :=
  (c.table isStatic).entries.map fun entry => entry.2.origin entry.1

theorem Container.mem_origins {c : Container} {isStatic : Bool} {name : String} {m : Member}
    (h : (c.table isStatic).get? name = some m) : m.origin name ∈ c.origins isStatic :=
  List.mem_map.mpr ⟨(name, m), Assoc.mem_of_findEntry h, rfl⟩

section SetValue

variable (c : Container) (isStatic : Bool) (name : String) (v : Value)

@[simp]
theorem Container.name_setValue : (c.setValue isStatic name v).name = c.name := by
  unfold setValue
  split
  · cases isStatic <;> rfl
  · rfl

@[simp]
theorem Container.kind_setValue : (c.setValue isStatic name v).kind = c.kind := by
  unfold setValue
  split
  · cases isStatic <;> rfl
  · rfl

@[simp]
theorem Container.origins_setValue (static : Bool) :
    (c.setValue isStatic name v).origins static = c.origins static := by
  unfold setValue
  split
  · next m hm =>
      cases isStatic <;> cases static
      · exact Assoc.map_insertEntry hm rfl
      · rfl
      · rfl
      · exact Assoc.map_insertEntry hm rfl
  · rfl

end SetValue

/-- What no change takes from a container. -/
structure Container.Lasts (c c' : Container) : Prop where
  name : c'.name = c.name
  kind : c'.kind = c.kind
  origins : ∀ isStatic, c'.origins isStatic = c.origins isStatic

theorem Container.Lasts.refl (c : Container) : c.Lasts c :=
  ⟨rfl, rfl, fun _ => rfl⟩

theorem Container.Lasts.trans {a b c : Container} (hab : a.Lasts b) (hbc : b.Lasts c) :
    a.Lasts c where
  name := hbc.name.trans hab.name
  kind := hbc.kind.trans hab.kind
  origins isStatic := (hbc.origins isStatic).trans (hab.origins isStatic)

theorem Container.isClass_of_kind {c : Container} {parent : Option Handle}
    (h : c.kind = .classOf parent) : c.isClass := by
  rw [isClass, h]

theorem Container.Lasts.isClass_eq {c c' : Container} (h : c.Lasts c') :
    c'.isClass = c.isClass := by
  rw [isClass, isClass, h.kind]

theorem Container.Lasts.classHandle_eq {c c' : Container} (h : c.Lasts c') (own : Handle) :
    c'.classHandle own = c.classHandle own := by
  rw [classHandle, classHandle, h.kind]

theorem Container.lasts_setValue (c : Container) (isStatic : Bool) (name : String) (v : Value) :
    c.Lasts (c.setValue isStatic name v) where
  name := c.name_setValue isStatic name v
  kind := c.kind_setValue isStatic name v
  origins := c.origins_setValue isStatic name v

inductive Change where
  /-- A new frame without names. -/
  | frame
  | list (items : List Value)
  | bind (id : FrameId) (name : String) (b : Binding)
  | setItem (id : ListId) (position : Nat) (value : Value)
  | setMember (slot : MemberSlot) (name : String) (value : Value)
  | addClass (c : Container)
  /-- An instance of a class, with copies of the lists in its members. -/
  | addInstance (cls : Container) (handle : Handle)
  /-- The name of a class, and that of its parent. -/
  | register (name parent : String)
  | print (text : String)
  /-- Something that the host does, which cannot depend on the running calls. -/
  | foreign (f : State → State)

/-- What code itself can do. -/
def Change.Own : Change → Prop
  | .foreign _ => False
  | _ => True

namespace State

def control (s : State) (depth : Nat) (context : List (Option String)) : State :=
  { s with callDepth := depth, context }

def apply (s : State) : Change → State
  | .frame => { s with frames := s.frames.push {} }
  | .list items => { s with lists := s.lists.push items.toArray }
  | .bind id name b => { s with frames := s.frames.define id name b }
  | .setItem id position v =>
    { s with lists := s.lists.modify id fun items => items.setIfInBounds position v }
  | .setMember slot name v =>
    { s with heap := s.heap.modify slot.handle fun c => c.setValue slot.isStatic name v }
  | .addClass c => { s with heap := (s.heap.alloc c).2 }
  | .addInstance cls handle =>
    { s with
      lists := (cls.instantiate handle s.lists).2
      heap := (s.heap.alloc (cls.instantiate handle s.lists).1).2 }
  | .register name parent => { s with registry := s.registry.define name (some parent) }
  | .print text => { s with sink := (s.sink.write text).toOption.getD s.sink }
  | .foreign f => (f (s.control 0 [])).control s.callDepth s.context

def after (s : State) (cs : List Change) : State :=
  cs.foldl apply s

@[simp]
theorem after_cons (s : State) (c : Change) (cs : List Change) :
    s.after (c :: cs) = (s.apply c).after cs :=
  rfl

theorem after_append (s : State) (cs ds : List Change) :
    s.after (cs ++ ds) = (s.after cs).after ds :=
  List.foldl_append

theorem control_self {s : State} {depth : Nat} {context : List (Option String)}
    (hdepth : s.callDepth = depth) (hcontext : s.context = context) :
    s.control depth context = s := by
  subst hdepth hcontext
  rfl

theorem keeps_control (s : State) (depth : Nat) (context : List (Option String)) :
    s.Keeps (s.control depth context) := by
  intro n hn
  cases n <;> exact hn

theorem control_keeps (s : State) (depth : Nat) (context : List (Option String)) :
    (s.control depth context).Keeps s := by
  intro n hn
  cases n <;> exact hn

theorem apply_control (s : State) (depth : Nat) (context : List (Option String)) (c : Change) :
    (s.control depth context).apply c = (s.apply c).control depth context := by
  cases c <;> rfl

theorem after_control (s : State) (depth : Nat) (context : List (Option String))
    (cs : List Change) :
    (s.control depth context).after cs = (s.after cs).control depth context := by
  induction cs generalizing s with
  | nil => rfl
  | cons c cs ih => rw [after_cons, after_cons, apply_control, ih]

theorem apply_objectClass (s : State) {c : Change} (hc : c.Own) :
    (s.apply c).objectClass = s.objectClass := by
  cases c with
  | foreign f => exact hc.elim
  | _ => rfl

theorem after_objectClass (s : State) {cs : List Change} (hcs : ∀ c ∈ cs, c.Own) :
    (s.after cs).objectClass = s.objectClass := by
  induction cs generalizing s with
  | nil => rfl
  | cons c cs ih =>
      rw [after_cons, ih _ fun d hd => hcs d (List.mem_cons_of_mem _ hd),
        apply_objectClass s (hcs c List.mem_cons_self)]

theorem apply_callDepth (s : State) (c : Change) : (s.apply c).callDepth = s.callDepth := by
  cases c <;> rfl

theorem apply_context (s : State) (c : Change) : (s.apply c).context = s.context := by
  cases c <;> rfl

/-- A run gives back the depth of calls and the context as it found them. -/
theorem after_callDepth (s : State) (cs : List Change) : (s.after cs).callDepth = s.callDepth := by
  induction cs generalizing s with
  | nil => rfl
  | cons c cs ih => rw [after_cons, ih, apply_callDepth]

theorem after_context (s : State) (cs : List Change) : (s.after cs).context = s.context := by
  induction cs generalizing s with
  | nil => rfl
  | cons c cs ih => rw [after_cons, ih, apply_context]

/-! ## Nothing goes away -/

theorem size_instantiate_le (cls : Container) (handle : Handle) (ls : Lists) :
    ls.size ≤ (cls.instantiate handle ls).2.size := by
  change ls.size ≤ (Container.copyMembers cls.members.entries ls).2.size
  induction cls.members.entries generalizing ls with
  | nil => exact Nat.le_refl _
  | cons entry entries ih =>
      obtain ⟨name, m⟩ := entry
      exact Nat.le_trans (ls.size_copy_le m.value) (ih (ls.copy m.value).2)

theorem frames_size_apply (s : State) {c : Change} (hc : c.Own) :
    s.frames.size ≤ (s.apply c).frames.size := by
  cases c with
  | foreign f => exact hc.elim
  | frame =>
      simp only [apply, Array.size_push]
      exact Nat.le_succ _
  | bind id name b =>
      simp only [apply, Frames.size_define]
      exact Nat.le_refl _
  | list _ | setItem _ _ _ | setMember _ _ _ | addClass _ | addInstance _ _ | register _ _
  | print _ => exact Nat.le_refl _

theorem lists_size_apply (s : State) {c : Change} (hc : c.Own) :
    s.lists.size ≤ (s.apply c).lists.size := by
  cases c with
  | foreign f => exact hc.elim
  | list items =>
      simp only [apply, Array.size_push]
      exact Nat.le_succ _
  | setItem id position v =>
      simp only [apply, Array.size_modify]
      exact Nat.le_refl _
  | addInstance cls handle => exact size_instantiate_le cls handle s.lists
  | frame | bind _ _ _ | setMember _ _ _ | addClass _ | register _ _ | print _ =>
      exact Nat.le_refl _

theorem slots_size_apply (s : State) {c : Change} (hc : c.Own) :
    s.heap.slots.size ≤ (s.apply c).heap.slots.size := by
  cases c with
  | foreign f => exact hc.elim
  | setMember slot name v =>
      simp only [apply, Heap.size_slots_modify]
      exact Nat.le_refl _
  | addClass c =>
      simp only [apply, Heap.alloc, Array.size_push]
      exact Nat.le_succ _
  | addInstance cls handle =>
      simp only [apply, Heap.alloc, Array.size_push]
      exact Nat.le_succ _
  | frame | list _ | bind _ _ _ | setItem _ _ _ | register _ _ | print _ => exact Nat.le_refl _

theorem get_apply_of_ok {s : State} {handle : Handle} {c : Container}
    (hc : s.heap.get handle = .ok c) {change : Change} (hchange : change.Own) :
    ∃ c', (s.apply change).heap.get handle = .ok c' ∧ c.Lasts c' := by
  have hold : ∀ new : Container, (s.heap.alloc new).2.get handle = .ok c := by
    intro new
    rw [Heap.get_alloc, if_neg (Nat.ne_of_lt (Heap.lt_size_of_get hc)), hc]
  cases change with
  | foreign f => exact hchange.elim
  | setMember slot name v =>
      have hget : (s.apply (.setMember slot name v)).heap.get handle =
          if slot.handle = handle then (s.heap.get handle).map
            fun c => c.setValue slot.isStatic name v
          else s.heap.get handle := Heap.get_modify ..
      by_cases hslot : slot.handle = handle
      · rw [if_pos hslot, hc] at hget
        exact ⟨_, hget, c.lasts_setValue slot.isStatic name v⟩
      · rw [if_neg hslot, hc] at hget
        exact ⟨c, hget, .refl c⟩
  | addClass new => exact ⟨c, hold new, .refl c⟩
  | addInstance cls h => exact ⟨c, hold _, .refl c⟩
  | frame | list _ | bind _ _ _ | setItem _ _ _ | register _ _ | print _ =>
      exact ⟨c, hc, .refl c⟩

theorem get_after_of_ok {s : State} {handle : Handle} {c : Container}
    (hc : s.heap.get handle = .ok c) {cs : List Change} (hcs : ∀ change ∈ cs, change.Own) :
    ∃ c', (s.after cs).heap.get handle = .ok c' ∧ c.Lasts c' := by
  induction cs generalizing s c with
  | nil => exact ⟨c, hc, .refl c⟩
  | cons change cs ih =>
      obtain ⟨c₁, hc₁, hlasts⟩ := get_apply_of_ok hc (hcs change List.mem_cons_self)
      obtain ⟨c₂, hc₂, hlasts'⟩ := ih hc₁ fun d hd => hcs d (List.mem_cons_of_mem _ hd)
      exact ⟨c₂, hc₂, hlasts.trans hlasts'⟩

theorem keeps_apply (s : State) {c : Change} (hc : c.Own) : s.Keeps (s.apply c) := by
  intro n hn
  cases n with
  | frame id => exact Nat.lt_of_lt_of_le hn (s.frames_size_apply hc)
  | list id => exact Nat.lt_of_lt_of_le hn (s.lists_size_apply hc)
  | container handle =>
      obtain ⟨old, hold⟩ := hn
      obtain ⟨new, hnew, _⟩ := get_apply_of_ok hold hc
      exact ⟨new, hnew⟩

theorem inRange_apply {s : State} {n : Node} (h : n.InRange s) {c : Change} (hc : c.Own) :
    n.InRange (s.apply c) := by
  cases n with
  | frame id => exact Nat.lt_of_lt_of_le h (s.frames_size_apply hc)
  | list id => exact Nat.lt_of_lt_of_le h (s.lists_size_apply hc)
  | container handle => exact Nat.lt_of_lt_of_le h (s.slots_size_apply hc)

end State

/-! ## What is known when a change is made -/

/-- A class has what it inherits from its parent, and what its own declaration adds. -/
structure Container.Extends (c parent : Container) : Prop where
  members : ∀ o ∈ c.origins false, o.owner = c.name ∨ o ∈ parent.origins false
  statics : ∀ o ∈ c.origins true, o.owner = c.name

/-- What is known about a change, given the class declarations that are under way: the names of the
classes with those of their parents, the innermost first. -/
def Change.Allowed (H : Horizon) (known : List (String × String)) (s : State) : Change → Prop
  | .list items => ∀ v ∈ items, v.Within H s
  | .bind _ _ b => b.value.Within H s
  | .setItem _ _ v => v.Within H s
  | .setMember _ _ v => v.Within H s
  | .addClass c => c.Within H s ∧ (H.foreign ∨ ∃ handle parent, c.kind = .classOf (some handle) ∧
      s.heap.get handle = .ok parent ∧ (handle = s.objectClass ∨ parent.isClass) ∧
      c.Extends parent ∧ known.head? = some (c.name, parent.name))
  | .addInstance cls handle => s.heap.get handle = .ok cls ∧ cls.isClass ∧
      (Node.container handle).Within H s
  | .foreign _ => H.foreign
  | .frame | .register .. | .print _ => True

def Change.pending (known : List (String × String)) : Change → List (String × String)
  | .register name parent => (name, parent) :: known
  | .addClass _ => known.tail
  | _ => known

def Change.pendingAfter (known : List (String × String)) (cs : List Change) :
    List (String × String) :=
  cs.foldl Change.pending known

def Horizon.Allows (H : Horizon) (known : List (String × String)) (s : State) :
    List Change → Prop
  | [] => True
  | c :: cs => c.Allowed H known s ∧ H.Allows (c.pending known) (s.apply c) cs

section Allowed

variable {H : Horizon} {s : State}

theorem Change.pendingAfter_append (known : List (String × String)) (cs ds : List Change) :
    pendingAfter known (cs ++ ds) = pendingAfter (pendingAfter known cs) ds :=
  List.foldl_append

theorem Horizon.Allows.append {known : List (String × String)} {cs ds : List Change}
    (hcs : H.Allows known s cs)
    (hds : H.Allows (Change.pendingAfter known cs) (s.after cs) ds) :
    H.Allows known s (cs ++ ds) := by
  induction cs generalizing s known with
  | nil => exact hds
  | cons c cs ih => exact ⟨hcs.1, ih hcs.2 hds⟩

/-- A change is one of code itself, unless the host may do anything. -/
theorem Change.Allowed.own {known : List (String × String)} {c : Change}
    (h : c.Allowed H known s) (hforeign : ¬ H.foreign) : c.Own := by
  cases c with
  | foreign f => exact hforeign h
  | _ => trivial

theorem Horizon.Allows.own {known : List (String × String)} {cs : List Change}
    (h : H.Allows known s cs) (hforeign : ¬ H.foreign) : ∀ c ∈ cs, c.Own := by
  induction cs generalizing s known with
  | nil => exact fun _ hc => absurd hc List.not_mem_nil
  | cons c cs ih =>
      intro d hd
      rcases List.mem_cons.mp hd with rfl | hd
      · exact h.1.own hforeign
      · exact ih h.2 d hd

theorem Change.Allowed.keeps {known : List (String × String)} {c : Change}
    (h : c.Allowed H known s) : H.Keeps s (s.apply c) := by
  intro hsound
  exact s.keeps_apply (h.own fun hforeign => H.not_sound hforeign hsound)

theorem Horizon.Allows.keeps {known : List (String × String)} {cs : List Change}
    (h : H.Allows known s cs) : H.Keeps s (s.after cs) := by
  induction cs generalizing s known with
  | nil => exact .refl s
  | cons c cs ih => exact h.1.keeps.trans (ih h.2)

theorem Horizon.Allows.of_isPrefix {known : List (String × String)} {cs ds : List Change}
    (h : H.Allows known s ds) (hcs : cs <+: ds) : H.Allows known s cs := by
  induction cs generalizing s known ds with
  | nil => trivial
  | cons c cs ih =>
      obtain ⟨rest, rfl⟩ := hcs
      exact ⟨h.1, ih h.2 (List.prefix_append cs rest)⟩

theorem Change.Allowed.of_control {known : List (String × String)} {depth : Nat}
    {context : List (Option String)} {c : Change}
    (h : c.Allowed H known (s.control depth context)) : c.Allowed H known s := by
  have hkeeps : H.Keeps (s.control depth context) s := fun _ => s.control_keeps depth context
  cases c with
  | list items => exact fun v hv => (h v hv).mono hkeeps
  | bind _ _ _ | setItem _ _ _ | setMember _ _ _ => exact Value.Within.mono hkeeps h
  | addClass c => exact ⟨h.1.mono hkeeps, h.2⟩
  | addInstance cls handle => exact ⟨h.1, h.2.1, h.2.2.mono hkeeps⟩
  | foreign f => exact h
  | frame | register _ _ | print _ => trivial

theorem Horizon.Allows.of_control {known : List (String × String)} {depth : Nat}
    {context : List (Option String)} {cs : List Change}
    (h : H.Allows known (s.control depth context) cs) : H.Allows known s cs := by
  induction cs generalizing s known with
  | nil => trivial
  | cons c cs ih =>
      have hrest := h.2
      rw [State.apply_control] at hrest
      exact ⟨h.1.of_control, ih hrest⟩

end Allowed

/-! ## Closed states stay closed -/

section Closed

variable {H : Horizon} {s : State}

theorem Container.Within.setValue {c : Container} (h : c.Within H s) (isStatic : Bool)
    (name : String) {v : Value} (hv : v.Within H s) : (c.setValue isStatic name v).Within H s := by
  unfold Container.setValue
  split
  · next m hm =>
      have hold := h.table isStatic m (Assoc.mem_values_of_get? hm)
      refine h.setTable isStatic fun m' hm' => ?_
      rcases Assoc.mem_values_insert hm' with rfl | hm'
      · exact hold.setValue hv
      · exact h.table isStatic m' hm'
  · exact h

theorem Container.Within.instantiate {cls : Container} (hs : H.Closed s) (h : cls.Within H s)
    {handle : Handle} (hhandle : (Node.container handle).Within H s) :
    let t : State := { s with lists := (cls.instantiate handle s.lists).2 }
    (cls.instantiate handle s.lists).1.Within H t := by
  intro t
  have hmembers : ∀ entry ∈ cls.members.entries, entry.2.Within H s := fun entry hentry =>
    h.members entry.2 (List.mem_map.mpr ⟨entry, hentry, rfl⟩)
  obtain ⟨hkeeps, _, hcopies⟩ := hs.copyMembers hmembers
  exact {
    above := fun i hi => by
      cases hi
      exact hhandle.mono hkeeps
    constructors := Function.Within.empty ""
    members := fun m hm => by
      obtain ⟨entry, hentry, rfl⟩ := List.mem_map.mp hm
      exact hcopies entry hentry
    statics := fun _ hm => absurd hm List.not_mem_nil
    binaryOps := fun _ hf => absurd hf List.not_mem_nil
    unaryOps := fun _ hf => absurd hf List.not_mem_nil }

theorem Lists.mem_elements_modify {ls : Lists} {id : ListId} {position : Nat} {v w : Value}
    {i : ListId}
    (h : w ∈ Lists.elements (ls.modify id fun items => items.setIfInBounds position v) i) :
    w = v ∨ w ∈ ls.elements i := by
  simp only [elements, Array.getD_eq_getD_getElem?, Array.getElem?_modify] at h ⊢
  by_cases hi : id = i
  · rw [if_pos hi] at h
    cases hget : ls[i]? with
    | none => simp [hget] at h
    | some items =>
        rw [hget] at h
        exact (Array.mem_or_eq_of_mem_setIfInBounds h).symm
  · rw [if_neg hi] at h
    exact Or.inr h

theorem Horizon.Closed.alloc (h : H.Closed s) {new : Container} (hnew : new.Within H s) :
    H.Closed (s.apply (.addClass new)) := by
  have hkeeps : H.Keeps s (s.apply (.addClass new)) := fun _ => s.keeps_apply trivial
  refine h.grow hkeeps rfl rfl rfl (fun n hn => State.inRange_apply hn trivial)
    (fun _ frame hframe b hb => Or.inr ⟨frame, hframe, hb⟩) (fun _ _ hv => Or.inr hv) ?_
  intro handle c _ hc
  simp only [State.apply, Heap.get_alloc] at hc
  split at hc
  · cases hc
    exact Or.inl (hnew.mono hkeeps)
  · exact Or.inr hc

theorem Horizon.Closed.apply (h : H.Closed s) {known : List (String × String)} {change : Change}
    (hchange : change.Allowed H known s) : H.Closed (s.apply change) := by
  by_cases hforeign : H.foreign
  · exact closed_of_foreign hforeign _
  have hown := hchange.own hforeign
  have hkeeps := hchange.keeps
  have hrange : ∀ n : Node, n.InRange s → n.InRange (s.apply change) := fun n hn =>
    State.inRange_apply hn hown
  cases change with
  | foreign f => exact hown.elim
  | frame =>
      refine h.grow hkeeps rfl rfl rfl hrange ?_ (fun _ _ hv => Or.inr hv)
        (fun _ _ _ hc => Or.inr hc)
      intro id frame hframe b hb
      simp only [State.apply, Array.getElem?_push] at hframe
      split at hframe
      · cases hframe
        exact absurd hb List.not_mem_nil
      · exact Or.inr ⟨frame, hframe, hb⟩
  | list items =>
      refine h.grow hkeeps rfl rfl rfl hrange
        (fun _ frame hframe b hb => Or.inr ⟨frame, hframe, hb⟩) ?_ (fun _ _ _ hc => Or.inr hc)
      intro id v hv
      simp only [State.apply, Lists.elements_push] at hv
      split at hv
      · exact Or.inl ((hchange v (List.mem_toArray.mp hv)).mono hkeeps)
      · exact Or.inr hv
  | bind i name new =>
      refine h.grow hkeeps rfl rfl rfl hrange ?_ (fun _ _ hv => Or.inr hv)
        (fun _ _ _ hc => Or.inr hc)
      intro id frame hframe b hb
      simp only [State.apply, Frames.getElem?_define] at hframe
      split at hframe
      · obtain ⟨old, hold, rfl⟩ := Option.map_eq_some_iff.mp hframe
        rcases Assoc.mem_values_insert hb with rfl | hb
        · exact Or.inl (Value.Within.mono hkeeps hchange)
        · exact Or.inr ⟨old, hold, hb⟩
      · exact Or.inr ⟨frame, hframe, hb⟩
  | setItem i position v =>
      refine h.grow hkeeps rfl rfl rfl hrange
        (fun _ frame hframe b hb => Or.inr ⟨frame, hframe, hb⟩) ?_ (fun _ _ _ hc => Or.inr hc)
      intro id w hw
      rcases Lists.mem_elements_modify hw with rfl | hw
      · exact Or.inl (Value.Within.mono hkeeps hchange)
      · exact Or.inr hw
  | setMember slot name v =>
      refine h.grow hkeeps rfl rfl rfl hrange
        (fun _ frame hframe b hb => Or.inr ⟨frame, hframe, hb⟩) (fun _ _ hv => Or.inr hv) ?_
      intro handle c hfresh hc
      simp only [State.apply, Heap.get_modify] at hc
      split at hc
      · cases hold : s.heap.get handle with
        | error f => rw [hold] at hc; cases hc
        | ok old =>
            rw [hold] at hc
            cases hc
            have hwithin := h.container handle old ⟨hfresh, fun _ => ⟨old, hold⟩⟩ hold
            exact Or.inl ((hwithin.setValue slot.isStatic name hchange).mono hkeeps)
      · exact Or.inr hc
  | addClass new => exact h.alloc hchange.1
  | addInstance cls i =>
      obtain ⟨hget, _, hi⟩ := hchange
      have hcls := h.container i cls hi hget
      have hmembers : ∀ entry ∈ cls.members.entries, entry.2.Within H s := fun entry hentry =>
        hcls.members entry.2 (List.mem_map.mpr ⟨entry, hentry, rfl⟩)
      exact (h.copyMembers hmembers).2.1.alloc (hcls.instantiate h hi)
  | register name parent =>
      exact h.grow hkeeps rfl rfl rfl hrange (fun _ frame hframe b hb => Or.inr ⟨frame, hframe, hb⟩)
        (fun _ _ hv => Or.inr hv) (fun _ _ _ hc => Or.inr hc)
  | print text =>
      exact h.grow hkeeps rfl rfl rfl hrange (fun _ frame hframe b hb => Or.inr ⟨frame, hframe, hb⟩)
        (fun _ _ hv => Or.inr hv) (fun _ _ _ hc => Or.inr hc)

theorem Horizon.Closed.after (h : H.Closed s) {known : List (String × String)}
    {cs : List Change} (hcs : H.Allows known s cs) : H.Closed (s.after cs) := by
  induction cs generalizing s known with
  | nil => exact h
  | cons c cs ih => exact ih (h.apply hcs.1) hcs.2

end Closed

end ClassScript

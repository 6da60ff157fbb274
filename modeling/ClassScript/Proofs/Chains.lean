import ClassScript.Proofs.Change

/-!
# Chains of classes

On a grounded heap every class goes back, from parent to parent, to one class at the root, and each
parent was made before its child. So the walks over parents need no bound: the nearest static member
and the names of a class and its ancestors are what the chain says, with any bound above the handle
where the walk starts.

Every change that code makes keeps the heap grounded, and gives no handle out a second time.
-/

namespace ClassScript

namespace Heap

/-- The classes from a class up to one that has no parent. -/
inductive Chain (h : Heap) : Handle → List Handle → Prop
  | root {handle : Handle} {c : Container} (hc : h.get handle = .ok c)
      (hkind : c.kind = .classOf none) : h.Chain handle [handle]
  | child {handle parent : Handle} {c : Container} {chain : List Handle}
      (hc : h.get handle = .ok c) (hkind : c.kind = .classOf (some parent))
      (hlt : parent < handle) (hchain : h.Chain parent chain) : h.Chain handle (handle :: chain)

def hasStatic (h : Heap) (name : String) (handle : Handle) : Bool :=
  ((h.get handle).toOption.map fun c => c.statics.contains name).getD false

def names (h : Heap) (handles : List Handle) : List String :=
  handles.filterMap fun handle => (h.get handle).toOption.map Container.name

namespace Chain

variable {h : Heap} {handle : Handle} {chain : List Handle}

theorem unique {other : List Handle} (hchain : h.Chain handle chain)
    (hother : h.Chain handle other) : other = chain := by
  induction hchain generalizing other with
  | root hc hkind =>
      cases hother with
      | root => rfl
      | child hc' hkind' =>
          cases hc.symm.trans hc'
          cases hkind.symm.trans hkind'
  | child hc hkind _ _ ih =>
      cases hother with
      | root hc' hkind' =>
          cases hc.symm.trans hc'
          cases hkind.symm.trans hkind'
      | child hc' hkind' _ hrest =>
          cases hc.symm.trans hc'
          cases hkind.symm.trans hkind'
          rw [ih hrest]

/-- The walk for a static member finds the nearest class of the chain that has it. -/
theorem findStaticWithin (hchain : h.Chain handle chain) (name : String) {bound : Nat}
    (hbound : handle < bound) :
    h.findStaticWithin name bound handle = .ok (chain.find? (h.hasStatic name)) := by
  induction hchain generalizing bound with
  | @root handle c hc hkind =>
      obtain ⟨bound, rfl⟩ := Nat.exists_eq_add_one_of_ne_zero (Nat.ne_zero_of_lt hbound)
      have hstatic : h.hasStatic name handle = c.statics.contains name := by
        simp [hasStatic, hc, Except.toOption]
      cases hfound : c.statics.contains name <;>
        simp [Heap.findStaticWithin, hc, bind, Except.bind, hfound, hstatic, Container.parent?,
          hkind, pure, Except.pure, List.find?]
  | @child handle parent c chain hc hkind hlt _ ih =>
      obtain ⟨bound, rfl⟩ := Nat.exists_eq_add_one_of_ne_zero (Nat.ne_zero_of_lt hbound)
      have hstatic : h.hasStatic name handle = c.statics.contains name := by
        simp [hasStatic, hc, Except.toOption]
      cases hfound : c.statics.contains name with
      | true =>
          simp [Heap.findStaticWithin, hc, bind, Except.bind, hfound, hstatic, pure, Except.pure,
            List.find?]
      | false =>
          have hrest := ih (Nat.lt_of_lt_of_le hlt (Nat.le_of_lt_succ hbound))
          simp [Heap.findStaticWithin, hc, bind, Except.bind, hfound, hstatic, Container.parent?,
            hkind, List.find?, hrest]

theorem namesWithin (hchain : h.Chain handle chain) {bound : Nat} (hbound : handle < bound) :
    h.namesWithin bound handle = .ok (h.names chain) := by
  induction hchain generalizing bound with
  | @root handle c hc hkind =>
      obtain ⟨bound, rfl⟩ := Nat.exists_eq_add_one_of_ne_zero (Nat.ne_zero_of_lt hbound)
      simp [Heap.namesWithin, hc, bind, Except.bind, Container.parent?, hkind, pure, Except.pure,
        names, Except.toOption]
  | @child handle parent c chain hc hkind hlt _ ih =>
      obtain ⟨bound, rfl⟩ := Nat.exists_eq_add_one_of_ne_zero (Nat.ne_zero_of_lt hbound)
      have hrest := ih (Nat.lt_of_lt_of_le hlt (Nat.le_of_lt_succ hbound))
      simp [Heap.namesWithin, hc, bind, Except.bind, Container.parent?, hkind, pure, Except.pure,
        names, Except.toOption, hrest]

end Chain

/-! ## Grounded heaps -/

/-- Every container stands on classes that were made before it, and only the root has no parent. -/
structure Grounded (h : Heap) (root : Handle) : Prop where
  above : ∀ handle c, h.get handle = .ok c → ∀ up, c.kind.above? = some up →
    up < handle ∧ ∃ cls, h.get up = .ok cls ∧ cls.isClass
  object : ∃ c, h.get root = .ok c ∧ c.kind = .classOf none ∧ c.name = "Object"
  only : ∀ handle c, h.get handle = .ok c → c.kind = .classOf none → handle = root

/-- Every class goes back to the root. -/
theorem Grounded.chain {h : Heap} {root : Handle} (hg : h.Grounded root) {handle : Handle}
    {c : Container} (hc : h.get handle = .ok c) (hclass : c.isClass) :
    ∃ chain, h.Chain handle chain ∧ chain.getLast? = some root := by
  induction handle using Nat.strongRecOn generalizing c with
  | ind handle ih =>
      cases hkind : c.kind with
      | instanceOf cls => simp [Container.isClass, hkind] at hclass
      | classOf parent =>
          cases parent with
          | none => exact ⟨[handle], .root hc hkind, by rw [hg.only handle c hc hkind]; rfl⟩
          | some parent =>
              obtain ⟨hlt, p, hp, hpclass⟩ := hg.above handle c hc parent (by rw [hkind]; rfl)
              obtain ⟨chain, hchain, hlast⟩ := ih parent hlt hp hpclass
              refine ⟨handle :: chain, .child hc hkind hlt hchain, ?_⟩
              rw [List.getLast?_cons, hlast]
              rfl

/-- The root is a class, like everything else that a class inherits from. -/
theorem Grounded.isClass_of_or {h : Heap} {root : Handle} (hg : h.Grounded root)
    {handle : Handle} {c : Container} (hc : h.get handle = .ok c)
    (hor : handle = root ∨ c.isClass) : c.isClass := by
  rcases hor with rfl | hclass
  · obtain ⟨object, hobject, hkind, _⟩ := hg.object
    cases hc.symm.trans hobject
    exact Container.isClass_of_kind hkind
  · exact hclass

/-- Handles that were given out stand for what they stood for before, or for nothing any more. -/
structure Persists (h h' : Heap) : Prop where
  size : h.slots.size ≤ h'.slots.size
  same : ∀ handle c', handle < h.slots.size → h'.get handle = .ok c' →
    ∃ c, h.get handle = .ok c ∧ c.Lasts c'

theorem Persists.refl (h : Heap) : h.Persists h :=
  ⟨Nat.le_refl _, fun _ c _ hc => ⟨c, hc, .refl c⟩⟩

theorem Persists.trans {h₁ h₂ h₃ : Heap} (h₁₂ : h₁.Persists h₂) (h₂₃ : h₂.Persists h₃) :
    h₁.Persists h₃ where
  size := Nat.le_trans h₁₂.size h₂₃.size
  same handle c₃ hlt hc₃ := by
    obtain ⟨c₂, hc₂, hlasts⟩ := h₂₃.same handle c₃ (Nat.lt_of_lt_of_le hlt h₁₂.size) hc₃
    obtain ⟨c₁, hc₁, hlasts'⟩ := h₁₂.same handle c₂ hlt hc₂
    exact ⟨c₁, hc₁, hlasts'.trans hlasts⟩

end Heap

/-! ## Changes -/

namespace State

variable {s : State}

/-- Where a container comes from: it was there before the change, or the change added it. -/
theorem get_apply_cases {change : Change} (hown : change.Own) {handle : Handle}
    {c' : Container} (h : (s.apply change).heap.get handle = .ok c') :
    (∃ c, s.heap.get handle = .ok c ∧ c.Lasts c') ∨
      handle = s.heap.slots.size ∧ (change = .addClass c' ∨
        ∃ cls i, change = .addInstance cls i ∧ c' = (cls.instantiate i s.lists).1) := by
  have hadded : ∀ new : Container, (s.heap.alloc new).2.get handle = .ok c' →
      (∃ c, s.heap.get handle = .ok c ∧ c.Lasts c') ∨ handle = s.heap.slots.size ∧ c' = new := by
    intro new hnew
    rw [Heap.get_alloc] at hnew
    split at hnew
    · next heq => exact Or.inr ⟨heq, (Except.ok.inj hnew).symm⟩
    · exact Or.inl ⟨c', hnew, .refl c'⟩
  cases change with
  | foreign f => exact hown.elim
  | setMember slot name v =>
      have hget : (s.apply (.setMember slot name v)).heap.get handle =
          if slot.handle = handle then (s.heap.get handle).map
            fun c => c.setValue slot.isStatic name v
          else s.heap.get handle := Heap.get_modify ..
      rw [hget] at h
      split at h
      · cases hc : s.heap.get handle with
        | error f => rw [hc] at h; cases h
        | ok c =>
            rw [hc] at h
            cases h
            exact Or.inl ⟨c, rfl, c.lasts_setValue slot.isStatic name v⟩
      · exact Or.inl ⟨c', h, .refl c'⟩
  | addClass new =>
      rcases hadded new h with hold | ⟨hnew, rfl⟩
      · exact Or.inl hold
      · exact Or.inr ⟨hnew, Or.inl rfl⟩
  | addInstance cls i =>
      rcases hadded _ h with hold | ⟨hnew, rfl⟩
      · exact Or.inl hold
      · exact Or.inr ⟨hnew, Or.inr ⟨cls, i, rfl, rfl⟩⟩
  | frame | list _ | bind _ _ _ | setItem _ _ _ | register _ _ | print _ =>
      exact Or.inl ⟨c', h, .refl c'⟩

theorem persists_apply (s : State) {change : Change} (hown : change.Own) :
    s.heap.Persists (s.apply change).heap where
  size := s.slots_size_apply hown
  same handle c' hlt hc' := by
    rcases get_apply_cases hown hc' with hold | ⟨rfl, _⟩
    · exact hold
    · exact absurd hlt (Nat.lt_irrefl _)

theorem persists_after (s : State) {cs : List Change} (hown : ∀ c ∈ cs, c.Own) :
    s.heap.Persists (s.after cs).heap := by
  induction cs generalizing s with
  | nil => exact .refl s.heap
  | cons c cs ih =>
      exact (s.persists_apply (hown c List.mem_cons_self)).trans
        (ih _ fun d hd => hown d (List.mem_cons_of_mem _ hd))

theorem grounded_apply {H : Horizon} (hforeign : ¬ H.foreign) {known : List (String × String)}
    {change : Change} (hg : s.heap.Grounded s.objectClass) (hchange : change.Allowed H known s) :
    (s.apply change).heap.Grounded s.objectClass := by
  have hown := hchange.own hforeign
  obtain ⟨root, hroot, hkind, hname⟩ := hg.object
  have hstays : ∀ {up cls}, s.heap.get up = .ok cls → cls.isClass →
      ∃ cls', (s.apply change).heap.get up = .ok cls' ∧ cls'.isClass := by
    intro up cls hup hcls
    obtain ⟨cls', hcls', hlasts⟩ := get_apply_of_ok hup hown
    exact ⟨cls', hcls', by rw [hlasts.isClass_eq]; exact hcls⟩
  refine ⟨fun handle c' hc' up hup => ?_, ?_, fun handle c' hc' hkind' => ?_⟩
  · rcases get_apply_cases hown hc' with ⟨c, hc, hlasts⟩ | ⟨rfl, rfl | ⟨cls, i, rfl, rfl⟩⟩
    · rw [hlasts.kind] at hup
      obtain ⟨hlt, cls, hcls, hisClass⟩ := hg.above handle c hc up hup
      exact ⟨hlt, hstays hcls hisClass⟩
    · obtain ⟨i, parent, hkind', hparent, hor, _⟩ := hchange.2.resolve_left hforeign
      rw [hkind'] at hup
      cases hup
      exact ⟨Heap.lt_size_of_get hparent, hstays hparent (hg.isClass_of_or hparent hor)⟩
    · obtain ⟨hcls, hisClass, _⟩ := hchange
      cases hup
      exact ⟨Heap.lt_size_of_get hcls, hstays hcls hisClass⟩
  · obtain ⟨root', hroot', hlasts⟩ := get_apply_of_ok hroot hown
    exact ⟨root', hroot', hlasts.kind.trans hkind, hlasts.name.trans hname⟩
  · rcases get_apply_cases hown hc' with ⟨c, hc, hlasts⟩ | ⟨rfl, rfl | ⟨cls, i, rfl, rfl⟩⟩
    · exact hg.only handle c hc (hlasts.kind.symm.trans hkind')
    · obtain ⟨i, parent, hkind'', _⟩ := hchange.2.resolve_left hforeign
      rw [hkind''] at hkind'
      cases hkind'
    · cases hkind'

theorem grounded_after {H : Horizon} (hforeign : ¬ H.foreign) {known : List (String × String)}
    {cs : List Change} (hg : s.heap.Grounded s.objectClass) (hcs : H.Allows known s cs) :
    (s.after cs).heap.Grounded s.objectClass := by
  induction cs generalizing s known with
  | nil => exact hg
  | cons c cs ih =>
      have hobject := s.apply_objectClass (hcs.1.own hforeign)
      rw [← hobject]
      refine ih ?_ hcs.2
      rw [hobject]
      exact grounded_apply hforeign hg hcs.1

end State

end ClassScript

import ClassScript.Proofs.Ancestry
import ClassScript.Proofs.Sessions

/-!
# Where classes and members come from

A member belongs to the class that declares it, under the name of that class. In every state that
arises in a session, the class is one that the container with the member goes back to, and it is
still there.

A name stands for one class as long as it is declared once, counting the classes that are there at
the start. The registry then tells the same about its parent as the heap does. Nothing else needs to
be said about the other names of the program.
-/

namespace ClassScript

/-! ## Members -/

theorem Container.map_copyMembers (members : List (String × Member)) (ls : Lists) :
    (copyMembers members ls).1.map (fun entry => entry.2.origin entry.1) =
      members.map fun entry => entry.2.origin entry.1 := by
  induction members generalizing ls with
  | nil => rfl
  | cons entry members ih =>
      simp only [copyMembers, List.map_cons, ih]
      rfl

/-- An instance has the members of its class, and no statics. -/
theorem Container.mem_origins_instantiate {cls : Container} {handle : Handle} {ls : Lists}
    {isStatic : Bool} {o : Origin} (h : o ∈ (cls.instantiate handle ls).1.origins isStatic) :
    isStatic = false ∧ o ∈ cls.origins false := by
  cases isStatic with
  | false =>
      have hsame : (cls.instantiate handle ls).1.origins false = cls.origins false :=
        map_copyMembers cls.members.entries ls
      exact ⟨rfl, hsame ▸ h⟩
  | true => exact absurd h List.not_mem_nil

namespace Heap

/-- The containers that `p` holds of last from one heap to another, with the classes that they stand
on. -/
structure Carries (p : Handle → Prop) (h h' : Heap) : Prop where
  lasts : ∀ handle c, p handle → h.get handle = .ok c →
    ∃ c', h'.get handle = .ok c' ∧ c.Lasts c'
  above : ∀ handle c up, p handle → h.get handle = .ok c → c.kind.above? = some up → p up

variable {h h' : Heap} {p : Handle → Prop}

theorem Carries.chain (hcarries : Carries p h h') {handle : Handle} {chain : List Handle}
    (hp : p handle) (hchain : h.Chain handle chain) :
    h'.Chain handle chain ∧ ∀ d ∈ chain, p d := by
  induction hchain with
  | root hc hkind =>
      obtain ⟨c', hc', hlasts⟩ := hcarries.lasts _ _ hp hc
      exact ⟨.root hc' (hlasts.kind.trans hkind), fun d hd => List.mem_singleton.mp hd ▸ hp⟩
  | child hc hkind hlt _ ih =>
      obtain ⟨c', hc', hlasts⟩ := hcarries.lasts _ _ hp hc
      obtain ⟨hrest, hmem⟩ := ih (hcarries.above _ _ _ hp hc (by rw [hkind]; rfl))
      refine ⟨.child hc' (hlasts.kind.trans hkind) hlt hrest, fun d hd => ?_⟩
      rcases List.mem_cons.mp hd with rfl | hd
      · exact hp
      · exact hmem d hd

/-- The class `d` declares a member, and `handle` is that class or inherits from it. -/
def Declares (h : Heap) (handle : Handle) (isStatic : Bool) (o : Origin) (d : Handle) : Prop :=
  ∃ chain c, h.Chain handle chain ∧ d ∈ chain ∧ h.get d = .ok c ∧ c.name = o.owner ∧
    o ∈ c.origins isStatic

theorem Carries.declares (hcarries : Carries p h h') {handle d : Handle} {isStatic : Bool}
    {o : Origin} (hp : p handle) (hdeclares : h.Declares handle isStatic o d) :
    h'.Declares handle isStatic o d := by
  obtain ⟨chain, c, hchain, hd, hc, hname, ho⟩ := hdeclares
  obtain ⟨hchain', hmem⟩ := hcarries.chain hp hchain
  obtain ⟨c', hc', hlasts⟩ := hcarries.lasts d c (hmem d hd) hc
  exact ⟨chain, c', hchain', hd, hc', hlasts.name.trans hname, by rwa [hlasts.origins]⟩

/-- Members are declared by classes that their containers go back to, statics by the classes that
have them, and the root declares nothing. -/
structure Traced (h : Heap) (root : Handle) : Prop where
  members : ∀ handle c, h.get handle = .ok c → ∀ o ∈ c.origins false,
    ∃ d, h.Declares (c.classHandle handle) false o d
  statics : ∀ handle c, h.get handle = .ok c → ∀ o ∈ c.origins true, o.owner = c.name
  root : ∀ c, h.get root = .ok c → ∀ isStatic, c.origins isStatic = []

end Heap

namespace State

variable {s : State}

theorem carries_apply (s : State) {change : Change} (hown : change.Own) :
    Heap.Carries (fun _ => True) s.heap (s.apply change).heap where
  lasts _ _ _ hc := get_apply_of_ok hc hown
  above _ _ _ _ _ _ := trivial

theorem carries_after (s : State) {cs : List Change} (hown : ∀ c ∈ cs, c.Own) :
    Heap.Carries (fun _ => True) s.heap (s.after cs).heap where
  lasts _ _ _ hc := get_after_of_ok hc hown
  above _ _ _ _ _ _ := trivial

theorem carries_collectGarbage (s : State) :
    Heap.Carries (fun handle => s.Live (.container handle)) s.heap s.collectGarbage.1.heap where
  lasts _ c hlive hc := ⟨c, get_collectGarbage.mpr ⟨hc, hlive⟩, .refl c⟩
  above handle c up hlive hc hup := by
    refine .step hlive ?_
    simp only [Store.arrows, hc]
    exact Container.mem_nodes_of_above? hup

theorem classHandle_of_isClass {c : Container} (h : c.isClass) (handle : Handle) :
    c.classHandle handle = handle := by
  unfold Container.isClass at h
  unfold Container.classHandle
  split at h
  · rfl
  · cases h

/-- What a new class declares and what it inherits, on the heap that has it. -/
theorem declares_addClass {new parent : Container} {up : Handle}
    (hg : s.heap.Grounded s.objectClass) (htraced : s.heap.Traced s.objectClass)
    (hkind : new.kind = .classOf (some up)) (hparent : s.heap.get up = .ok parent)
    (hclass : parent.isClass) (hextends : new.Extends parent) {o : Origin}
    (ho : o ∈ new.origins false) :
    ∃ d, (s.heap.alloc new).2.Declares s.heap.slots.size false o d := by
  have hcarries : Heap.Carries (fun _ => True) s.heap (s.apply (.addClass new)).heap :=
    s.carries_apply trivial
  have hnew : (s.heap.alloc new).2.get s.heap.slots.size = .ok new := Heap.get_alloc_self _ _
  have hchain : ∀ {chain}, s.heap.Chain up chain →
      (s.heap.alloc new).2.Chain s.heap.slots.size (s.heap.slots.size :: chain) := fun h =>
    .child hnew hkind (Heap.lt_size_of_get hparent) (hcarries.chain trivial h).1
  rcases hextends.members o ho with hown | hinherited
  · obtain ⟨chain, hup, _⟩ := hg.chain hparent hclass
    exact ⟨_, _, new, hchain hup, List.mem_cons_self, hnew, hown.symm, ho⟩
  · obtain ⟨d, hd⟩ := htraced.members up parent hparent o hinherited
    rw [classHandle_of_isClass hclass] at hd
    obtain ⟨chain, c, hup, hmem, hrest⟩ := hd
    obtain ⟨_, c', _, _, hc'⟩ :=
      hcarries.declares trivial ⟨chain, c, hup, hmem, hrest⟩
    exact ⟨d, _, c', hchain hup, List.mem_cons_of_mem _ hmem, hc'⟩

theorem traced_apply {H : Horizon} (hforeign : ¬ H.foreign) {known : List (String × String)}
    {change : Change} (hg : s.heap.Grounded s.objectClass)
    (htraced : s.heap.Traced s.objectClass) (hchange : change.Allowed H known s) :
    (s.apply change).heap.Traced s.objectClass := by
  have hown := hchange.own hforeign
  have hcarries := s.carries_apply hown
  obtain ⟨object, hobject, _⟩ := hg.object
  refine ⟨fun handle c' hc' o ho => ?_, fun handle c' hc' o ho => ?_, fun c' hc' isStatic => ?_⟩
  · rcases get_apply_cases hown hc' with ⟨c, hc, hlasts⟩ | ⟨rfl, rfl | ⟨cls, i, rfl, rfl⟩⟩
    · rw [hlasts.origins] at ho
      obtain ⟨d, hd⟩ := htraced.members handle c hc o ho
      rw [hlasts.classHandle_eq]
      exact ⟨d, hcarries.declares trivial hd⟩
    · obtain ⟨up, parent, hkind, hparent, hor, hextends, _⟩ := hchange.2.resolve_left hforeign
      rw [classHandle_of_isClass (Container.isClass_of_kind hkind)]
      exact declares_addClass hg htraced hkind hparent (hg.isClass_of_or hparent hor) hextends ho
    · obtain ⟨hcls, hclass, _⟩ := hchange
      obtain ⟨d, hd⟩ := htraced.members i cls hcls o (Container.mem_origins_instantiate ho).2
      rw [classHandle_of_isClass hclass] at hd
      exact ⟨d, hcarries.declares trivial hd⟩
  · rcases get_apply_cases hown hc' with ⟨c, hc, hlasts⟩ | ⟨rfl, rfl | ⟨cls, i, rfl, rfl⟩⟩
    · rw [hlasts.origins] at ho
      rw [hlasts.name]
      exact htraced.statics handle c hc o ho
    · obtain ⟨_, _, _, _, _, hextends, _⟩ := hchange.2.resolve_left hforeign
      exact hextends.statics o ho
    · cases (Container.mem_origins_instantiate ho).1
  · obtain ⟨c, hc, hlasts⟩ := (s.persists_apply hown).same _ c' (Heap.lt_size_of_get hobject) hc'
    rw [hlasts.origins]
    exact htraced.root c hc isStatic

/-- A collection takes no class away that something left goes back to. -/
theorem traced_collectGarbage (htraced : s.heap.Traced s.objectClass) :
    s.collectGarbage.1.heap.Traced s.objectClass := by
  refine ⟨fun handle c hc o ho => ?_, fun handle c hc => ?_, fun c hc => ?_⟩
  · obtain ⟨hc, hlive⟩ := get_collectGarbage.mp hc
    obtain ⟨d, hd⟩ := htraced.members handle c hc o ho
    refine ⟨d, s.carries_collectGarbage.declares ?_ hd⟩
    cases hkind : c.kind with
    | classOf parent => simpa [Container.classHandle, hkind] using hlive
    | instanceOf cls =>
        have hup := s.carries_collectGarbage.above handle c cls hlive hc (by rw [hkind]; rfl)
        simpa [Container.classHandle, hkind] using hup
  · exact htraced.statics handle c (get_collectGarbage.mp hc).1
  · exact htraced.root c (get_collectGarbage.mp hc).1

theorem traced_startOn (sink : Sink) :
    (startOn sink).heap.Traced (startOn sink).objectClass where
  members handle c hc o ho := by
    rcases startOn_get hc with ⟨rfl, rfl⟩ | ⟨rfl, rfl⟩ | ⟨rfl, rfl⟩
    · exact absurd ho List.not_mem_nil
    · exact absurd ho List.not_mem_nil
    · obtain rfl := List.mem_singleton.mp ho
      exact ⟨2, [2, 0], _, .child rfl rfl (by decide) (.root rfl rfl), List.mem_cons_self, rfl, rfl,
        List.mem_cons_self⟩
  statics handle c hc o ho := by
    rcases startOn_get hc with ⟨rfl, rfl⟩ | ⟨rfl, rfl⟩ | ⟨rfl, rfl⟩
    · exact absurd ho List.not_mem_nil
    · exact absurd ho List.not_mem_nil
    · obtain rfl := List.mem_singleton.mp ho
      rfl
  root c hc isStatic := by
    obtain rfl : Builtin.plainClass "Object" none = c := Except.ok.inj hc
    cases isStatic <;> rfl

end State

/-! ## Names -/

def Change.declared (known : List (String × String)) : Change → List (String × String)
  | .register name parent => (name, parent) :: known
  | _ => known

def Change.declaredAfter (known : List (String × String)) (cs : List Change) :
    List (String × String) :=
  cs.foldl Change.declared known

/-- The names of the classes that have been there, given those that were declared. -/
def classNames (declared : List (String × String)) : List String :=
  declared.map Prod.fst ++ ["Object", "Type", "String"]

theorem mem_classNames {declared : List (String × String)} {name parent : String}
    (h : (name, parent) ∈ declared) : name ∈ classNames declared :=
  List.mem_append_left _ (List.mem_map.mpr ⟨_, h, rfl⟩)

def DeclaredOnce (declared : List (String × String)) (name : String) : Prop :=
  (classNames declared).count name ≤ 1

instance (declared : List (String × String)) (name : String) :
    Decidable (DeclaredOnce declared name) :=
  inferInstanceAs (Decidable (_ ≤ _))

namespace DeclaredOnce

variable {declared : List (String × String)} {name other parent : String}

theorem of_cons (h : DeclaredOnce ((other, parent) :: declared) name) :
    DeclaredOnce declared name :=
  Nat.le_trans (List.count_le_count_cons) h

/-- A name that has just been declared for the only time. -/
theorem not_mem_of_cons (h : DeclaredOnce ((name, parent) :: declared) name) :
    name ∉ classNames declared := by
  have hcount : (classNames declared).count name + 1 ≤ 1 := by
    simpa [DeclaredOnce, classNames, Nat.add_assoc] using h
  exact List.count_eq_zero.mp (Nat.le_zero.mp (Nat.le_of_succ_le_succ hcount))

/-- A declaration that is under way is the only one of its name. -/
theorem not_mem_of_sublist {pending : List (String × String)} (h : DeclaredOnce declared name)
    (hsub : ((name, parent) :: pending).Sublist declared) : name ∉ pending.map Prod.fst := by
  have hcount : (pending.map Prod.fst).count name + 1 ≤ 1 := by
    calc (pending.map Prod.fst).count name + 1
        = (((name, parent) :: pending).map Prod.fst).count name := by simp
      _ ≤ (declared.map Prod.fst).count name := (hsub.map Prod.fst).count_le name
      _ ≤ (classNames declared).count name := by simp [classNames]
      _ ≤ 1 := h
  exact List.count_eq_zero.mp (Nat.le_zero.mp (Nat.le_of_succ_le_succ hcount))

end DeclaredOnce

namespace State

/-- What holds of a name that stands for one class. The class is not there while its declaration is
under way. The registry knows the parent of the class, but for one of the classes right below the
root. -/
structure NamedOnce (s : State) (pending : List (String × String)) (name : String) : Prop where
  unique : ∀ {i j : Handle} {c d : Container}, s.heap.get i = .ok c → c.isClass → c.name = name →
    s.heap.get j = .ok d → d.isClass → d.name = name → i = j
  unborn : ∀ {i : Handle} {c : Container}, s.heap.get i = .ok c → c.isClass → c.name = name →
    name ∉ pending.map Prod.fst
  registered : ∀ parent, (name, parent) ∈ pending → s.registry.parentOf? name = some parent
  child : ∀ {i up : Handle} {c parent : Container}, s.heap.get i = .ok c → c.name = name →
    c.kind = .classOf (some up) → s.heap.get up = .ok parent →
    s.registry.parentOf? name = some parent.name ∨
      s.registry.parentOf? name = none ∧ up = s.objectClass
  root : ∀ {i : Handle} {c : Container}, s.heap.get i = .ok c → c.name = name →
    c.kind = .classOf none → s.registry.parentOf? name = none

structure Named (s : State) (declared pending : List (String × String)) : Prop where
  sublist : pending.Sublist declared
  known : ∀ {i : Handle} {c : Container}, s.heap.get i = .ok c → c.isClass →
    c.name ∈ classNames declared
  once : ∀ {name : String}, DeclaredOnce declared name → s.NamedOnce pending name

variable {s t : State} {declared pending : List (String × String)} {name : String}

/-- A name goes on standing for one class when no class of that name comes. -/
theorem NamedOnce.carry (h : s.NamedOnce pending name) {later : List (String × String)}
    (hg : s.heap.Grounded s.objectClass) (hst : s.heap.Persists t.heap)
    (hold : ∀ i c, t.heap.get i = .ok c → c.isClass → c.name = name → i < s.heap.slots.size)
    (hobject : t.objectClass = s.objectClass)
    (hregistry : t.registry.parentOf? name = s.registry.parentOf? name)
    (hlater : ∀ parent, (name, parent) ∈ later → (name, parent) ∈ pending) :
    t.NamedOnce later name := by
  have hclass : ∀ {i c}, t.heap.get i = .ok c → c.isClass → c.name = name →
      ∃ b, s.heap.get i = .ok b ∧ b.isClass ∧ b.name = name ∧ b.kind = c.kind := by
    intro i c hc hcls hname
    obtain ⟨b, hb, hlasts⟩ := hst.same i c (hold i c hc hcls hname) hc
    exact ⟨b, hb, hlasts.isClass_eq ▸ hcls, hlasts.name ▸ hname, hlasts.kind.symm⟩
  refine ⟨fun hc hcls hname hd hdcls hdname => ?_, fun hc hcls hname hmem => ?_,
    fun parent hp => ?_, fun {i up c parent} hc hname hkind hup => ?_, fun hc hname hkind => ?_⟩
  · obtain ⟨b, hb, hbcls, hbname, _⟩ := hclass hc hcls hname
    obtain ⟨b', hb', hbcls', hbname', _⟩ := hclass hd hdcls hdname
    exact h.unique hb hbcls hbname hb' hbcls' hbname'
  · obtain ⟨b, hb, hbcls, hbname, _⟩ := hclass hc hcls hname
    obtain ⟨⟨_, parent⟩, hp, rfl⟩ := List.mem_map.mp hmem
    exact h.unborn hb hbcls hbname (List.mem_map.mpr ⟨_, hlater parent hp, rfl⟩)
  · rw [hregistry]
    exact h.registered parent (hlater parent hp)
  · obtain ⟨b, hb, _, hbname, hbkind⟩ := hclass hc (Container.isClass_of_kind hkind) hname
    have hlt : up < s.heap.slots.size :=
      Heap.lt_size_of_get (hg.above i b hb up (by rw [hbkind, hkind]; rfl)).2.choose_spec.1
    obtain ⟨p, hp, hlasts⟩ := hst.same up parent hlt hup
    rw [hregistry, hobject, hlasts.name]
    exact h.child hb hbname (hbkind.trans hkind) hp
  · obtain ⟨b, hb, _, hbname, hbkind⟩ := hclass hc (Container.isClass_of_kind hkind) hname
    rw [hregistry]
    exact h.root hb hbname (hbkind.trans hkind)

theorem Named.idle (h : s.Named declared pending) : s.Named declared [] where
  sublist := List.nil_sublist _
  known := h.known
  once hname :=
    { h.once hname with
      unborn := fun _ _ _ => List.not_mem_nil
      registered := fun _ hp => absurd hp List.not_mem_nil }

theorem Named.collectGarbage (h : s.Named declared []) (hg : s.heap.Grounded s.objectClass) :
    s.collectGarbage.1.Named declared [] where
  sublist := List.nil_sublist _
  known hc := h.known (get_collectGarbage.mp hc).1
  once hname := (h.once hname).carry hg s.persists_collectGarbage
    (fun _ _ hc _ _ => Heap.lt_size_of_get (get_collectGarbage.mp hc).1) rfl rfl fun _ hp => hp

theorem Named.register (h : s.Named declared pending) (hg : s.heap.Grounded s.objectClass)
    (name parent : String) :
    (s.apply (.register name parent)).Named ((name, parent) :: declared)
      ((name, parent) :: pending) where
  sublist := h.sublist.cons_cons (name, parent)
  known hc hclass := List.mem_cons_of_mem _ (h.known hc hclass)
  once := by
    intro other hother
    by_cases heq : name = other
    · subst heq
      -- no class has the name yet
      have hnew := hother.not_mem_of_cons
      have hnone : ∀ {i c}, s.heap.get i = .ok c → c.isClass → c.name ≠ name := by
        rintro i c hc hclass rfl
        exact hnew (h.known hc hclass)
      refine ⟨fun hc hclass hname => absurd hname (hnone hc hclass),
        fun hc hclass hname => absurd hname (hnone hc hclass), fun p hp => ?_,
        fun hc hname hkind => absurd hname (hnone hc (Container.isClass_of_kind hkind)),
        fun hc hname hkind => absurd hname (hnone hc (Container.isClass_of_kind hkind))⟩
      rcases List.mem_cons.mp hp with hp | hp
      · cases hp
        exact Registry.parentOf?_define_self _ _ _
      · exact absurd (mem_classNames (h.sublist.subset hp)) hnew
    · refine (h.once hother.of_cons).carry hg (s.persists_apply trivial)
        (fun _ _ hc _ _ => Heap.lt_size_of_get hc) rfl ?_ fun p hp => ?_
      · exact Registry.parentOf?_define_of_ne _ heq _
      · rcases List.mem_cons.mp hp with hp | hp
        · cases hp
          exact absurd rfl heq
        · exact hp

theorem get_addClass {new c : Container} {i : Handle}
    (hc : (s.apply (.addClass new)).heap.get i = .ok c) :
    s.heap.get i = .ok c ∨ i = s.heap.slots.size ∧ c = new := by
  rw [show (s.apply (.addClass new)).heap.get i = _ from Heap.get_alloc ..] at hc
  split at hc
  · next heq => exact Or.inr ⟨heq, (Except.ok.inj hc).symm⟩
  · exact Or.inl hc

/-- The name of a class whose declaration ends stands for that class. -/
theorem NamedOnce.addClass {new parent : Container} {up : Handle}
    (h : s.NamedOnce ((new.name, parent.name) :: pending) new.name)
    (hkind : new.kind = .classOf (some up)) (hparent : s.heap.get up = .ok parent)
    (honce : new.name ∉ pending.map Prod.fst) :
    (s.apply (.addClass new)).NamedOnce pending new.name := by
  -- there was no class of the name before
  have honly : ∀ {i c}, (s.apply (.addClass new)).heap.get i = .ok c → c.isClass →
      c.name = new.name → i = s.heap.slots.size ∧ c = new := by
    intro i c hc hclass hname
    exact (get_addClass hc).resolve_left fun hc => h.unborn hc hclass hname List.mem_cons_self
  refine ⟨fun hc hclass hname hd hdclass hdname => ?_, fun _ _ _ => honce,
    fun p hp => h.registered p (List.mem_cons_of_mem _ hp),
    fun {i up' c parent'} hc hname hckind hup => ?_, fun hc hname hckind => ?_⟩
  · rw [(honly hc hclass hname).1, (honly hd hdclass hdname).1]
  · obtain ⟨_, rfl⟩ := honly hc (Container.isClass_of_kind hckind) hname
    cases hkind.symm.trans hckind
    have hpersists : s.heap.Persists (s.apply (.addClass c)).heap := s.persists_apply trivial
    obtain ⟨p, hp, hlasts⟩ := hpersists.same up parent' (Heap.lt_size_of_get hparent) hup
    cases hparent.symm.trans hp
    rw [hlasts.name]
    exact Or.inl (h.registered parent.name List.mem_cons_self)
  · obtain ⟨_, rfl⟩ := honly hc (Container.isClass_of_kind hckind) hname
    cases hkind.symm.trans hckind

theorem Named.addClass {H : Horizon} (hforeign : ¬ H.foreign) (h : s.Named declared pending)
    (hg : s.heap.Grounded s.objectClass) {new : Container}
    (hnew : (Change.addClass new).Allowed H pending s) :
    (s.apply (.addClass new)).Named declared pending.tail := by
  obtain ⟨up, parent, hkind, hparent, _, _, hhead⟩ := hnew.2.resolve_left hforeign
  obtain ⟨rest, rfl⟩ : ∃ rest, pending = (new.name, parent.name) :: rest := by
    cases pending with
    | nil => cases hhead
    | cons _ rest => exact ⟨rest, by rw [Option.some.inj hhead]⟩
  refine ⟨(List.sublist_cons_self _ _).trans h.sublist, fun hc hclass => ?_, fun {name} hname => ?_⟩
  · rcases get_addClass hc with hc | ⟨rfl, rfl⟩
    · exact h.known hc hclass
    · exact mem_classNames (h.sublist.subset List.mem_cons_self)
  · by_cases heq : new.name = name
    · subst heq
      exact (h.once hname).addClass hkind hparent (hname.not_mem_of_sublist h.sublist)
    · refine (h.once hname).carry hg (s.persists_apply trivial) (fun i c hc _ hcname => ?_) rfl rfl
        fun p hp => List.mem_cons_of_mem _ hp
      rcases get_addClass hc with hc | ⟨_, rfl⟩
      · exact Heap.lt_size_of_get hc
      · exact absurd hcname heq

theorem Named.apply {H : Horizon} (hforeign : ¬ H.foreign) (h : s.Named declared pending)
    (hg : s.heap.Grounded s.objectClass) {change : Change}
    (hchange : change.Allowed H pending s) :
    (s.apply change).Named (change.declared declared) (change.pending pending) := by
  have hown := hchange.own hforeign
  -- every other change adds no class and leaves the registry alone
  have hother : (∀ new, change ≠ .addClass new) → (s.apply change).registry = s.registry →
      (s.apply change).Named declared pending := by
    intro hno hregistry
    have hold : ∀ {i c}, (s.apply change).heap.get i = .ok c → c.isClass →
        ∃ b, s.heap.get i = .ok b ∧ b.Lasts c := by
      intro i c hc hclass
      rcases get_apply_cases hown hc with hb | ⟨_, heq | ⟨cls, j, rfl, rfl⟩⟩
      · exact hb
      · exact absurd heq (hno c)
      · cases hclass
    refine ⟨h.sublist, fun hc hclass => ?_, fun hname => ?_⟩
    · obtain ⟨b, hb, hlasts⟩ := hold hc hclass
      rw [hlasts.name]
      exact h.known hb (hlasts.isClass_eq ▸ hclass)
    · refine (h.once hname).carry hg (s.persists_apply hown) (fun i c hc hclass _ => ?_)
        (s.apply_objectClass hown) (by rw [hregistry]) fun _ hp => hp
      obtain ⟨b, hb, _⟩ := hold hc hclass
      exact Heap.lt_size_of_get hb
  cases change with
  | register name parent => exact h.register hg name parent
  | addClass new => exact h.addClass hforeign hg hchange
  | foreign f => exact hown.elim
  | frame | list _ | bind _ _ _ | setItem _ _ _ | setMember _ _ _ | addInstance _ _ | print _ =>
      exact hother nofun rfl

theorem named_startOn (sink : Sink) : (startOn sink).Named [] [] := by
  refine ⟨List.nil_sublist _, fun hc _ => ?_, fun {name} _ => ⟨?_, ?_, ?_, ?_, ?_⟩⟩
  · rcases startOn_get hc with ⟨rfl, rfl⟩ | ⟨rfl, rfl⟩ | ⟨rfl, rfl⟩ <;> decide
  · intro i j c d hc _ hcname hd _ hdname
    have hsame : c.name = d.name := hcname.trans hdname.symm
    rcases startOn_get hc with ⟨rfl, rfl⟩ | ⟨rfl, rfl⟩ | ⟨rfl, rfl⟩ <;>
      rcases startOn_get hd with ⟨rfl, rfl⟩ | ⟨rfl, rfl⟩ | ⟨rfl, rfl⟩ <;>
      first | rfl | exact absurd hsame (by decide)
  · exact fun _ _ _ => List.not_mem_nil
  · exact fun _ hp => absurd hp List.not_mem_nil
  · rintro i up c parent hc rfl hkind hup
    rcases startOn_get hc with ⟨rfl, rfl⟩ | ⟨rfl, rfl⟩ | ⟨rfl, rfl⟩
    · cases hkind
    · cases hkind
      obtain rfl : Builtin.plainClass "Object" none = parent := Except.ok.inj hup
      exact Or.inl rfl
    · cases hkind
      exact Or.inr ⟨rfl, rfl⟩
  · rintro i c hc rfl hkind
    rcases startOn_get hc with ⟨rfl, rfl⟩ | ⟨rfl, rfl⟩ | ⟨rfl, rfl⟩
    · rfl
    · cases hkind
    · cases hkind

/-! ## States that arise -/

/-- The states that arise in a session, with the classes that have been declared by then and the
declarations that are under way. -/
inductive Arises : (declared pending : List (String × String)) → State → Prop
  | start (sink : Sink) : Arises [] [] (startOn sink)
  | change {declared pending : List (String × String)} {s : State} {stale : Node → Prop}
      {c : Change} (h : Arises declared pending s) (hs : s.Intact stale)
      (hc : c.Allowed (.beyond stale) pending s) :
      Arises (c.declared declared) (c.pending pending) (s.apply c)
  /-- Code of any class runs at any depth of calls. -/
  | control {declared pending : List (String × String)} {s : State}
      (h : Arises declared pending s) (depth : Nat) (context : List (Option String)) :
      Arises declared pending (s.control depth context)
  /-- A run ends, if need be in the middle of a declaration. -/
  | idle {declared pending : List (String × String)} {s : State} (h : Arises declared pending s) :
      Arises declared [] s
  | collect {declared : List (String × String)} {s : State} (h : Arises declared [] s) :
      Arises declared [] s.collectGarbage.1

namespace Arises

theorem intact (h : Arises declared pending s) : ∃ stale, s.Intact stale := by
  induction h with
  | start sink => exact ⟨_, intact_startOn sink⟩
  | change _ hs hc => exact ⟨_, hs.apply hc⟩
  | control _ depth context ih =>
      obtain ⟨stale, hs⟩ := ih
      exact ⟨stale, hs.closed.control depth context, hs.fresh, hs.grounded⟩
  | idle _ ih => exact ih
  | collect _ ih =>
      obtain ⟨stale, hs⟩ := ih
      exact ⟨_, hs.collectGarbage⟩

theorem traced (h : Arises declared pending s) : s.heap.Traced s.objectClass := by
  induction h with
  | start sink => exact traced_startOn sink
  | @change _ _ s _ c _ hs hc ih =>
      rw [s.apply_objectClass (hc.own id)]
      exact traced_apply id hs.grounded ih hc
  | control _ _ _ ih => exact ih
  | idle _ ih => exact ih
  | collect _ ih => exact traced_collectGarbage ih

theorem named (h : Arises declared pending s) : s.Named declared pending := by
  induction h with
  | start sink => exact named_startOn sink
  | change _ hs hc ih => exact ih.apply id hs.grounded hc
  | control _ _ _ ih =>
      exact ⟨ih.sublist, ih.known, fun hname =>
        let h := ih.once hname
        ⟨h.unique, h.unborn, h.registered, h.child, h.root⟩⟩
  | idle _ ih => exact ih.idle
  | collect h ih =>
      obtain ⟨stale, hs⟩ := h.intact
      exact ih.collectGarbage hs.grounded

theorem after (h : Arises declared pending s) {stale : Node → Prop} (hs : s.Intact stale)
    {cs : List Change} (hcs : (Horizon.beyond stale).Allows pending s cs) :
    Arises (Change.declaredAfter declared cs) (Change.pendingAfter pending cs) (s.after cs) := by
  induction cs generalizing s declared pending with
  | nil => exact h
  | cons c cs ih => exact ih (h.change hs hcs.1) (hs.apply hcs.1) hcs.2

end Arises

end State

namespace Session

theorem Reachable.arises {s : Session} (h : s.Reachable) :
    ∃ declared, State.Arises declared [] s.state := by
  obtain ⟨config, fuel, sink, hreaches⟩ := h
  induction hreaches with
  | refl => exact ⟨[], .start sink⟩
  | run _ text file ih =>
      obtain ⟨declared, ht⟩ := ih
      obtain ⟨stale, hs⟩ := ht.intact
      obtain ⟨cs, hcs, hrun, _⟩ := run_intact hs text file
      rw [hrun]
      exact ⟨_, (ht.after hs hcs).idle⟩
  | collect _ ih =>
      obtain ⟨declared, ht⟩ := ih
      exact ⟨declared, ht.collect⟩

/-- A property of the states that a session is in while it runs a program, and of the classes that
are declared by then and under way. The states come about by changes, one after the other, and code
of any class may be running in them. -/
def Throughout (s : Session) (text file : String)
    (P : (declared pending : List (String × String)) → State → Prop) : Prop :=
  ∃ declared changes, State.Arises declared [] s.state ∧
    (s.run text file).2.state = s.state.after changes ∧
    ∀ before, before <+: changes → ∀ depth context,
      P (Change.declaredAfter declared before) (Change.pendingAfter [] before)
        ((s.state.after before).control depth context)

/-- What holds of all states that arise holds while a session runs a program. -/
theorem Reachable.throughout {s : Session} (h : s.Reachable) (text file : String)
    {P : (declared pending : List (String × String)) → State → Prop}
    (hP : ∀ {declared pending t}, State.Arises declared pending t → P declared pending t) :
    s.Throughout text file P := by
  obtain ⟨declared, harises⟩ := h.arises
  obtain ⟨stale, hs⟩ := harises.intact
  obtain ⟨cs, hcs, hrun, _⟩ := run_intact hs text file
  refine ⟨declared, cs, harises, by rw [hrun], fun before hbefore depth context => hP ?_⟩
  exact (harises.after hs (hcs.of_isPrefix hbefore)).control depth context

end Session

end ClassScript

import ClassScript.Proofs.Declarations
import ClassScript.Proofs.Outcomes

/-!
# Who may see a member

Code of a class sees the private members that the class itself declares, and the protected members
of the class and of those it inherits from. Members and code go by the names of classes, and the
registry knows only the last parent of a name. So this is true of the classes themselves as far as
their names are declared once. Where a name is declared again, in whatever scope, code of one class
is taken for code of another.
-/

namespace ClassScript

/-- Whether code of the class `k` may see a member that the class `d` declares. -/
def Access.Permits (access : Access) (h : Heap) (k d : Handle) : Prop :=
  match access with
  | .everywhere => True
  | .ownClass => k = d
  | .subclasses => ∃ chain, h.Chain k chain ∧ d ∈ chain

namespace Heap

variable {h : Heap} {k d : Handle} {chain : List Handle}

theorem Chain.head_mem (hchain : h.Chain k chain) : k ∈ chain := by
  cases hchain with
  | root => exact List.mem_cons_self
  | child => exact List.mem_cons_self

theorem Chain.isClass_of_mem (hchain : h.Chain k chain) (hd : d ∈ chain) :
    ∃ c, h.get d = .ok c ∧ c.isClass := by
  induction hchain with
  | root hc hkind =>
      rw [List.mem_singleton.mp hd]
      exact ⟨_, hc, Container.isClass_of_kind hkind⟩
  | child hc hkind _ _ ih =>
      rcases List.mem_cons.mp hd with rfl | hd
      · exact ⟨_, hc, Container.isClass_of_kind hkind⟩
      · exact ih hd

theorem names_cons {c : Container} (hc : h.get k = .ok c) :
    h.names (k :: chain) = c.name :: h.names chain := by
  simp [names, hc, Except.toOption]

theorem mem_names {name : String} :
    name ∈ h.names chain ↔ ∃ d ∈ chain, ∃ c, h.get d = .ok c ∧ c.name = name := by
  constructor
  · intro hname
    obtain ⟨d, hd, hc⟩ := List.mem_filterMap.mp hname
    cases hget : h.get d with
    | error f => simp [hget, Except.toOption] at hc
    | ok c => exact ⟨d, hd, c, hget, by simpa [hget, Except.toOption] using hc⟩
  · rintro ⟨d, hd, c, hget, rfl⟩
    exact List.mem_filterMap.mpr ⟨d, hd, by simp [hget, Except.toOption]⟩

/-- The class that has the statics of a container goes back to the root. -/
theorem Grounded.chain_classHandle {root handle : Handle} (hg : h.Grounded root) {c : Container}
    (hc : h.get handle = .ok c) : ∃ chain, h.Chain (c.classHandle handle) chain := by
  cases hkind : c.kind with
  | classOf parent =>
      obtain ⟨chain, hchain, _⟩ := hg.chain hc (Container.isClass_of_kind hkind)
      exact ⟨chain, by simpa [Container.classHandle, hkind] using hchain⟩
  | instanceOf cls =>
      obtain ⟨_, b, hb, hclass⟩ := hg.above handle c hc cls (by rw [hkind]; rfl)
      obtain ⟨chain, hchain, _⟩ := hg.chain hb hclass
      exact ⟨chain, by simpa [Container.classHandle, hkind] using hchain⟩

theorem Chain.lt_size (hchain : h.Chain k chain) : k < h.slots.size := by
  obtain ⟨c, hc, _⟩ := hchain.isClass_of_mem hchain.head_mem
  exact lt_size_of_get hc

end Heap

namespace State

variable {s : State} {declared pending : List (String × String)} {handle k d : Handle}
  {name : String} {slot : MemberSlot} {m : Member} {chain : List Handle}

/-- A member that is found was declared by a class that its container goes back to. -/
theorem locate_declares (hg : s.heap.Grounded s.objectClass)
    (htraced : s.heap.Traced s.objectClass) (hm : s.locate handle name = .ok (slot, m)) :
    ∃ c d, s.heap.get handle = .ok c ∧
      s.heap.Declares (c.classHandle handle) slot.isStatic (m.origin name) d := by
  unfold locate at hm
  cases hc : s.heap.get handle with
  | error f => rw [hc] at hm; cases hm
  | ok c =>
      refine ⟨c, ?_⟩
      simp only [hc, bind, Except.bind] at hm
      split at hm
      · next m' hown =>
          cases hm
          have hmember : (c.table false).get? name = some m := by
            split at hown
            · cases hown
            · exact hown
          obtain ⟨d, hd⟩ := htraced.members handle c hc _ (Container.mem_origins hmember)
          exact ⟨d, rfl, hd⟩
      · obtain ⟨chain, hchain⟩ := hg.chain_classHandle hc
        have hfind := hchain.findStaticWithin name (Nat.lt_succ_of_lt hchain.lt_size)
        rw [Heap.findStatic, hfind] at hm
        cases hfound : chain.find? (s.heap.hasStatic name) with
        | none => simp only [hfound] at hm; cases hm
        | some owner =>
            simp only [hfound] at hm
            cases hb : s.heap.get owner with
            | error f => simp only [hb] at hm; cases hm
            | ok b =>
                simp only [hb] at hm
                split at hm
                · next m' hstatic =>
                    cases hm
                    have horigin : m.origin name ∈ b.origins true := Container.mem_origins hstatic
                    exact ⟨owner, rfl, chain, b, hchain, List.mem_of_find?_eq_some hfound, hb,
                      (htraced.statics owner b hb _ horigin).symm, horigin⟩
                · cases hm

/-- The registry does not lead out of the names of a chain. -/
theorem mem_names_of_reflTransGen (hchain : s.heap.Chain k chain)
    (honce : ∀ n ∈ s.heap.names chain, s.NamedOnce pending n) {c : Container}
    (hc : s.heap.get k = .ok c) {other : String}
    (h : Relation.ReflTransGen s.registry.Above c.name other) : other ∈ s.heap.names chain := by
  induction hchain generalizing c with
  | root hroot hkind =>
      cases hc.symm.trans hroot
      rw [Heap.names_cons hc] at honce ⊢
      rcases h.cases_head with rfl | ⟨up, hup, _⟩
      · exact List.mem_cons_self
      · have hnone := (honce _ List.mem_cons_self).root hc rfl hkind
        rw [Registry.Above, hnone] at hup
        cases hup
  | child hchild hkind _ hrest ih =>
      cases hc.symm.trans hchild
      rw [Heap.names_cons hc] at honce ⊢
      rcases h.cases_head with rfl | ⟨up, hup, hup'⟩
      · exact List.mem_cons_self
      · obtain ⟨p, hp, _⟩ := hrest.isClass_of_mem hrest.head_mem
        rw [Registry.Above] at hup
        rcases (honce _ List.mem_cons_self).child hc rfl hkind hp with hparent | ⟨hnone, _⟩
        · cases hparent.symm.trans hup
          refine List.mem_cons_of_mem _ (ih (fun n hn => ?_) hp hup')
          exact honce n (List.mem_cons_of_mem _ hn)
        · cases hnone.symm.trans hup

/-- The registry leads to every class of a chain but the root. -/
theorem reflTransGen_of_mem_chain (hg : s.heap.Grounded s.objectClass)
    (hchain : s.heap.Chain k chain)
    (honce : ∀ n ∈ s.heap.names chain, s.NamedOnce pending n) {c b : Container}
    (hc : s.heap.get k = .ok c) (hd : d ∈ chain) (hb : s.heap.get d = .ok b)
    (hroot : d ≠ s.objectClass) : Relation.ReflTransGen s.registry.Above c.name b.name := by
  induction hchain generalizing c with
  | root hget hkind =>
      exact absurd ((List.mem_singleton.mp hd).trans (hg.only _ _ hget hkind)) hroot
  | child hchild hkind _ hrest ih =>
      cases hc.symm.trans hchild
      rw [Heap.names_cons hc] at honce
      rcases List.mem_cons.mp hd with rfl | hd
      · cases hc.symm.trans hb
        exact .refl
      · obtain ⟨p, hp, _⟩ := hrest.isClass_of_mem hrest.head_mem
        rcases (honce _ List.mem_cons_self).child hc rfl hkind hp with hparent | ⟨_, rfl⟩
        · exact .head hparent (ih (fun n hn => honce n (List.mem_cons_of_mem _ hn)) hp hd)
        · -- above a class right below the root there is only the root
          obtain ⟨object, hobject, hobjectKind, _⟩ := hg.object
          rw [(Heap.Chain.root hobject hobjectKind).unique hrest] at hd
          exact absurd (List.mem_singleton.mp hd) hroot

/-- Where names are declared once, the names of classes decide as the classes do. -/
theorem Arises.mayAccess_iff (h : Arises declared pending s) {up : Handle} {isStatic : Bool}
    (hdeclares : s.heap.Declares up isStatic (m.origin name) d) (hchain : s.heap.Chain k chain)
    {c : Container} (hc : s.heap.get k = .ok c) (hcode : s.currentClass = some c.name)
    (howner : DeclaredOnce declared m.owner)
    (honce : m.access = .subclasses → ∀ n ∈ s.heap.names chain, DeclaredOnce declared n) :
    s.mayAccess m = true ↔ m.access.Permits s.heap k d := by
  obtain ⟨stale, hs⟩ := h.intact
  obtain ⟨above, b, habove, hd, hb, hname, horigin⟩ := hdeclares
  obtain ⟨b', hb', hclass⟩ := habove.isClass_of_mem hd
  obtain rfl : b = b' := Except.ok.inj (hb.symm.trans hb')
  -- the class that declares the member is the only one of its name
  have honly : ∀ {i : Handle} {a : Container}, i ∈ chain → s.heap.get i = .ok a →
      (a.name = m.owner ↔ i = d) := by
    intro i a hi ha
    obtain ⟨a', ha', haclass⟩ := hchain.isClass_of_mem hi
    obtain rfl : a = a' := Except.ok.inj (ha.symm.trans ha')
    constructor
    · exact fun heq => (h.named.once howner).unique ha haclass heq hb hclass hname
    · rintro rfl
      obtain rfl : a = b := Except.ok.inj (ha.symm.trans hb)
      exact hname
  have hroot : d ≠ s.objectClass := by
    rintro rfl
    rw [h.traced.root b hb isStatic] at horigin
    exact absurd horigin List.not_mem_nil
  unfold mayAccess Access.Permits
  rw [hcode]
  cases haccess : m.access with
  | everywhere => simp
  | ownClass =>
      rw [beq_iff_eq, Option.some.injEq]
      exact honly hchain.head_mem hc
  | subclasses =>
      have hnamed : ∀ n ∈ s.heap.names chain, s.NamedOnce pending n := fun n hn =>
        h.named.once (honce haccess n hn)
      simp only [Option.any_some, Registry.isSubclass_iff]
      constructor
      · intro hreaches
        obtain ⟨i, hi, a, ha, heq⟩ :=
          Heap.mem_names.mp (mem_names_of_reflTransGen hchain hnamed hc hreaches)
        exact ⟨chain, hchain, (honly hi ha).mp heq ▸ hi⟩
      · rintro ⟨chain', hchain', hmem⟩
        rw [hchain.unique hchain'] at hmem
        rw [← show b.name = m.owner from hname]
        exact reflTransGen_of_mem_chain hs.grounded hchain hnamed hc hmem hb hroot

/-- Nothing that code does later changes which classes may see a member. -/
theorem permits_after_iff {H : Horizon} (hforeign : ¬ H.foreign) {cs : List Change}
    (hcs : H.Allows pending s cs) (hchain : s.heap.Chain k chain) (access : Access) :
    access.Permits (s.after cs).heap k d ↔ access.Permits s.heap k d := by
  have hlater := ((s.carries_after (hcs.own hforeign)).chain trivial hchain).1
  cases access with
  | everywhere => exact Iff.rfl
  | ownClass => exact Iff.rfl
  | subclasses =>
      constructor
      · rintro ⟨chain', hchain', hd⟩
        exact ⟨chain, hchain, hlater.unique hchain' ▸ hd⟩
      · rintro ⟨chain', hchain', hd⟩
        exact ⟨chain, hlater, hchain.unique hchain' ▸ hd⟩

theorem accessed_of_mayAccess (hm : s.locate handle name = .ok (slot, m))
    (hmay : s.mayAccess m = true) :
    s.accessed (.object handle) name = .ok (handle, slot, m) := by
  simp [accessed, memberHandle, hm, checkAccess, hmay, bind, Except.bind, pure, Except.pure]

theorem accessed_of_not_mayAccess (hm : s.locate handle name = .ok (slot, m))
    (hmay : ¬ s.mayAccess m = true) :
    s.accessed (.object handle) name = .error (.inaccessible m.owner name m.access) := by
  simp [accessed, memberHandle, hm, checkAccess, hmay, bind, Except.bind]

end State

/-! ## Reading and writing members -/

namespace Evaluator

variable {s : State} {object : Value} {name : String} {f : Fault}

theorem memberGet_of_error (ev : Evaluator) (h : s.accessed object name = .error f) :
    ev.memberGet object name s = .error (.fault f) s := by
  have hask : Exec.ask (·.accessed object name) s = .error (.fault f) s := by rw [Exec.ask, h]
  exact bind_eq_of_error hask

theorem memberSet_of_error (ev : Evaluator) (value : Value)
    (h : s.accessed object name = .error f) :
    ev.memberSet object name value s = .error (.fault f) s := by
  have hask : Exec.ask (·.accessed object name) s = .error (.fault f) s := by rw [Exec.ask, h]
  exact bind_eq_of_error hask

end Evaluator

namespace State

/-- Access to a member goes by the classes, as far as names are declared once: that of the class
that declares the member and, if the member is protected, those of the classes that the class of the
code goes back to. The class `d` that declares the member is one that the object goes back to. Code
of the class `k` gets to the member if the access permits it, and otherwise it can neither read nor
write it. What is permitted stays so whatever code does. -/
def AccessByClass (declared pending : List (String × String)) (s : State) : Prop :=
  ∀ ⦃handle k : Handle⦄ ⦃name : String⦄ ⦃slot : MemberSlot⦄ ⦃m : Member⦄ ⦃c : Container⦄
    ⦃chain : List Handle⦄, s.locate handle name = .ok (slot, m) → s.heap.get k = .ok c →
    s.heap.Chain k chain → s.currentClass = some c.name → DeclaredOnce declared m.owner →
    (m.access = .subclasses → ∀ n ∈ s.heap.names chain, DeclaredOnce declared n) →
    ∃ object d, s.heap.get handle = .ok object ∧
      s.heap.Declares (object.classHandle handle) slot.isStatic (m.origin name) d ∧
      (m.access.Permits s.heap k d → s.accessed (.object handle) name = .ok (handle, slot, m)) ∧
      (¬ m.access.Permits s.heap k d → ∀ (ev : Evaluator) value,
        ev.memberGet (.object handle) name s =
            .error (.fault (.inaccessible m.owner name m.access)) s ∧
          ev.memberSet (.object handle) name value s =
            .error (.fault (.inaccessible m.owner name m.access)) s) ∧
      ∀ {stale : Node → Prop} {cs : List Change}, (Horizon.beyond stale).Allows pending s cs →
        (m.access.Permits (s.after cs).heap k d ↔ m.access.Permits s.heap k d)

theorem Arises.accessByClass {s : State} {declared pending : List (String × String)}
    (h : Arises declared pending s) : AccessByClass declared pending s := by
  intro handle k name slot m c chain hm hc hchain hcode howner honce
  obtain ⟨stale, hs⟩ := h.intact
  obtain ⟨object, d, hobject, hdeclares⟩ := locate_declares hs.grounded h.traced hm
  have hverdict := h.mayAccess_iff hdeclares hchain hc hcode howner honce
  refine ⟨object, d, hobject, hdeclares, fun hpermits => ?_, fun hdenied ev value => ?_,
    fun hcs => permits_after_iff id hcs hchain m.access⟩
  · exact accessed_of_mayAccess hm (hverdict.mpr hpermits)
  · have herror := accessed_of_not_mayAccess hm (mt hverdict.mp hdenied)
    exact ⟨ev.memberGet_of_error herror, ev.memberSet_of_error value herror⟩

/-- In every state that a session is in while it runs a program, access to members goes by the
classes; so it does in every state that arises. -/
theorem access_by_class {session : Session} (hsession : session.Reachable) (text file : String) :
    session.Throughout text file AccessByClass ∧
      ∀ {declared pending : List (String × String)} {s : State}, Arises declared pending s →
        AccessByClass declared pending s := by
  constructor
  · exact hsession.throughout text file Arises.accessByClass
  · exact Arises.accessByClass

def protectedField : Member where
  access := .subclasses
  ty := .string
  value := .string "s"
  owner := "A"
  form := .field false

/-- A class `A` that declares the field, its child `B`, and an instance of the child. -/
def family : List Change :=
  let a := { Builtin.plainClass "A" (some 0) with members := ⟨[("secret", protectedField)]⟩ }
  let b := { Builtin.plainClass "B" (some 3) with members := a.members }
  [.register "A" "Object", .addClass a, .register "B" "A", .addClass b, .addInstance b 4]

theorem allows_family : everything.Allows [] (.startOn {}) family := by
  have hwithin : ∀ {s : State} {handle : Handle} {c : Container}, s.heap.get handle = .ok c →
      (Node.container handle).Within everything s := fun hc => ⟨not_false, fun _ => ⟨_, hc⟩⟩
  have hclass : ∀ {s : State} (name : String) {handle : Handle} {c : Container},
      s.heap.get handle = .ok c →
      { Builtin.plainClass name (some handle) with
        members := ⟨[("secret", protectedField)]⟩ : Container }.Within everything s := by
    intro s name handle c hc
    have hplain : (Builtin.plainClass name (some handle)).Within everything s :=
      within_plainClass name fun _ hparent => Option.some.inj hparent ▸ hwithin hc
    exact { hplain with members := fun m hm => List.mem_singleton.mp hm ▸ ⟨trivial, nofun⟩ }
  refine ⟨trivial, ⟨hclass "A" rfl, Or.inr ⟨0, _, rfl, rfl, Or.inl rfl, ⟨?_, nofun⟩, rfl⟩⟩, trivial,
    ⟨hclass "B" rfl, Or.inr ⟨3, _, rfl, rfl, Or.inr rfl, ⟨fun _ ho => Or.inr ho, nofun⟩, rfl⟩⟩,
    ⟨rfl, rfl, hwithin rfl⟩, trivial⟩
  exact fun o ho => Or.inl (List.mem_singleton.mp ho ▸ rfl)

/-- Code of the child sees the field that its parent declares. -/
theorem access_by_class_family :
    let s := ((startOn {}).after family).control 1 [some "B"]
    Arises [("B", "A"), ("A", "Object")] [] s ∧
      s.accessed (.object 5) "secret" = .ok (5, ⟨5, false⟩, protectedField) := by
  intro s
  have harises : Arises [("B", "A"), ("A", "Object")] [] s :=
    (Arises.after (.start {}) (intact_startOn {}) allows_family).control 1 [some "B"]
  have hfound : s.locate 5 "secret" = .ok (⟨5, false⟩, protectedField) := rfl
  have hchain : s.heap.Chain 4 [4, 3, 0] :=
    .child rfl rfl (by decide) (.child rfl rfl (by decide) (.root rfl rfl))
  have honce : ∀ n ∈ ["B", "A", "Object"], DeclaredOnce [("B", "A"), ("A", "Object")] n := by
    decide
  have hsession : (Session.fresh {} 20 {}).Reachable := ⟨{}, 20, {}, .refl⟩
  have hbyClass := (access_by_class hsession "" "").2 harises
  obtain ⟨_, d, hobject, ⟨chain, _, hup, hd, _⟩, hpermits, _⟩ :=
    hbyClass hfound rfl hchain rfl (by decide) fun _ => honce
  cases hobject
  exact ⟨harises, hpermits ⟨chain, hup, hd⟩⟩

end State

/-! ## Names that are declared again -/

namespace Session

def vault (name : String) (access : Access) : ClassDecl where
  name := name
  bases := []
  members :=
    [{ access, isStatic := false, body := .field "secret" false none (some (.string "s")) }]

/-- A class with a public method that reads the field of what it is given. -/
def thief (name : String) (bases : List Ty) : ClassDecl where
  name := name
  bases := bases
  members :=
    [{ access := .everywhere, isStatic := false,
       body := .method
        { name := "peek", params := [{ name := "x", ty := .object }], returnType := none,
          body := .ret (some (.member (.var "x") "secret")) } }]

/-- An instance of the class `name` reads the field of the object `a`. -/
def peek (name : String) : Stmt :=
  .expr (.call (.member (.call (.var name) []) "peek") [.var "a"])

/-- The text that a program results in, or the message with which it fails. -/
def outcome (program : List Stmt) : Option String :=
  match ((fresh {} 20 {}).runProgram program).1 with
  | .ok (some (.string text)) => some text
  | .ok _ => none
  | .error failure => some failure.text

/-- Code of an inner class of the same name sees a private field. After an inner class has taken its
name, code of a class does not see a protected field of its parent any more. -/
theorem access_by_name :
    let a := Stmt.var "a" none (some (.call (.var "A") []))
    outcome [.classDecl (vault "A" .ownClass), a,
        .block [.classDecl (thief "A" []), peek "A"]] = some "s" ∧
      outcome [.classDecl (vault "A" .subclasses), .classDecl (thief "B" [.named "A"]), a,
        peek "B"] = some "s" ∧
      outcome [.classDecl (vault "A" .subclasses), .classDecl (thief "B" [.named "A"]), a,
        .block [.classDecl (vault "B" .everywhere)], peek "B"] =
          some "TypeError: 'A.secret' is protected and cannot be accessed here" := by
  decide +kernel

end Session

end ClassScript

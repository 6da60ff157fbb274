import ClassScript.Proofs.Arguments
import ClassScript.Proofs.Stability

/-!
# Verdicts on instances

Whether an instance fits a slot is asked with the chain of its own class in front of the registry.
The chain begins with the name that the instance has as a type, so it decides, and what the registry
has been told about that name since does not matter. The chain ends with `Object`. So the verdict is
whether the name of the slot's type is on the chain.

No code renames a container or gives it another class or parent. So the verdict on an instance and a
type stays what it is, whatever classes are declared later.
-/

namespace ClassScript

/-! ## Chains that stay -/

namespace Heap

/-- What is on a heap is on another one, too, with the same name and the same class or parent. -/
def Retains (h h' : Heap) : Prop :=
  ∀ handle c, h.get handle = .ok c →
    ∃ c', h'.get handle = .ok c' ∧ c'.name = c.name ∧ c'.kind = c.kind

variable {h h' : Heap} {handle : Handle} {c : Container} {chain : List Handle}

theorem Chain.retains (hchain : h.Chain handle chain) (hretains : h.Retains h') :
    h'.Chain handle chain ∧ h'.names chain = h.names chain := by
  induction hchain with
  | root hc hkind =>
      obtain ⟨c', hc', hname, hkind'⟩ := hretains _ _ hc
      refine ⟨.root hc' (hkind'.trans hkind), ?_⟩
      rw [names_cons hc, names_cons hc', hname]
      rfl
  | child hc hkind hlt _ ih =>
      obtain ⟨c', hc', hname, hkind'⟩ := hretains _ _ hc
      obtain ⟨hrest, hnames⟩ := ih
      refine ⟨.child hc' (hkind'.trans hkind) hlt hrest, ?_⟩
      rw [names_cons hc, names_cons hc', hname, hnames]

theorem Chain.head?_names (hchain : h.Chain handle chain) (hc : h.get handle = .ok c) :
    (h.names chain).head? = some c.name := by
  cases hchain with
  | root => rw [names_cons hc]; rfl
  | child => rw [names_cons hc]; rfl

/-- Every chain goes back to the class `Object`. -/
theorem Grounded.object_mem_names {root : Handle} (hg : h.Grounded root)
    (hlast : chain.getLast? = some root) : "Object" ∈ h.names chain := by
  obtain ⟨object, hobject, _, hname⟩ := hg.object
  refine List.mem_filterMap.mpr ⟨root, List.mem_of_getLast? hlast, ?_⟩
  rw [hobject, ← hname]
  rfl

end Heap

/-! ## The verdict -/

/-- A slot type is met by a chain of class names: the first of them is the type of a value, the
others are what that inherits from. -/
theorem Ty.assignable_of_chain {registry : Registry} {name : String} {names : List String}
    (hhead : names.head? = some name) (hobject : "Object" ∈ names) (target : Ty) :
    Ty.assignable { registry, chains := [names] } (.named name) target =
      decide (target.name ∈ names) := by
  have hmem : name ∈ names := List.mem_of_mem_head? hhead
  have hsubclass : ({ registry, chains := [names] } : Lineage).isSubclass name target.name =
      decide (target.name ∈ names) := by
    simp [Lineage.isSubclass, hhead]
  unfold assignable covariant
  simp only [named, Bool.false_and, List.isEmpty_nil, Bool.not_true, Bool.false_eq_true, if_false]
  split
  · next hsame => rw [← hsame]; simp [hmem]
  · split
    · next htop =>
        rw [Bool.and_eq_true, decide_eq_true_eq] at htop
        simp [htop.1, hobject]
    · exact hsubclass

namespace State

variable {s t : State} {handle cls : Handle} {c : Container} {chain : List Handle}

theorem typeOf_instance (hc : s.heap.get handle = .ok c) (hkind : c.kind = .instanceOf cls) :
    s.typeOf (.object handle) = .ok (.named c.name) := by
  simp [typeOf, hc, Container.ty, hkind, bind, Except.bind, pure, Except.pure]

theorem fits_instance (hc : s.heap.get handle = .ok c) (hkind : c.kind = .instanceOf cls)
    (hchain : s.heap.Chain cls chain) (hhead : (s.heap.names chain).head? = some c.name)
    (hobject : "Object" ∈ s.heap.names chain) (target : Ty) :
    s.fits (.object handle) (.named c.name) target =
      .ok (decide (target.name ∈ s.heap.names chain)) := by
  have hnames : s.heap.namesWithin (s.heap.slots.size + 1) cls = .ok (s.heap.names chain) := by
    refine hchain.namesWithin (Nat.lt_succ_of_lt ?_)
    cases hchain with
    | root hcls => exact Heap.lt_size_of_get hcls
    | child hcls => exact Heap.lt_size_of_get hcls
  have hlineage : s.lineageOf [.object handle] =
      .ok { registry := s.registry, chains := [s.heap.names chain] } := by
    simp [lineageOf, Heap.classChain, hc, hkind, hnames, bind, Except.bind, pure, Except.pure]
  rw [fits, hlineage, ← Ty.assignable_of_chain hhead hobject target]
  rfl

structure SameVerdicts (s t : State) (v : Value) : Prop where
  typeOf : t.typeOf v = s.typeOf v
  fits : ∀ ty, s.typeOf v = .ok ty → ∀ target, t.fits v ty target = s.fits v ty target

/-- Where chains stay, so do the verdicts on instances. -/
theorem sameVerdicts_of_retains (hc : s.heap.get handle = .ok c)
    (hkind : c.kind = .instanceOf cls) (hchain : s.heap.Chain cls chain)
    (hhead : (s.heap.names chain).head? = some c.name) (hobject : "Object" ∈ s.heap.names chain)
    (hretains : s.heap.Retains t.heap) : s.SameVerdicts t (.object handle) := by
  obtain ⟨c', hc', hname, hkind'⟩ := hretains handle c hc
  obtain ⟨hchain', hnames⟩ := hchain.retains hretains
  have hty := typeOf_instance hc hkind
  have hty' := typeOf_instance hc' (hkind'.trans hkind)
  rw [hname] at hty'
  refine ⟨hty'.trans hty.symm, fun ty hsome target => ?_⟩
  cases hty.symm.trans hsome
  have hfits := fits_instance hc' (hkind'.trans hkind) hchain' (by rw [hnames, hname, hhead])
    (by rw [hnames]; exact hobject) target
  rw [hname, hnames] at hfits
  rw [hfits, fits_instance hc hkind hchain hhead hobject target]

theorem Stable.retains (h : s.Stable t) : s.heap.Retains t.heap := by
  intro handle c hc
  obtain ⟨c', hc', hstays⟩ := h.container handle c hc
  exact ⟨c', hc', hstays.name, hstays.kind⟩

theorem retains_after (s : State) {cs : List Change} (hown : ∀ change ∈ cs, change.Own) :
    s.heap.Retains (s.after cs).heap := by
  intro handle c hc
  obtain ⟨c', hc', hlasts⟩ := get_after_of_ok hc hown
  exact ⟨c', hc', hlasts.name, hlasts.kind⟩

variable {declared pending : List (String × String)}

/-- The type of an instance is the name of its class, and the instance fits a slot exactly if the
name of the slot's type is on the class chain of the instance. The verdicts are the same after any
statement, run in any scope under an orderly host, whether it succeeds or fails; so they are after a
whole program of a session. -/
def FitsByChain (s : State) : Prop :=
  ∀ ⦃handle cls : Handle⦄ ⦃c : Container⦄, s.heap.get handle = .ok c → c.kind = .instanceOf cls →
    ∃ chain, s.heap.Chain cls chain ∧ s.typeOf (.object handle) = .ok (.named c.name) ∧
      (∀ target, s.fits (.object handle) (.named c.name) target =
        .ok (decide (target.name ∈ s.heap.names chain))) ∧
      (∀ config : Config, config.host.Orderly → ∀ fuel scope stmt,
        s.SameVerdicts (((evaluator config fuel).exec scope stmt).final s) (.object handle)) ∧
      ∀ session : Session, session.state = s → ∀ text file,
        s.SameVerdicts (session.run text file).2.state (.object handle)

theorem Arises.fitsByChain (h : Arises declared pending s) : s.FitsByChain := by
  intro handle cls c hc hkind
  obtain ⟨stale, hs⟩ := h.intact
  obtain ⟨_, p, hp, hclass⟩ := hs.grounded.above handle c hc cls (by rw [hkind]; rfl)
  obtain ⟨chain, hchain, hlast⟩ := hs.grounded.chain hp hclass
  have hhead : (s.heap.names chain).head? = some c.name := by
    rw [hchain.head?_names hp, h.titled handle c cls p hc hkind hp]
  have hobject := hs.grounded.object_mem_names hlast
  refine ⟨chain, hchain, typeOf_instance hc hkind, fits_instance hc hkind hchain hhead hobject,
    fun config hhost fuel scope stmt => ?_, fun session hsession text file => ?_⟩
  · have hrun := (hhost.evaluator fuel).exec scope stmt (s.fits_terms fun id => id = scope.inner)
      fun _ => Or.inr rfl
    exact sameVerdicts_of_retains hc hkind hchain hhead hobject
      (stable_of_upholds hrun.upholds).retains
  · subst hsession
    obtain ⟨cs, hcs, hrun, _⟩ := Session.run_intact hs text file
    rw [hrun]
    exact sameVerdicts_of_retains hc hkind hchain hhead hobject
      (session.state.retains_after fun change hchange => hcs.own id change hchange)

/-- In every state that a session is in while it runs a program, instances fit by their class
chains; so they do in every state that arises. -/
theorem fits_by_chain {session : Session} (hsession : session.Reachable) (text file : String) :
    (session.Throughout text file fun _ _ s => s.FitsByChain) ∧
      ∀ {declared pending : List (String × String)} {s : State}, Arises declared pending s →
        s.FitsByChain := by
  constructor
  · exact hsession.throughout text file Arises.fitsByChain
  · exact Arises.fitsByChain

/-- An instance of a class `B` that inherits from `A` fits a slot for `A`, also after another class
of the name `B` has been declared, which does not inherit from it. -/
theorem fits_by_chain_family :
    let s := (startOn {}).after family
    let stmt : Stmt := .classDecl (Session.vault "B" .everywhere)
    let t := ((evaluator { host := Host.callback } 20).exec s.globals stmt).final s
    t.registry.isSubclass "B" "A" = false ∧
      s.fits (.object 5) (.named "B") (.named "A") = .ok true ∧
      t.fits (.object 5) (.named "B") (.named "A") = .ok true := by
  intro s stmt t
  have harises : Arises [("B", "A"), ("A", "Object")] [] s :=
    Arises.after (.start {}) (intact_startOn {}) allows_family
  have hchain : s.heap.Chain 4 [4, 3, 0] :=
    .child rfl rfl (by decide) (.child rfl rfl (by decide) (.root rfl rfl))
  have hc : ∃ c, s.heap.get 5 = .ok c ∧ c.kind = .instanceOf 4 ∧ c.name = "B" := ⟨_, rfl, rfl, rfl⟩
  obtain ⟨c, hc, hkind, hname⟩ := hc
  have hsession : (Session.fresh {} 20 {}).Reachable := ⟨{}, 20, {}, .refl⟩
  have hbyChain := (fits_by_chain hsession "" "").2 harises
  obtain ⟨chain, hchain', hty, hfits, hlater, _⟩ := hbyChain hc hkind
  obtain rfl := hchain.unique hchain'
  rw [hname] at hty hfits
  have hverdict : s.fits (.object 5) (.named "B") (.named "A") = .ok true := hfits (.named "A")
  refine ⟨by decide +kernel, hverdict, ?_⟩
  have hsame := hlater { host := Host.callback } Host.orderly_callback 20 s.globals stmt
  exact (hsame.fits _ hty (.named "A")).trans hverdict

end State

end ClassScript

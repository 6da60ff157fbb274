import ClassScript.Proofs.Access
import ClassScript.Proofs.Resolution

/-!
# Arguments by themselves

A call asks which of its overloads take the arguments. It looks at the types of the arguments, and
at one list of class chains for all of them: what a type inherits from is read off the first chain
that begins with its name. So an argument is judged by its own chain alone as long as no two
arguments have types of one name and different ancestors. Where an inner class has taken the name of
an outer one, an instance of one of them can be judged by the ancestors of the other.
-/

namespace ClassScript

/-! ## The verdict on each argument -/

namespace State

/-- The names of the class of an instance and of the ancestors of that class. -/
def chainOf (s : State) : Value → Except Fault (Option (List String))
  | .object handle => s.heap.classChain handle
  | _ => .ok none

/-- Whether a value, taken by itself, fits a slot of a type. -/
def takes (s : State) (v : Value) (target : Ty) : Bool :=
  (s.typeOf v >>= fun ty => s.fits v ty target).toOption.getD false

/-- Whether an overload takes some values: there are neither too few nor too many of them, and each
one by itself fits its parameter. -/
def suits (s : State) (args : List Value) (o : Overload) : Bool :=
  o.acceptsCount args.length && (o.params.zip args).all fun entry => s.takes entry.2 entry.1.ty

/-- No two of some values have one type and different ancestors. -/
def Unambiguous (s : State) (args : List Value) : Prop :=
  ∀ v ∈ args, ∀ w ∈ args, s.typeOf v = s.typeOf w → s.chainOf v = s.chainOf w

end State

namespace Function

/-- The overloads that a call can mean, given which of them take the arguments: the first one with
the very types of the arguments, or else all that take them. -/
def chosen (f : Function) (types : List Ty) (suits : Overload → Bool) : List Overload :=
  match f.overloads.find? fun o => o.exact types with
  | some o => [o]
  | none => f.overloads.filter suits

def settle (f : Function) (types : List Ty) (suits : Overload → Bool) : Except Fault Overload :=
  match f.chosen types suits with
  | [o] => .ok o
  | [] => .error (.noOverload f.name types)
  | many => .error (.ambiguousCall f.name many.length types)

end Function

/-! ## Instances have the names of their classes -/

/-- An instance and its class have one name. -/
def Heap.Titled (h : Heap) : Prop :=
  ∀ handle c cls p, h.get handle = .ok c → c.kind = .instanceOf cls → h.get cls = .ok p →
    p.name = c.name

namespace State

variable {s : State} {declared pending : List (String × String)}

theorem titled_startOn (sink : Sink) : (startOn sink).heap.Titled := by
  intro handle c cls p hc hkind
  rcases startOn_get hc with ⟨rfl, rfl⟩ | ⟨rfl, rfl⟩ | ⟨rfl, rfl⟩ <;> cases hkind

theorem titled_apply {H : Horizon} (hforeign : ¬ H.foreign) {known : List (String × String)}
    {change : Change} (hg : s.heap.Grounded s.objectClass) (ht : s.heap.Titled)
    (hchange : change.Allowed H known s) : (s.apply change).heap.Titled := by
  have hown := hchange.own hforeign
  have hpersists := s.persists_apply hown
  intro handle c' cls p' hc' hkind hp'
  rcases get_apply_cases hown hc' with ⟨c, hc, hlasts⟩ | ⟨rfl, rfl | ⟨cls', i, rfl, rfl⟩⟩
  · rw [hlasts.kind] at hkind
    obtain ⟨hlt, _⟩ := hg.above handle c hc cls (by rw [hkind]; rfl)
    have hold := Nat.lt_trans hlt (Heap.lt_size_of_get hc)
    obtain ⟨p, hp, hlasts'⟩ := hpersists.same cls p' hold hp'
    rw [hlasts.name, hlasts'.name]
    exact ht handle c cls p hc hkind hp
  · obtain ⟨_, _, hkind', _⟩ := hchange.2.resolve_left hforeign
    rw [hkind'] at hkind
    cases hkind
  · obtain ⟨hcls', _, _⟩ := hchange
    obtain rfl : i = cls := ContainerKind.instanceOf.inj hkind
    obtain ⟨p, hp, hlasts⟩ := hpersists.same i p' (Heap.lt_size_of_get hcls') hp'
    obtain rfl : p = cls' := Except.ok.inj (hp.symm.trans hcls')
    exact hlasts.name

theorem Arises.titled (h : Arises declared pending s) : s.heap.Titled := by
  induction h with
  | start sink => exact titled_startOn sink
  | change _ hs hc ih => exact titled_apply id hs.grounded ih hc
  | control _ _ _ ih => exact ih
  | idle _ ih => exact ih
  | collect _ ih =>
      intro handle c cls p hc hkind hp
      exact ih handle c cls p (get_collectGarbage.mp hc).1 hkind (get_collectGarbage.mp hp).1

end State

theorem Heap.head?_namesWithin {h : Heap} {bound : Nat} {handle : Handle} {names : List String}
    (hnames : h.namesWithin (bound + 1) handle = .ok names) :
    ∃ c, h.get handle = .ok c ∧ names.head? = some c.name := by
  obtain ⟨c, hc, hrest⟩ := exists_answer_of_bind_eq_ok hnames
  refine ⟨c, hc, ?_⟩
  split at hrest
  · obtain ⟨rest, _, hrest⟩ := exists_answer_of_bind_eq_ok hrest
    cases hrest
    rfl
  · cases hrest
    rfl

/-! ## Chains of arguments -/

namespace State

variable {s : State} {declared pending : List (String × String)} {args : List Value} {v w : Value}
  {ty : Ty}

def chain? (s : State) (v : Value) : Option (List String) :=
  (s.chainOf v).toOption.join

theorem Arises.chainOf_eq (h : Arises declared pending s) (hty : s.typeOf v = .ok ty) :
    s.chainOf v = .ok (s.chain? v) := by
  have htotal : ∃ chain, s.chainOf v = .ok chain := by
    cases v with
    | object handle =>
        obtain ⟨stale, hs⟩ := h.intact
        obtain ⟨c, hc, _⟩ := exists_answer_of_bind_eq_ok hty
        cases hkind : c.kind with
        | classOf parent =>
            exact ⟨none, by simp [chainOf, Heap.classChain, hc, hkind, bind, Except.bind, pure,
              Except.pure]⟩
        | instanceOf cls =>
            obtain ⟨names, hnames, _⟩ := hs.wellFormed.answers.classChain handle c cls hc hkind
            exact ⟨some names, hnames⟩
    | number _ | string _ | boolean _ | function _ | list _ | null => exact ⟨none, rfl⟩
  obtain ⟨chain, hchain⟩ := htotal
  rw [chain?, hchain]
  rfl

/-- A chain begins with the name of the type of its value. -/
theorem Arises.head?_chain (h : Arises declared pending s) {chain : List String}
    (hchain : s.chainOf v = .ok (some chain)) :
    ∃ name, s.typeOf v = .ok (.named name) ∧ chain.head? = some name := by
  cases v with
  | object handle =>
      obtain ⟨c, hc, hrest⟩ := exists_answer_of_bind_eq_ok hchain
      cases hkind : c.kind with
      | classOf parent =>
          rw [hkind] at hrest
          cases hrest
      | instanceOf cls =>
          rw [hkind] at hrest
          obtain ⟨names, hnames, hrest⟩ := exists_answer_of_bind_eq_ok hrest
          cases hrest
          obtain ⟨p, hp, hhead⟩ := Heap.head?_namesWithin hnames
          refine ⟨c.name, ?_, ?_⟩
          · simp [typeOf, hc, Container.ty, hkind, bind, Except.bind, pure, Except.pure]
          · rw [hhead, h.titled handle c cls p hc hkind hp]
  | number _ | string _ | boolean _ | function _ | list _ | null => cases hchain

theorem exists_typeOf {types : List Ty}
    (h : List.Forall₂ (fun v ty => s.typeOf v = .ok ty) args types) :
    ∀ v ∈ args, ∃ ty, s.typeOf v = .ok ty := by
  induction h with
  | nil => exact fun _ hv => absurd hv List.not_mem_nil
  | cons hty _ ih =>
      intro v hv
      rcases List.mem_cons.mp hv with rfl | hv
      · exact ⟨_, hty⟩
      · exact ih v hv

/-- The type of a value is a plain name, unless the value is null. -/
theorem eq_named_of_typeOf (hty : s.typeOf v = .ok ty) :
    v = .null ∨ ty = .named ty.name := by
  cases v with
  | null => exact Or.inl rfl
  | object handle =>
      obtain ⟨c, _, hrest⟩ := exists_answer_of_bind_eq_ok hty
      cases hrest
      refine Or.inr ?_
      unfold Container.ty
      cases c.kind <;> rfl
  | number _ | string _ | boolean _ | function _ | list _ =>
      cases hty
      exact Or.inr rfl

theorem lineageOf_eq_bind (s : State) (args : List Value) :
    s.lineageOf args = (do
      let chains ← args.filterMapM s.chainOf
      return { registry := s.registry, chains }) :=
  rfl

theorem Arises.lineageOf_eq (h : Arises declared pending s)
    (hargs : ∀ v ∈ args, ∃ ty, s.typeOf v = .ok ty) :
    s.lineageOf args = .ok { registry := s.registry, chains := args.filterMap s.chain? } := by
  have hchains : args.filterMapM s.chainOf = .ok (args.filterMap s.chain?) := by
    induction args with
    | nil => rfl
    | cons v args ih =>
        obtain ⟨ty, hty⟩ := hargs v List.mem_cons_self
        have hrest := ih fun w hw => hargs w (List.mem_cons_of_mem _ hw)
        rw [List.filterMapM_cons, h.chainOf_eq hty, hrest]
        cases hchain : s.chain? v <;> simp [hchain, bind, Except.bind, pure, Except.pure]
  rw [lineageOf_eq_bind, hchains]
  rfl

/-- Among the chains of some values, the first one about the type of a value is its own, or there is
none if it has none. -/
theorem Arises.find?_chains (h : Arises declared pending s)
    (hargs : ∀ v ∈ args, ∃ ty, s.typeOf v = .ok ty) (hclear : s.Unambiguous args) (hv : v ∈ args)
    (hty : s.typeOf v = .ok (.named ty.name)) :
    (args.filterMap s.chain?).find? (fun chain => chain.head? == some ty.name) = s.chain? v := by
  have hown : ∀ chain ∈ args.filterMap s.chain?, chain.head? = some ty.name →
      s.chain? v = some chain := by
    intro chain hmem hhead
    obtain ⟨w, hw, hchain⟩ := List.mem_filterMap.mp hmem
    obtain ⟨wty, hwty⟩ := hargs w hw
    have hchainOf : s.chainOf w = .ok (some chain) := by rw [h.chainOf_eq hwty, hchain]
    obtain ⟨name, hname, hhead'⟩ := h.head?_chain hchainOf
    obtain rfl : name = ty.name := Option.some.inj (hhead'.symm.trans hhead)
    rw [chain?, hclear v hv w hw (hty.trans hname.symm), hchainOf]
    rfl
  cases hfound : (args.filterMap s.chain?).find? fun chain => chain.head? == some ty.name with
  | some chain =>
      have hhead := List.find?_some hfound
      exact (hown chain (List.mem_of_find?_eq_some hfound) (beq_iff_eq.mp hhead)).symm
  | none =>
      cases hchain : s.chain? v with
      | none => rfl
      | some chain =>
          have hchainOf : s.chainOf v = .ok (some chain) := by rw [h.chainOf_eq hty, hchain]
          obtain ⟨name, hname, hhead⟩ := h.head?_chain hchainOf
          obtain rfl : name = ty.name := congrArg Ty.name (Except.ok.inj (hname.symm.trans hty))
          have hmem : chain ∈ args.filterMap s.chain? := List.mem_filterMap.mpr ⟨v, hv, hchain⟩
          have hmiss := List.find?_eq_none.mp hfound chain hmem
          rw [hhead] at hmiss
          simp at hmiss

theorem unambiguous_singleton (s : State) (v : Value) : s.Unambiguous [v] := by
  intro w hw x hx _
  rw [List.mem_singleton.mp hw, List.mem_singleton.mp hx]

/-- One argument among others is judged as if it were alone. -/
theorem Arises.assignable_eq_takes (h : Arises declared pending s)
    (hargs : ∀ v ∈ args, ∃ ty, s.typeOf v = .ok ty) (hclear : s.Unambiguous args) (hv : v ∈ args)
    (hty : s.typeOf v = .ok ty) (target : Ty) :
    Ty.assignable { registry := s.registry, chains := args.filterMap s.chain? } ty target =
      s.takes v target := by
  have halone : ∀ w ∈ [v], ∃ ty, s.typeOf w = .ok ty := by
    intro w hw
    rw [List.mem_singleton.mp hw]
    exact ⟨ty, hty⟩
  have htakes : s.takes v target =
      Ty.assignable { registry := s.registry, chains := [v].filterMap s.chain? } ty target := by
    unfold takes fits
    rw [hty, h.lineageOf_eq halone]
    rfl
  rw [htakes]
  rcases eq_named_of_typeOf hty with rfl | hnamed
  · -- whether null fits does not depend on any class
    cases hty
    rfl
  · have hty' : s.typeOf v = .ok (.named ty.name) := by rw [← hnamed, hty]
    have hfirst := h.find?_chains hargs hclear hv hty'
    have hfirst' := h.find?_chains halone (s.unambiguous_singleton v) (List.mem_singleton_self v)
      hty'
    simp only [Ty.assignable, Ty.covariant, Lineage.isSubclass, hfirst, hfirst']

/-- Verdicts on the types of arguments that are verdicts on the arguments themselves. -/
theorem all_assignable_eq {types : List Ty} {lineage : Lineage}
    (htypes : List.Forall₂ (fun v ty => s.typeOf v = .ok ty) args types)
    (hverdicts : ∀ v ∈ args, ∀ ty, s.typeOf v = .ok ty → ∀ target,
      Ty.assignable lineage ty target = s.takes v target) (params : List Param) :
    (((params.map Param.ty).zip types).all fun entry => Ty.assignable lineage entry.2 entry.1) =
      (params.zip args).all fun entry => s.takes entry.2 entry.1.ty := by
  induction htypes generalizing params with
  | nil => simp
  | cons hty _ ih =>
      cases params with
      | nil => rfl
      | cons p params =>
          simp only [List.map_cons, List.zip_cons_cons, List.all_cons]
          rw [hverdicts _ List.mem_cons_self _ hty p.ty,
            ih (fun v hv => hverdicts v (List.mem_cons_of_mem _ hv)) params]

/-- An overload is compatible with the types of arguments if it takes each argument by itself. -/
theorem Arises.compatible_eq_suits (h : Arises declared pending s) {types : List Ty}
    (htypes : List.Forall₂ (fun v ty => s.typeOf v = .ok ty) args types)
    (hclear : s.Unambiguous args) (o : Overload) :
    (o.acceptsCount types.length && o.compatible
      { registry := s.registry, chains := args.filterMap s.chain? } types) = s.suits args o := by
  have hargs := exists_typeOf htypes
  have hall := all_assignable_eq htypes
    (fun v hv ty hty => h.assignable_eq_takes hargs hclear hv hty) o.params
  rw [suits, ← hall, htypes.length_eq]
  rfl

end State

/-! ## Resolution -/

namespace Function

variable (f : Function) {lineage : Lineage} {types : List Ty} {suits : Overload → Bool}

/-- The choices of a call, given what the verdicts on its overloads come down to. An overload with
the very types of the arguments has the right number of parameters, so that it need not be checked
for that. -/
theorem candidates_eq_chosen
    (h : ∀ o : Overload, (o.acceptsCount types.length && o.compatible lineage types) = suits o) :
    f.candidates lineage types = f.chosen types suits := by
  have hfind : (f.overloads.filter fun o => o.acceptsCount types.length).find?
      (fun o => o.exact types) = f.overloads.find? fun o => o.exact types := by
    rw [List.find?_filter]
    congr 1
    funext o
    cases hexact : o.exact types with
    | false => simp
    | true => simp [Overload.acceptsCount_of_exact hexact]
  have hfilter : (f.overloads.filter fun o => o.acceptsCount types.length).filter
      (fun o => o.compatible lineage types) = f.overloads.filter suits := by
    rw [List.filter_filter]
    congr 1
    funext o
    rw [Bool.and_comm, h o]
  unfold candidates chosen Overload.choices
  simp only [id, hfind, hfilter]
  cases f.overloads.find? fun o => o.exact types <;> rfl

theorem resolve_eq_settle
    (h : ∀ o : Overload, (o.acceptsCount types.length && o.compatible lineage types) = suits o) :
    f.resolve lineage types = f.settle types suits := by
  have hchoices : Overload.choices id lineage types f.overloads = f.chosen types suits :=
    f.candidates_eq_chosen h
  unfold resolve settle Overload.choose
  rw [hchoices]
  rcases f.chosen types suits with _ | ⟨o, _ | ⟨other, others⟩⟩ <;> rfl

end Function

namespace State

variable {s : State} {declared pending : List (String × String)}

/-- A question whose answer is known, and then something else. -/
theorem ask_bind_of_ok {α β : Type} {question : State → Except Fault α} {a : α}
    (h : question s = .ok a) (f : α → Exec β) : (Exec.ask question >>= f) s = f a s := by
  have hask : Exec.ask question s = .ok a s := by rw [Exec.ask, h]
  exact bind_eq_of_ok hask

theorem Arises.selected_eq_settle (h : Arises declared pending s) {args : List Value}
    {types : List Ty} (htypes : args.mapM s.typeOf = .ok types) (hclear : s.Unambiguous args)
    (f : Function) : s.selected f args = f.settle types (s.suits args) := by
  have hforall := forall₂_typeOf htypes
  unfold selected
  rw [htypes, h.lineageOf_eq (exists_typeOf hforall)]
  exact f.resolve_eq_settle (h.compatible_eq_suits hforall hclear)

/-- A selection by the arguments together is one by each of them, whatever is done with it. -/
theorem Arises.select_bind_eq (h : Arises declared pending s) {args : List Value} {types : List Ty}
    (htypes : args.mapM s.typeOf = .ok types) (hclear : s.Unambiguous args) {β : Type}
    (f : Function) (k : Overload → Exec β) :
    (Evaluator.select f args >>= k) s =
      (Exec.ofExcept (f.settle types (s.suits args)) >>= k) s := by
  have hselect : Evaluator.select f args s =
      Exec.ofExcept (f.settle types (s.suits args)) s := by
    rw [Evaluator.select_eq, Exec.ofExcept, Exec.ask, Exec.ask,
      h.selected_eq_settle htypes hclear f]
  change EStateM.bind (Evaluator.select f args) k s =
    EStateM.bind (Exec.ofExcept (f.settle types (s.suits args))) k s
  rw [EStateM.bind, EStateM.bind, hselect]

theorem Arises.binaryOverload_eq (h : Arises declared pending s) {op : BinOp} {left right : Value}
    {cls : Container} {f : Function} {ty : Ty} (hcls : s.operandClass left = .ok (some cls))
    (hf : cls.binaryOps.get? op = some f) (hty : s.typeOf right = .ok ty) :
    s.binaryOverload op left right =
      if (f.chosen [ty] (s.suits [right])).isEmpty then .ok none
      else (fun o => some (f.name, o)) <$> f.settle [ty] (s.suits [right]) := by
  have hforall : List.Forall₂ (fun v ty => s.typeOf v = .ok ty) [right] [ty] := .cons hty .nil
  have hverdicts := h.compatible_eq_suits hforall (unambiguous_singleton s right)
  unfold binaryOverload
  rw [hcls, h.lineageOf_eq (exists_typeOf hforall), hty]
  simp only [bind, Except.bind, Option.bind, hf, f.candidates_eq_chosen hverdicts,
    f.resolve_eq_settle hverdicts]
  split
  · rfl
  · cases f.settle [ty] (s.suits [right]) <;> rfl

/-- Let there be some arguments no two of which have one type and different ancestors. Then an
overload counts as compatible with them exactly if it takes as many arguments and each of them by
itself, and these verdicts decide which overload a function or a constructor runs. The one argument
of an operator is always judged like that. -/
def ResolvesByArgument (s : State) : Prop :=
  ∀ ⦃args : List Value⦄ ⦃types : List Ty⦄, args.mapM s.typeOf = .ok types → s.Unambiguous args →
    (∃ lineage, s.lineageOf args = .ok lineage ∧ ∀ o : Overload,
      (o.acceptsCount types.length && o.compatible lineage types) = s.suits args o) ∧
      (∀ (ev : Evaluator) f this, ev.callFunction f args this s = (do
        let o ← Exec.ofExcept (f.settle types (s.suits args))
        ev.invoke f.name o args this) s) ∧
      (∀ (ev : Evaluator) cls c, s.heap.get cls = .ok c → ev.construct cls args s = (do
        let o ← Exec.ofExcept (c.constructors.settle types (s.suits args))
        let this := Value.object (← Evaluator.newInstance c cls)
        let _ ← ev.invoke c.name o args (some this)
        return this) s) ∧
      ∀ op left right cls f ty, s.operandClass left = .ok (some cls) →
        cls.binaryOps.get? op = some f → s.typeOf right = .ok ty →
        s.binaryOverload op left right =
          if (f.chosen [ty] (s.suits [right])).isEmpty then .ok none
          else (fun o => some (f.name, o)) <$> f.settle [ty] (s.suits [right])

theorem Arises.resolvesByArgument (h : Arises declared pending s) : s.ResolvesByArgument := by
  intro args types htypes hclear
  have hforall := forall₂_typeOf htypes
  refine ⟨⟨_, h.lineageOf_eq (exists_typeOf hforall), h.compatible_eq_suits hforall hclear⟩,
    fun ev f this => h.select_bind_eq htypes hclear f _, fun ev cls c hc => ?_, ?_⟩
  · unfold Evaluator.construct
    rw [ask_bind_of_ok htypes, ask_bind_of_ok hc]
    exact h.select_bind_eq htypes hclear c.constructors _
  · intro op left right cls f ty hcls hf hty
    exact h.binaryOverload_eq hcls hf hty

/-- In every state that a session is in while it runs a program, an overload is chosen by each
argument; so it is in every state that arises. -/
theorem resolution_by_argument {session : Session} (hsession : session.Reachable)
    (text file : String) :
    (session.Throughout text file fun _ _ s => s.ResolvesByArgument) ∧
      ∀ {declared pending : List (String × String)} {s : State}, Arises declared pending s →
        s.ResolvesByArgument := by
  constructor
  · exact hsession.throughout text file Arises.resolvesByArgument
  · exact Arises.resolvesByArgument

/-- Two arguments of one class, which are judged by one chain, and null. -/
theorem resolution_by_argument_family :
    let s := (startOn {}).after family
    let args : List Value := [.object 5, .object 5, .null]
    let types : List Ty := [.named "B", .named "B", .null]
    Arises [("B", "A"), ("A", "Object")] [] s ∧ args.mapM s.typeOf = .ok types ∧
      s.Unambiguous args ∧ ∃ lineage, s.lineageOf args = .ok lineage ∧ ∀ o : Overload,
        (o.acceptsCount types.length && o.compatible lineage types) = s.suits args o := by
  intro s args types
  have harises : Arises [("B", "A"), ("A", "Object")] [] s :=
    Arises.after (.start {}) (intact_startOn {}) allows_family
  have htypes : args.mapM s.typeOf = .ok types := rfl
  have hdiffer : s.typeOf (.object 5) ≠ s.typeOf .null := by
    intro hsame
    have hty : Ty.named "B" = Ty.null := Except.ok.inj hsame
    exact absurd hty (by decide)
  have hclear : s.Unambiguous args := by
    intro v hv w hw hsame
    simp only [args, List.mem_cons, List.not_mem_nil, or_false, or_self_left] at hv hw
    rcases hv with rfl | rfl <;> rcases hw with rfl | rfl
    · rfl
    · exact absurd hsame hdiffer
    · exact absurd hsame.symm hdiffer
    · rfl
  have hsession : (Session.fresh {} 20 {}).Reachable := ⟨{}, 20, {}, .refl⟩
  have hbyArgument := (resolution_by_argument hsession "" "").2 harises
  exact ⟨harises, htypes, hclear, (hbyArgument htypes hclear).1⟩

end State

/-! ## Arguments that are judged by others -/

namespace Session

/-- Classes `A` and `B`, where `B` inherits from `A`; an instance `b` of `B`; a function that
returns its own name; and, in an inner scope with another class `B`, a call of the function. -/
def shadowed (function : String) (params : List Ty) (args : List Expr) : List Stmt :=
  let cls (name : String) (bases : List Ty) : Stmt := .classDecl { name, bases, members := [] }
  let body : Stmt := .ret (some (.string function))
  let names := ["x", "y"]
  let params := (names.zip params).map fun entry => { name := entry.1, ty := entry.2 : Param }
  [cls "A" [], cls "B" [.named "A"], .var "b" none (some (.call (.var "B") [])),
    .function { name := function, params, returnType := none, body },
    .block [cls "B" [], .expr (.call (.var function) args)]]

/-- An instance of the inner class is taken for an `A` beside one of the outer class, but not alone;
an instance of the outer class is taken for an `A` alone, but not beside one of the inner class. -/
theorem resolution_by_name :
    let outer : Expr := .var "b"
    let inner : Expr := .call (.var "B") []
    let a := Ty.named "A"
    outcome (shadowed "both" [a, a] [outer, inner]) = some "both" ∧
      outcome (shadowed "one" [a] [inner]) =
        some "TypeError: one(): Unable to find overload with 1 parameter(s): B" ∧
      outcome (shadowed "second" [.object, a] [inner, outer]) =
        some "TypeError: second(): Unable to find overload with 2 parameter(s): B, B" ∧
      outcome (shadowed "one" [a] [outer]) = some "one" := by
  decide +kernel

end Session

end ClassScript

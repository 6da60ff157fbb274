import ClassScript.Proofs.Assignments
import ClassScript.Proofs.ConductedCalls
import ClassScript.Proofs.Formation

/-!
# What a run takes care of

A custody says which functions and accessors there may be, which variables are left alone, and
whether a run may miss an argument. Two properties of runs are custodies: that functions stay
formed, so that no argument is missing, and that a variable is left as it is by code that does not
set it.

`Settled` is the judgement about questions: an answer satisfies a condition, and a fault is not that
of a missing argument where that counts. `Under` is the judgement about actions: from a state that a
custody holds in, an action makes only changes that keep it, and its result satisfies a condition.
The rules below take questions and actions apart as they are put together; the questions come in the
order in which they build on each other.
-/

namespace ClassScript

structure Custody where
  contents : Contents
  /-- No run halts for want of an argument. -/
  strict : Prop
  /-- The variables that are left alone. -/
  watches : Variable → Prop
  formed : strict → ∀ f, contents.function f → f.Formed
  spared : ∀ x, watches x → ∀ f, contents.function f → f.Only x.SparedBy
  accessor : ∀ a, contents.accessor a ↔ ∀ x, watches x → x.SparedBy a.closure
  add : ∀ f o g, contents.function f → (∀ x, watches x → o.Only x.SparedBy) → f.add o = .ok g →
    contents.function g

def Fault.missesArgument : Fault → Bool
  | .missingArgument .. => true
  | _ => false

def Halt.missesArgument : Halt → Bool
  | .fault f => f.missesArgument
  | .outOfFuel => false

namespace Custody

/-! ## Code that a custody admits -/

section Code

variable (K : Custody)

/-- Code in a scope has no assignment to a variable that it sees and that is to be left alone. -/
def Spares (scope : Scope) (assigns : String → Bool) : Prop :=
  ∀ x, K.watches x → scope.Sees x → assigns x.name = false

/-- A name that may be bound in a frame. -/
def Sets (id : FrameId) (name : String) : Prop :=
  ∀ x, K.watches x → id = x.frame → name ≠ x.name

def Free (id : FrameId) : Prop :=
  ∀ x, K.watches x → id ≠ x.frame

/-- A statement that neither assigns to a variable that is to be left alone nor declares it. -/
structure Admits (scope : Scope) (stmt : Stmt) : Prop where
  assigns : K.Spares scope fun name => stmt.assigns name
  binds : ∀ x, K.watches x → scope.inner = x.frame → stmt.binds x.name = false

structure Readies (o : Overload) (count : Nat) : Prop where
  supplied : K.strict → Supplied o.params count
  spared : ∀ x, K.watches x → o.Only x.SparedBy

end Code

variable {K : Custody} {scope : Scope}

theorem Spares.or {a b : String → Bool} (h : K.Spares scope fun name => a name || b name) :
    K.Spares scope a ∧ K.Spares scope b := by
  constructor
  · intro x hx hsees
    exact (Bool.or_eq_false_iff.mp (h x hx hsees)).1
  · intro x hx hsees
    exact (Bool.or_eq_false_iff.mp (h x hx hsees)).2

theorem Spares.inside {a : String → Bool} {inside : Scope} (h : K.Spares scope a)
    (hsees : ∀ x, K.watches x → inside.Sees x → scope.Sees x) : K.Spares inside a :=
  fun x hx hinside => h x hx (hsees x hx hinside)

theorem Free.sets {id : FrameId} (h : K.Free id) (name : String) : K.Sets id name :=
  fun x hx hid => absurd hid (h x hx)

theorem Free.admits {stmt : Stmt} (h : K.Free scope.inner)
    (hassigns : K.Spares scope fun name => stmt.assigns name) : K.Admits scope stmt :=
  ⟨hassigns, fun x hx hinner => absurd hinner (h x hx)⟩

/-- A declaration that assigns to no variable that is to be left alone makes such closures. -/
theorem Spares.overload {decl : FunctionDecl}
    (h : K.Spares scope fun name => functionAssigns name decl) (s : State) :
    ∀ x, K.watches x → (s.overload scope decl).Only x.SparedBy := by
  intro x hx c hc hsees
  cases hc
  have hnone : functionAssigns x.name decl = false := h x hx hsees
  rw [functionAssigns_eq] at hnone
  exact Bool.or_eq_false_iff.mp hnone

theorem Spares.accessor {decl : Option FunctionDecl}
    (h : K.Spares scope fun name => accessorAssigns name decl) (s : State) :
    ∀ a ∈ decl.map (s.accessor scope), K.contents.accessor a := by
  intro a ha
  obtain ⟨f, rfl, rfl⟩ := Option.map_eq_some_iff.mp ha
  refine (K.accessor _).mpr fun x hx hsees => ?_
  have hnone : functionAssigns x.name f = false := h x hx hsees
  rw [functionAssigns_eq] at hnone
  exact ⟨rfl, (Bool.or_eq_false_iff.mp hnone).2⟩

/-! ## States -/

section States

variable (K)

structure Holds (s : State) : Prop where
  only : s.Only K.contents
  frame : ∀ x, K.watches x → x.frame < s.frames.size

structure Permits (c : Change) : Prop where
  only : c.Only K.contents
  sets : ∀ id name b, c = .bind id name b → K.Sets id name

/-- From one state to another a custody is kept. In a strict run it is known by which changes. -/
structure Keeps (s t : State) : Prop where
  holds : K.Holds t
  changes : K.strict → ∃ cs : List Change, (∀ c ∈ cs, c.Only K.contents) ∧ t = s.after cs
  same : ∀ x, K.watches x →
    t.frames.local? x.frame x.name = s.frames.local? x.frame x.name

end States

variable {s t u : State}

theorem Holds.refl (h : K.Holds s) : K.Keeps s s where
  holds := h
  changes _ := ⟨[], fun _ hc => absurd hc List.not_mem_nil, rfl⟩
  same _ _ := rfl

theorem Keeps.trans (hst : K.Keeps s t) (htu : K.Keeps t u) : K.Keeps s u where
  holds := htu.holds
  changes hstrict := by
    obtain ⟨cs, hcs, rfl⟩ := hst.changes hstrict
    obtain ⟨ds, hds, rfl⟩ := htu.changes hstrict
    refine ⟨cs ++ ds, fun c hc => ?_, (State.after_append s cs ds).symm⟩
    rcases List.mem_append.mp hc with hc | hc
    · exact hcs c hc
    · exact hds c hc
  same x hx := (htu.same x hx).trans (hst.same x hx)

theorem Holds.control (h : K.Holds s) (depth : Nat) (context : List (Option String)) :
    K.Holds (s.control depth context) :=
  ⟨h.only.control depth context, h.frame⟩

/-- The depth of calls and the context are as before, if they were given back. -/
theorem Keeps.of_control {depth depth' : Nat} {context context' : List (Option String)}
    (h : K.Keeps (s.control depth context) t)
    (hback : t.callDepth = depth → t.context = context →
      depth' = s.callDepth ∧ context' = s.context) :
    K.Keeps s (t.control depth' context') where
  holds := h.holds.control depth' context'
  changes hstrict := by
    obtain ⟨cs, hcs, rfl⟩ := h.changes hstrict
    obtain ⟨rfl, rfl⟩ := hback (State.after_callDepth _ cs) (State.after_context _ cs)
    refine ⟨cs, hcs, ?_⟩
    rw [State.after_control]
    exact State.control_self (State.after_callDepth s cs) (State.after_context s cs)
  same := h.same

/-- One change. -/
theorem Holds.apply (h : K.Holds s) {c : Change} (hc : K.Permits c) : K.Keeps s (s.apply c) where
  holds := by
    refine ⟨h.only.apply hc.only, fun x hx => ?_⟩
    exact Nat.lt_of_lt_of_le (h.frame x hx) (s.frames_size_apply hc.only.own)
  changes _ := ⟨[c], fun d hd => List.mem_singleton.mp hd ▸ hc.only, rfl⟩
  same x hx := by
    cases c with
    | frame => exact Frames.local?_push s.frames x.frame x.name
    | bind id name b =>
        refine Frames.local?_define_of_ne s.frames b ?_
        rintro ⟨rfl, rfl⟩
        exact hc.sets _ _ b rfl x hx rfl rfl
    | foreign f => exact hc.only.elim
    | list _ | setItem _ _ _ | setMember _ _ _ | addClass _ | addInstance _ _ | register _ _
    | print _ => rfl

/-! ## Questions -/

section Questions

variable {α β : Type}

/-- A question with an answer that satisfies `Q`, or with a fault other than that of a missing
argument where that counts. -/
inductive Settled (K : Custody) (Q : α → Prop) : Except Fault α → Prop
  | ok (a : α) (ha : Q a) : K.Settled Q (.ok a)
  | error (f : Fault) (hf : K.strict → f.missesArgument = false) : K.Settled Q (.error f)

namespace Settled

variable {P : β → Prop} {Q R : α → Prop} {x : Except Fault α}

theorem mono (h : K.Settled Q x) (hQR : ∀ a, Q a → R a) : K.Settled R x := by
  cases h with
  | ok a ha => exact .ok a (hQR a ha)
  | error f hf => exact .error f hf

theorem bind (h : K.Settled Q x) {f : α → Except Fault β} (hf : ∀ a, Q a → K.Settled P (f a)) :
    K.Settled P (x >>= f) := by
  cases h with
  | ok a ha => exact hf a ha
  | error f hf => exact .error f hf

theorem map (h : K.Settled Q x) {f : α → β} (hf : ∀ a, Q a → P (f a)) :
    K.Settled P (f <$> x) := by
  cases h with
  | ok a ha => exact .ok (f a) (hf a ha)
  | error f hf => exact .error f hf

/-- An answer is what the question gives. -/
theorem self (h : K.Settled Q x) : K.Settled (fun a => x = .ok a) x := by
  cases h with
  | ok a ha => exact .ok a rfl
  | error f hf => exact .error f hf

/-- One answer for each element of a list. -/
theorem mapM {f : α → Except Fault β} {as : List α}
    (h : ∀ a ∈ as, K.Settled (fun _ => True) (f a)) :
    K.Settled (fun bs => bs.length = as.length) (as.mapM f) := by
  induction as with
  | nil => exact .ok [] rfl
  | cons a as ih =>
      rw [List.mapM_cons]
      refine (h a List.mem_cons_self).bind fun b _ => ?_
      refine (ih fun a' ha' => h a' (List.mem_cons_of_mem _ ha')).bind fun bs hbs => ?_
      exact .ok (b :: bs) (congrArg Nat.succ hbs)

theorem filterMapM {f : α → Except Fault (Option β)} {as : List α}
    (h : ∀ a ∈ as, K.Settled (fun _ => True) (f a)) :
    K.Settled (fun _ => True) (as.filterMapM f) := by
  induction as with
  | nil => exact .ok [] trivial
  | cons a as ih =>
      rw [List.filterMapM_cons]
      refine (h a List.mem_cons_self).bind fun b _ => ?_
      have hrest := ih fun a' ha' => h a' (List.mem_cons_of_mem _ ha')
      cases b with
      | none => exact hrest
      | some b => exact hrest.bind fun bs _ => .ok _ trivial

/-! ### Functions and bindings -/

theorem toNumber (v : Value) : K.Settled (fun _ => True) v.toNumber := by
  cases v with
  | string t =>
      unfold Value.toNumber
      dsimp only
      split
      · exact .ok _ trivial
      · exact .error _ fun _ => rfl
  | number _ | boolean _ | function _ | list _ | object _ | null => exact .ok _ trivial

theorem add {f : Function} (hf : K.contents.function f) {o : Overload}
    (ho : ∀ x, K.watches x → o.Only x.SparedBy) :
    K.Settled K.contents.function (f.add o) := by
  have horder : K.Settled (fun _ => True) (checkOrder f.name o.params) := by
    unfold checkOrder
    split
    · exact .error _ fun _ => rfl
    · exact .ok () trivial
  have hadd : K.Settled (fun _ => True) (f.add o) := by
    refine horder.bind fun _ _ => ?_
    dsimp only
    split
    · exact .error _ fun _ => rfl
    · split
      · exact .error _ fun _ => rfl
      · exact .ok _ trivial
  exact hadd.self.mono fun g hg => K.add f o g hf ho hg

/-- A selected overload can be run with the arguments that selected it. -/
theorem resolve {f : Function} (hf : K.contents.function f) (lineage : Lineage) (args : List Ty) :
    K.Settled (fun o => K.Readies o args.length) (f.resolve lineage args) := by
  have hresolve : K.Settled (fun _ => True) (f.resolve lineage args) := by
    unfold Function.resolve Overload.choose
    split
    · exact .ok _ trivial
    · exact .error _ fun _ => rfl
    · exact .error _ fun _ => rfl
  refine hresolve.self.mono fun o ho => ⟨fun hstrict => ?_, fun x hx => ?_⟩
  · exact (K.formed hstrict f hf).supplied_of_resolve ho
  · exact K.spared x hx f hf o (Function.mem_and_acceptsCount_of_resolve ho).1

theorem newVariable (fs : Frames) (id : FrameId) (name : String) (ty : Ty) {v : Value}
    (hv : v.Only K.contents) :
    K.Settled (fun b => b.value.Only K.contents) (fs.newVariable id name ty v) := by
  unfold Frames.newVariable
  split
  · split
    · exact .error _ fun _ => rfl
    · split
      · exact .error _ fun _ => rfl
      · exact .ok _ hv
  · exact .ok _ hv

theorem newConstant (fs : Frames) (id : FrameId) (name : String) (ty : Ty) {v : Value}
    (hv : v.Only K.contents) :
    K.Settled (fun b => b.value.Only K.contents) (fs.newConstant id name ty v) := by
  unfold Frames.newConstant
  split
  · exact .error _ fun _ => rfl
  · exact .ok _ hv

theorem assigned (fs : Frames) (lineage : Lineage) (id : FrameId) (name : String) (ty : Ty)
    {v : Value} (hv : v.Only K.contents) :
    K.Settled (fun b => b.value.Only K.contents) (fs.assigned lineage id name ty v) := by
  unfold Frames.assigned
  split
  · exact .error _ fun _ => rfl
  · split
    · exact .error _ fun _ => rfl
    · split
      · exact .ok _ hv
      · exact .error _ fun _ => rfl

/-! ### Containers -/

theorem get (h : Heap) (handle : Handle) :
    K.Settled (fun c => h.get handle = .ok c) (h.get handle) := by
  have hget : K.Settled (fun _ => True) (h.get handle) := by
    unfold Heap.get
    split
    · exact .ok _ trivial
    · exact .error _ fun _ => rfl
  exact hget.self

theorem findStatic (h : Heap) (handle : Handle) (name : String) :
    K.Settled (fun _ => True) (h.findStatic handle name) := by
  unfold Heap.findStatic
  generalize h.slots.size + 1 = bound
  induction bound generalizing handle with
  | zero => exact .ok none trivial
  | succ bound ih =>
      rw [Heap.findStaticWithin]
      refine (get h handle).bind fun c _ => ?_
      split
      · exact .ok _ trivial
      · split
        · exact ih _
        · exact .ok none trivial

theorem namesWithin (h : Heap) (bound : Nat) (handle : Handle) :
    K.Settled (fun _ => True) (h.namesWithin bound handle) := by
  induction bound generalizing handle with
  | zero => exact .ok [] trivial
  | succ bound ih =>
      rw [Heap.namesWithin]
      refine (get h handle).bind fun c _ => ?_
      split
      · exact (ih _).bind fun names _ => .ok _ trivial
      · exact .ok _ trivial

theorem classChain (h : Heap) (handle : Handle) :
    K.Settled (fun _ => True) (h.classChain handle) := by
  unfold Heap.classChain
  refine (get h handle).bind fun c _ => ?_
  split
  · exact (namesWithin h _ _).bind fun names _ => .ok _ trivial
  · exact .ok none trivial

/-! ### Types and texts of values -/

section Values

variable (s)

theorem typeOf (v : Value) : K.Settled (fun _ => True) (s.typeOf v) := by
  cases v with
  | object handle => exact (get s.heap handle).bind fun c _ => .ok c.ty trivial
  | number _ | string _ | boolean _ | function _ | list _ | null => exact .ok _ trivial

theorem typesOf (args : List Value) :
    K.Settled (fun types => types.length = args.length) (args.mapM s.typeOf) :=
  .mapM fun v _ => typeOf s v

theorem lineageOf (values : List Value) : K.Settled (fun _ => True) (s.lineageOf values) := by
  unfold State.lineageOf
  refine bind (Q := fun _ => True) (.filterMapM fun v _ => ?_) fun chains _ => .ok _ trivial
  cases v with
  | object handle => exact classChain s.heap handle
  | number _ | string _ | boolean _ | function _ | list _ | null => exact .ok none trivial

theorem fits (v : Value) (valueTy target : Ty) :
    K.Settled (fun _ => True) (s.fits v valueTy target) :=
  (lineageOf s [v]).bind fun _ _ => .ok _ trivial

theorem leafText (v : Value) : K.Settled (fun _ => True) (s.leafText v) := by
  cases v with
  | object handle => exact (get s.heap handle).bind fun c _ => .ok _ trivial
  | number _ | string _ | boolean _ | function _ | list _ | null => exact .ok _ trivial

theorem textOf (v : Value) : K.Settled (fun _ => True) (s.textOf v) := by
  have hrender : ∀ (depth : Nat) (around : List ListId) (v : Value),
      K.Settled (fun _ => True) (s.lists.render s.leafText State.listText depth around v) := by
    intro depth
    induction depth with
    | zero =>
        intro around v
        cases v with
        | list id => exact .ok _ trivial
        | number _ | string _ | boolean _ | function _ | object _ | null => exact leafText s _
    | succ depth ih =>
        intro around v
        cases v with
        | list id =>
            rw [Lists.render]
            split
            · exact .ok _ trivial
            · exact (mapM fun w _ => ih _ w).map fun _ _ => trivial
        | number _ | string _ | boolean _ | function _ | object _ | null => exact leafText s _
  exact hrender _ _ v

theorem equal (left right : Value) : K.Settled (fun _ => True) (s.equal left right) := by
  unfold State.equal
  refine (typeOf s left).bind fun leftTy _ => ?_
  refine (typeOf s right).bind fun rightTy _ => ?_
  split
  · refine (textOf s left).bind fun leftText _ => ?_
    exact (textOf s right).bind fun rightText _ => .ok _ trivial
  · exact .ok false trivial

theorem memberHandle (v : Value) (name : String) :
    K.Settled (fun _ => True) (s.memberHandle v name) := by
  cases v with
  | object handle => exact .ok handle trivial
  | null => exact .error _ fun _ => rfl
  | number _ | string _ | boolean _ | function _ | list _ =>
      exact (typeOf s _).bind fun ty _ => .error _ fun _ => rfl

theorem element (target position : Value) :
    K.Settled (fun _ => True) (Evaluator.element s target position) := by
  unfold Evaluator.element
  split
  · refine (toNumber position).bind fun index _ => ?_
    dsimp only
    split
    · exact .ok _ trivial
    · exact .error _ fun _ => rfl
  · exact (typeOf s _).bind fun ty _ => .error _ fun _ => rfl

end Values

/-! ### Members -/

theorem locate (hs : K.Holds s) (handle : Handle) (name : String) :
    K.Settled (fun found => found.2.Only K.contents) (s.locate handle name) := by
  unfold State.locate
  refine (get s.heap handle).bind fun c hc => ?_
  dsimp only
  split
  · next m hm =>
      refine .ok _ ((hs.only.container handle c hc).member false m ?_)
      split at hm
      · cases hm
      · exact Assoc.mem_values_of_get? hm
  · refine (findStatic s.heap _ name).bind fun found _ => ?_
    split
    · exact .error _ fun _ => rfl
    · next owner =>
        refine (get s.heap owner).bind fun cls hcls => ?_
        split
        · next m hm =>
            have hmem := Assoc.mem_values_of_get? hm
            exact .ok _ ((hs.only.container owner cls hcls).member true m hmem)
        · exact .error _ fun _ => rfl

theorem accessed (hs : K.Holds s) (v : Value) (name : String) :
    K.Settled (fun found => found.2.2.Only K.contents) (s.accessed v name) := by
  unfold State.accessed
  refine (memberHandle s v name).bind fun handle _ => ?_
  refine (locate hs handle name).bind fun found hfound => ?_
  have haccess : K.Settled (fun _ => True) (s.checkAccess found.2 name) := by
    unfold State.checkAccess
    split
    · exact .ok () trivial
    · exact .error _ fun _ => rfl
  exact haccess.bind fun _ _ => .ok _ hfound

/-! ### Operators and calls -/

/-- The question that selects an overload. -/
theorem selected (s : State) {f : Function} (hf : K.contents.function f) (args : List Value) :
    K.Settled (fun o => K.Readies o args.length) (s.selected f args) := by
  refine (typesOf s args).bind fun types htypes => ?_
  refine (lineageOf s args).bind fun lineage _ => ?_
  exact htypes ▸ resolve hf lineage types

theorem operandClass (hs : K.Holds s) (v : Value) :
    K.Settled (fun cls => ∀ c ∈ cls, c.Only K.contents) (s.operandClass v) := by
  cases v with
  | object handle =>
      refine (get s.heap handle).bind fun c _ => ?_
      split
      · next cls _ =>
          refine (get s.heap cls).bind fun k hk => .ok _ fun c' hc' => ?_
          cases hc'
          exact hs.only.container cls k hk
      · exact .ok none nofun
  | number _ | string _ | boolean _ | function _ | list _ | null => exact .ok none nofun

theorem binaryOverload (hs : K.Holds s) (op : BinOp) (left right : Value) :
    K.Settled (fun found => ∀ p ∈ found, K.Readies p.2 1) (s.binaryOverload op left right) := by
  unfold State.binaryOverload
  refine (operandClass hs left).bind fun cls hcls => ?_
  split
  · exact .ok none nofun
  · next f hf =>
      obtain ⟨c, hc, hop⟩ := Option.bind_eq_some_iff.mp hf
      have honly := (hcls c hc).binaryOps f (Assoc.mem_values_of_get? hop)
      refine (typeOf s right).bind fun ty _ => ?_
      refine (lineageOf s [right]).bind fun lineage _ => ?_
      split
      · exact .ok none nofun
      · refine (resolve honly lineage [ty]).bind fun o ho => .ok _ fun p hp => ?_
        cases hp
        exact ho

theorem unaryOverload (hs : K.Holds s) (op : UnOp) (operand : Value) :
    K.Settled (fun found => ∀ p ∈ found, K.Readies p.2 0) (s.unaryOverload op operand) := by
  unfold State.unaryOverload
  refine (operandClass hs operand).bind fun cls hcls => ?_
  split
  · exact .ok none nofun
  · next f hf =>
      obtain ⟨c, hc, hop⟩ := Option.bind_eq_some_iff.mp hf
      have honly := (hcls c hc).unaryOps f (Assoc.mem_values_of_get? hop)
      refine (resolve honly _ []).bind fun o ho => .ok _ fun p hp => ?_
      cases hp
      exact ho

theorem repeatText (text : String) (factor : Float) :
    K.Settled (fun _ => True) (ClassScript.repeatText text factor) := by
  unfold ClassScript.repeatText
  split
  · exact .error _ fun _ => rfl
  · split
    · exact .ok _ trivial
    · split
      · exact .ok _ trivial
      · dsimp only
        split
        · exact .ok _ trivial
        · exact .error _ fun _ => rfl

/-- What an operator gives for numbers and strings is no function. -/
theorem builtin (s : State) (op : BinOp) (left right : Value) :
    K.Settled (fun r => ∀ v ∈ r, v.Only K.contents) (BinOp.builtin s op left right) := by
  have htext : ∀ {x : Except Fault String}, K.Settled (fun _ => True) x →
      K.Settled (fun r => ∀ v ∈ r, Value.Only K.contents v) ((some ∘ Value.string) <$> x) :=
    fun hx => hx.map fun _ _ => Value.Only.some trivial
  have hboolean : ∀ b : Bool,
      K.Settled (fun r => ∀ v ∈ r, Value.Only K.contents v) (.ok (some (.boolean b))) :=
    fun b => .ok _ (Value.Only.some trivial)
  have hjoined : K.Settled (fun _ => True) (BinOp.joined s left right) := by
    refine (textOf s left).bind fun leftText _ => ?_
    exact (textOf s right).bind fun rightText _ => .ok _ trivial
  unfold BinOp.builtin
  split
  · refine .ok _ fun v hv => ?_
    cases op <;> cases hv <;> trivial
  · exact htext hjoined
  · exact htext hjoined
  · exact htext (repeatText _ _)
  · exact htext (repeatText _ _)
  · exact hboolean _
  · exact hboolean _
  · exact hboolean _
  · exact hboolean _
  · exact .ok none nofun

/-! ### Bases of classes -/

theorem parentOf (s : State) (scope : Scope) (name : String) (bases : List Ty)
    (found : Option Handle) : K.Settled (fun _ => True) (s.parentOf scope name found bases) := by
  have hbase : ∀ base : String, K.Settled (fun _ => True) (s.baseClass scope base) := by
    intro base
    unfold State.baseClass
    split
    · exact .error _ fun _ => rfl
    · refine (get s.heap _).bind fun c _ => ?_
      split
      · exact .ok _ trivial
      · exact .error _ fun _ => rfl
    · exact .error _ fun _ => rfl
  induction bases generalizing found with
  | nil => exact .ok found trivial
  | cons base bases ih =>
      rw [State.parentOf]
      refine (hbase base.name).bind fun handle _ => ?_
      cases found with
      | some existing => exact (get s.heap existing).bind fun c _ => .error _ fun _ => rfl
      | none => exact ih (some handle)

end Settled

end Questions

/-- A run from `s` keeps a custody. A result satisfies `Q`, and what halts the run is not that an
argument is missing where that counts. -/
inductive Ends {α : Type} (K : Custody) (Q : α → Prop) (s : State) :
    EStateM.Result Halt State α → Prop
  | ok (a : α) (t : State) (ht : K.Keeps s t) (ha : Q a) : K.Ends Q s (.ok a t)
  | halt (why : Halt) (t : State) (ht : K.Keeps s t)
      (hwhy : K.strict → why.missesArgument = false) : K.Ends Q s (.error why t)

end Custody

/-! ## Actions -/

def Exec.Under {α : Type} (K : Custody) (Q : α → Prop) (action : Exec α) : Prop :=
  ∀ s : State, K.Holds s → K.Ends Q s (action s)

namespace Exec.Under

variable {α β : Type} {K : Custody} {P : β → Prop} {Q : α → Prop} {action : Exec α}

theorem keeps (h : action.Under K Q) {s t : State} (hs : K.Holds s) {a : α}
    (hrun : action s = .ok a t) : K.Keeps s t := by
  have hends := h s hs
  rw [hrun] at hends
  cases hends with
  | ok a t ht ha => exact ht

theorem bind (h : action.Under K Q) {f : α → Exec β} (hf : ∀ a, Q a → (f a).Under K P) :
    (action >>= f).Under K P := by
  intro s hs
  have hfirst := h s hs
  cases hrun : action s with
  | error why t =>
      rw [hrun] at hfirst
      rw [bind_eq_of_error hrun]
      cases hfirst with
      | halt why t ht hwhy => exact .halt why t ht hwhy
  | ok a t =>
      rw [hrun] at hfirst
      rw [bind_eq_of_ok hrun]
      cases hfirst with
      | ok a t ht ha =>
          have hsecond := hf a ha t ht.holds
          generalize f a t = r at hsecond
          cases hsecond with
          | ok b u hu hb => exact .ok b u (ht.trans hu) hb
          | halt why u hu hwhy => exact .halt why u (ht.trans hu) hwhy

theorem map (h : action.Under K Q) {f : α → β} (hf : ∀ a, Q a → P (f a)) :
    (f <$> action).Under K P := by
  intro s hs
  change K.Ends P s (EStateM.map f action s)
  have hfirst := h s hs
  unfold EStateM.map
  generalize action s = r at hfirst
  cases hfirst with
  | ok a t ht ha => exact .ok (f a) t ht (hf a ha)
  | halt why t ht hwhy => exact .halt why t ht hwhy

theorem pure {a : α} (ha : Q a) : Under K Q (pure a : Exec α) :=
  fun s hs => .ok a s hs.refl ha

theorem outOfFuel : Under K Q (throw .outOfFuel : Exec α) :=
  fun s hs => .halt .outOfFuel s hs.refl fun _ => rfl

theorem fault {f : Fault} (hf : K.strict → f.missesArgument = false) :
    Under K Q (Exec.fault f : Exec α) :=
  fun s hs => .halt (.fault f) s hs.refl hf

/-- An action that looks at the whole state. -/
theorem get_bind {f : State → Exec α} (hf : ∀ s : State, K.Holds s → (f s).Under K Q) :
    Under K Q (get >>= f) :=
  fun s hs => hf s hs s hs

theorem ask {question : State → Except Fault α}
    (h : ∀ s : State, K.Holds s → K.Settled Q (question s)) : (Exec.ask question).Under K Q := by
  intro s hs
  unfold Exec.ask
  have hanswer := h s hs
  generalize question s = answer at hanswer
  cases hanswer with
  | ok a ha => exact pure ha s hs
  | error f hf => exact fault hf s hs

theorem ofExcept {answer : Except Fault α} (h : K.Settled Q answer) :
    (Exec.ofExcept answer).Under K Q :=
  ask fun _ _ => h

/-- A value has to fit a type before the rest. -/
theorem fitting (v : Value) (ty : Ty) {refusal : Ty → Fault}
    (hrefusal : ∀ valueTy, (refusal valueTy).missesArgument = false) (h : action.Under K Q) :
    (do
      let valueTy ← Exec.ask (·.typeOf v)
      unless ← Exec.ask (·.fits v valueTy ty) do
        Exec.fault (refusal valueTy)
      action).Under K Q := by
  refine bind (ask fun s _ => .typeOf s v) fun valueTy _ => ?_
  refine bind (ask fun s _ => .fits s v valueTy ty) fun fits _ => ?_
  cases fits with
  | false => exact fault fun _ => hrefusal valueTy
  | true => exact h

theorem container (handle : Handle) :
    (Exec.ask (·.heap.get handle)).Under K (Container.Only K.contents) := by
  refine ask fun s hs => (Custody.Settled.get s.heap handle).mono ?_
  intro c hc
  exact hs.only.container handle c hc

/-- An action that makes one change. -/
theorem change {c : Change} (hc : K.Permits c) {a : State → α} (ha : ∀ s, K.Holds s → Q (a s))
    (haction : ∀ s, action s = .ok (a s) (s.apply c)) : action.Under K Q := by
  intro s hs
  rw [haction]
  exact .ok (a s) _ (hs.apply hc) (ha s hs)

/-! ### Calls and the classes of running code -/

/-- An action that only runs at another depth of calls and in another context, and gives them
back. -/
theorem between {enter leave : State → State} (h : action.Under K Q)
    (hcontrol : ∀ s : State, ∃ depth context, enter s = s.control depth context ∧
      ∀ t : State, ∃ depth' context', leave t = t.control depth' context' ∧
        (t.callDepth = depth → t.context = context →
          depth' = s.callDepth ∧ context' = s.context)) :
    (Exec.between enter leave action).Under K Q := by
  intro s hs
  obtain ⟨depth, context, henter, hleave⟩ := hcontrol s
  have hback : ∀ t : State, K.Keeps (s.control depth context) t → K.Keeps s (leave t) := by
    intro t ht
    obtain ⟨depth', context', hcontrol', hsame⟩ := hleave t
    rw [hcontrol']
    exact ht.of_control hsame
  have hinside := h _ (hs.control depth context)
  unfold Exec.between
  rw [henter]
  generalize action (s.control depth context) = r at hinside
  cases hinside with
  | ok a t ht ha => exact .ok a _ (hback t ht) ha
  | halt why t ht hwhy => exact .halt why _ (hback t ht) hwhy

theorem deeper (h : action.Under K Q) : (Exec.deeper action).Under K Q := by
  refine between h fun s => ⟨s.callDepth + 1, s.context, rfl, fun t => ?_⟩
  refine ⟨t.callDepth - 1, t.context, rfl, fun hdepth hcontext => ⟨?_, hcontext⟩⟩
  rw [hdepth, Nat.add_sub_cancel]

theorem asCodeOf (owner : Option String) (h : action.Under K Q) :
    (Exec.asCodeOf owner action).Under K Q := by
  refine between h fun s => ⟨s.callDepth, owner :: s.context, rfl, fun t => ?_⟩
  refine ⟨t.callDepth, t.context.tail, rfl, fun hdepth hcontext => ⟨hdepth, ?_⟩⟩
  rw [hcontext, List.tail_cons]

/-! ### Actions that change the state -/

/-- A scope inside another one, whose frame is a new one. -/
theorem newScope (scope : Scope) : (Exec.newScope scope).Under K fun inside =>
    K.Free inside.inner ∧ ∀ x, K.watches x → inside.Sees x → scope.Sees x := by
  refine change (c := .frame) ⟨trivial, by simp⟩ (a := fun s => scope.child s.frames.size) ?_
    fun _ => rfl
  intro s hs
  have hnew : K.Free s.frames.size := fun x hx => Nat.ne_of_gt (hs.frame x hx)
  exact ⟨hnew, fun x hx hsees => (Scope.sees_child (hnew x hx)).mp hsees⟩

theorem newList {items : List Value} (hitems : ∀ v ∈ items, v.Only K.contents) :
    (Exec.newList items).Under K (Value.Only K.contents) := by
  refine change (c := .list items) ⟨hitems, by simp⟩ (a := fun s => .list s.lists.size) ?_ ?_
  · exact fun _ _ => trivial
  · exact fun _ => rfl

theorem alloc {c : Container} (hc : c.Only K.contents) : (Exec.alloc c).Under K fun _ => True :=
  change (c := .addClass c) ⟨hc, by simp⟩ (fun _ _ => trivial) fun _ => rfl

theorem define {id : FrameId} {name : String} (hset : K.Sets id name) {b : Binding}
    (hb : b.value.Only K.contents) : (Exec.define id name b).Under K fun _ => True := by
  refine change (c := .bind id name b) ⟨hb, ?_⟩ (fun _ _ => trivial) fun _ => rfl
  intro id' name' b' heq
  cases heq
  exact hset

theorem rebind {id : FrameId} {name : String} (hset : K.Sets id name)
    {rule : State → Except Fault Binding}
    (h : ∀ s : State, K.Holds s → K.Settled (fun b => b.value.Only K.contents) (rule s)) :
    (Exec.rebind id name rule).Under K fun _ => True :=
  bind (ask h) fun _ hb => define hset hb

theorem write (text : String) : (Exec.write text).Under K fun _ => True := by
  intro s hs
  have hwrite : K.Settled (fun _ => True) (s.sink.write text) := by
    unfold Sink.write
    dsimp only
    split
    · exact .error _ fun _ => rfl
    · exact .ok _ trivial
  unfold Exec.write
  cases hsink : s.sink.write text with
  | error f =>
      rw [hsink] at hwrite
      cases hwrite with
      | error f hf => exact fault hf s hs
  | ok sink =>
      have happly : ({ s with sink } : State) = s.apply (.print text) := by
        simp only [State.apply, hsink]
        rfl
      simp only [happly]
      exact .ok () _ (hs.apply ⟨trivial, by simp⟩) trivial

theorem defaultValue (scope : Scope) (ty : Ty) :
    (Exec.defaultValue scope ty).Under K (Value.Only K.contents) := by
  unfold Exec.defaultValue
  split
  · exact pure trivial
  · split
    · exact pure trivial
    · exact pure trivial
    · exact pure trivial
    · exact newList fun _ hv => absurd hv List.not_mem_nil
    · exact pure (K.contents.empty "")
    · refine get_bind fun s _ => ?_
      split
      · exact pure trivial
      · exact fault fun _ => rfl

end Exec.Under

end ClassScript

import ClassScript.Proofs.Custody
import ClassScript.Run.Evaluator

/-!
# Code that keeps a custody

An evaluator keeps a custody when its evaluation of parts of code does, as long as the code leaves
alone what it should. Everything that is built from such an evaluator then keeps the custody too:
calls, member access, construction, operators, class bodies, expressions and statements, one rule
for each form. In the end an evaluator with any fuel keeps it, if the host does.

Two of the rules have an argument. A call binds the parameters of an overload that its arguments
have selected, so that in a strict run an argument is there for each required one. And an assignment
goes to a frame of its scope, so that code in a scope without the frame may assign to the name.
-/

namespace ClassScript

structure Evaluator.Under (K : Custody) (ev : Evaluator) : Prop where
  eval : ∀ {scope : Scope} {e : Expr}, (K.Spares scope fun name => e.assigns name) →
    (ev.eval scope e).Under K (Value.Only K.contents)
  exec : ∀ {scope : Scope} {stmt : Stmt}, K.Admits scope stmt →
    (ev.exec scope stmt).Under K (Flow.Only K.contents)
  host : ∀ (name : String) {args : List Value}, (∀ v ∈ args, v.Only K.contents) →
    (ev.host ev.call name args).Under K fun r => ∀ v ∈ r, v.Only K.contents

variable {K : Custody}

/-! ## Drafts -/

namespace Draft

variable {d : Draft}

theorem settled_insert (h : d.cls.Only K.contents) (isStatic : Bool) (name : String) {m : Member}
    (hm : m.Only K.contents) :
    K.Settled (fun d => d.cls.Only K.contents) (d.insert isStatic name m) := by
  unfold insert
  split
  · exact .error _ fun _ => rfl
  · exact .ok _ (only_put h isStatic name hm)

theorem settled_methodFunction (h : d.cls.Only K.contents) (isStatic : Bool) (name : String) :
    K.Settled K.contents.function (d.methodFunction isStatic name) := by
  unfold methodFunction
  split
  · cases hm : (d.cls.table isStatic).get? name with
    | none => exact .ok _ (K.contents.empty name)
    | some m =>
        have hvalue := (h.member isStatic m (Assoc.mem_values_of_get? hm)).value
        obtain ⟨access, ty, value, owner, form⟩ := m
        cases value with
        | function f =>
            cases form with
            | field readonly => exact .ok f hvalue
            | property getter setter => exact .error _ fun _ => rfl
        | number _ | string _ | boolean _ | object _ | list _ | null => exact .error _ fun _ => rfl
  · exact .ok _ (K.contents.empty name)

section Overloads

variable {o : Overload} (ho : ∀ x, K.watches x → o.Only x.SparedBy)

include ho

theorem settled_addMethod (h : d.cls.Only K.contents) (access : Access) (isStatic : Bool)
    (name : String) :
    K.Settled (fun d => d.cls.Only K.contents) (d.addMethod access isStatic name o) := by
  refine (settled_methodFunction h isStatic name).bind fun f hf => ?_
  refine (Custody.Settled.add hf ho).bind fun g hg => ?_
  exact .ok _ (only_put h isStatic name ⟨hg, nofun⟩)

theorem settled_addConstructor (h : d.cls.Only K.contents) :
    K.Settled (fun d => d.cls.Only K.contents) (d.addConstructor o) := by
  refine (Custody.Settled.add h.constructors ho).bind fun f hf => ?_
  exact .ok _ ⟨hf, h.member, h.binaryOps, h.unaryOps⟩

/-- A table of operators after an overload has been added to one of them: to what the body has
declared, or to a new function. -/
theorem settled_addOperator {κ : Type} [DecidableEq κ] {t : Assoc κ Function}
    (h : ∀ f ∈ t.values, K.contents.function f) (k : κ) (declared : Prop) [Decidable declared]
    (name : String) :
    K.Settled (fun f => ∀ g ∈ (t.insert k f).values, K.contents.function g)
      (((if declared then t.get? k else none).getD { name }).add o) := by
  have hexisting :
      K.contents.function ((if declared then t.get? k else none).getD { name }) := by
    split
    · cases hget : t.get? k with
      | none => exact K.contents.empty name
      | some f => exact h f (Assoc.mem_values_of_get? hget)
    · exact K.contents.empty name
  refine (Custody.Settled.add hexisting ho).mono fun f hf g hg => ?_
  rcases Assoc.mem_values_insert hg with rfl | hg
  · exact hf
  · exact h g hg

theorem settled_addBinary (h : d.cls.Only K.contents) (op : BinOp) (name : String) :
    K.Settled (fun d => d.cls.Only K.contents) (d.addBinary op name o) := by
  refine (settled_addOperator ho h.binaryOps op (op ∈ d.binaryOps) name).bind fun f hf => ?_
  exact .ok _ ⟨h.constructors, h.member, hf, h.unaryOps⟩

theorem settled_addUnary (h : d.cls.Only K.contents) (op : UnOp) (name : String) :
    K.Settled (fun d => d.cls.Only K.contents) (d.addUnary op name o) := by
  refine (settled_addOperator ho h.unaryOps op (op ∈ d.unaryOps) name).bind fun f hf => ?_
  exact .ok _ ⟨h.constructors, h.member, h.binaryOps, hf⟩

end Overloads

/-- The constructor that a class gets without asking is its only one. -/
theorem only_finished (h : d.cls.Only K.contents) : d.finished.Only K.contents := by
  unfold finished
  split
  · next hempty =>
      have hadd : d.cls.constructors.add (.native [] none .nothing) =
          .ok (d.cls.constructors.push (.native [] none .nothing)) := by
        unfold Function.add
        rw [List.isEmpty_iff.mp hempty]
        rfl
      have hnothing : ∀ x : Variable, (Overload.native [] none .nothing).Only x.SparedBy :=
        fun _ => nofun
      have hpush := K.add _ _ _ h.constructors (fun x _ => hnothing x) hadd
      exact ⟨hpush, h.member, h.binaryOps, h.unaryOps⟩
  · exact h

end Draft

namespace Evaluator.Under

open Exec

variable {ev : Evaluator} {scope : Scope}

/-! ## Calls -/

theorem native (hev : ev.Under K) (f : Native) {args : List Value}
    (hargs : ∀ v ∈ args, v.Only K.contents) :
    (ev.native args f).Under K fun r => ∀ v ∈ r, v.Only K.contents := by
  have hprinted : (Evaluator.native.printed args).Under K fun _ => True := by
    unfold Evaluator.native.printed
    cases args with
    | nil => exact .pure trivial
    | cons v args => exact .ask fun s _ => .textOf s v
  cases f with
  | print => exact .bind hprinted fun text _ => .bind (.write text) fun _ _ => .pure nofun
  | println => exact .bind hprinted fun text _ => .bind (.write _) fun _ _ => .pure nofun
  | nothing => exact .pure nofun
  | host name => exact hev.host name hargs

/-- The parameters are bound in a new frame. With an argument for each required one, binding them
never runs out of arguments before one without a default. -/
theorem bindParams (hev : ev.Under K) (function : String) (hscope : K.Free scope.inner)
    {params : List Param} (hparams : K.Spares scope fun name => Param.anyAssigns name params)
    {args : List Value} (hargs : ∀ v ∈ args, v.Only K.contents)
    (hsupplied : K.strict → Supplied params args.length) :
    (ev.bindParams function scope params args).Under K fun _ => True := by
  induction params generalizing args with
  | nil => exact .pure trivial
  | cons p ps ih =>
      obtain ⟨hdefault, hrest⟩ := hparams.or
      cases args with
      | cons value args =>
          have hargs' : ∀ v ∈ args, v.Only K.contents :=
            fun v hv => hargs v (List.mem_cons_of_mem _ hv)
          refine .bind (.define (hscope.sets p.name) (hargs value List.mem_cons_self)) fun _ _ => ?_
          refine ih hrest hargs' fun hstrict i q hq hrequired => ?_
          exact Nat.lt_of_succ_lt_succ (hsupplied hstrict (i + 1) q hq hrequired)
      | nil =>
          rw [Evaluator.bindParams]
          cases hp : p.default with
          | none =>
              refine .fault fun hstrict => ?_
              have hrequired : p.required = true := by
                rw [Param.required, hp]
                rfl
              exact absurd (hsupplied hstrict 0 p rfl hrequired) (Nat.not_lt_zero 0)
          | some default =>
              rw [hp] at hdefault
              refine .bind (hev.eval hdefault) fun value hvalue => ?_
              refine .fitting value p.ty (fun _ => rfl) ?_
              refine .bind (.define (hscope.sets p.name) hvalue) fun _ _ => ?_
              refine ih hrest hargs fun hstrict i q hq hrequired => ?_
              exact absurd (hsupplied hstrict (i + 1) q hq hrequired) (Nat.not_lt_zero _)

theorem result (function : String) (o : Overload) {produced : Option Value} (scope : Scope)
    (hproduced : ∀ v ∈ produced, v.Only K.contents) :
    (Evaluator.result function o produced scope).Under K (Value.Only K.contents) := by
  unfold Evaluator.result
  cases o.returnType with
  | none =>
      cases produced with
      | none => exact .pure trivial
      | some v => exact .pure (hproduced v rfl)
  | some ty =>
      cases produced with
      | none => exact .defaultValue scope ty
      | some v =>
          refine .bind (.ask fun s _ => .typeOf s v) fun valueTy _ => ?_
          refine .bind (.ask fun s _ => .fits s v valueTy ty) fun fits _ => ?_
          cases fits with
          | false => exact .fault fun _ => rfl
          | true => exact .pure (hproduced v rfl)

theorem bindThis (hscope : K.Free scope.inner) {this : Value} (hthis : this.Only K.contents) :
    (Evaluator.bindThis scope this).Under K fun _ => True := by
  refine .bind (.ask fun s _ => .typeOf s this) fun ty _ => ?_
  exact .define (hscope.sets "this") hthis

theorem runBody (hev : ev.Under K) (function : String) {o : Overload} {args : List Value}
    {body : Stmt} (hscope : K.Free scope.inner)
    (hparams : K.Spares scope fun name => Param.anyAssigns name o.params)
    (hbody : K.Spares scope fun name => body.assigns name)
    (hargs : ∀ v ∈ args, v.Only K.contents) (hsupplied : K.strict → Supplied o.params args.length) :
    (ev.runBody function o args scope body).Under K fun r => ∀ v ∈ r, v.Only K.contents := by
  refine .bind (hev.bindParams function hscope hparams hargs hsupplied) fun _ _ => ?_
  refine .bind (.asCodeOf o.owner (hev.exec (hscope.admits hbody))) fun flow hflow => ?_
  cases flow with
  | returned value => exact .pure hflow
  | normal value => exact .pure fun v hv => hflow v (Option.filter_eq_some_iff.mp hv).1

theorem runOverload (hev : ev.Under K) (function : String) {o : Overload} {args : List Value}
    {this : Option Value} (ho : K.Readies o args.length) (hargs : ∀ v ∈ args, v.Only K.contents)
    (hthis : ∀ v ∈ this, v.Only K.contents) :
    (ev.runOverload function o args this).Under K (Value.Only K.contents) := by
  unfold Evaluator.runOverload
  cases hcode : o.code with
  | native f =>
      refine .bind (hev.native f hargs) fun produced hproduced => ?_
      exact .get_bind fun s _ => result function o s.globals hproduced
  | script body closure =>
      have hclosure : ∀ x, K.watches x → x.SparedBy ⟨o.params, body, closure⟩ := by
        intro x hx
        refine ho.spared x hx _ ?_
        rw [Overload.closure?, hcode]
        rfl
      -- the body sees a variable if its closure does, and never declares into its frame
      refine .bind (.newScope closure) fun scope hnew => ?_
      obtain ⟨hscope, hsees⟩ := hnew
      have hparams : K.Spares scope fun name => Param.anyAssigns name o.params :=
        fun x hx hinside => (hclosure x hx (hsees x hx hinside)).1
      have hbody : K.Spares scope fun name => body.assigns name :=
        fun x hx hinside => (hclosure x hx (hsees x hx hinside)).2
      have hrest : (do
          let produced ← ev.runBody function o args scope body
          Evaluator.result function o produced closure).Under K (Value.Only K.contents) := by
        refine .bind (hev.runBody function hscope hparams hbody hargs ho.supplied) ?_
        exact fun produced hproduced => result function o closure hproduced
      cases this with
      | none => exact hrest
      | some this => exact .bind (bindThis hscope (hthis this rfl)) fun _ _ => hrest

theorem checkDepth : ev.checkDepth.Under K fun _ => True := by
  refine .get_bind fun s _ => ?_
  split
  · exact .fault fun _ => rfl
  · exact .pure trivial

theorem invoke (hev : ev.Under K) (function : String) {o : Overload} {args : List Value}
    {this : Option Value} (ho : K.Readies o args.length) (hargs : ∀ v ∈ args, v.Only K.contents)
    (hthis : ∀ v ∈ this, v.Only K.contents) :
    (ev.invoke function o args this).Under K (Value.Only K.contents) := by
  refine .bind checkDepth fun _ _ => ?_
  rw [Exec.roomy_eq]
  exact .deeper (hev.runOverload function ho hargs hthis)

theorem select {f : Function} (hf : K.contents.function f) (args : List Value) :
    (Evaluator.select f args).Under K fun o => K.Readies o args.length := by
  rw [Evaluator.select_eq]
  exact .ask fun s _ => .selected s hf args

theorem callFunction (hev : ev.Under K) {f : Function} (hf : K.contents.function f)
    {args : List Value} {this : Option Value} (hargs : ∀ v ∈ args, v.Only K.contents)
    (hthis : ∀ v ∈ this, v.Only K.contents) :
    (ev.callFunction f args this).Under K (Value.Only K.contents) :=
  .bind (select hf args) fun _ ho => hev.invoke f.name ho hargs hthis

/-! ## Members -/

theorem store (slot : MemberSlot) (name : String) {v : Value} (hv : v.Only K.contents) :
    (Evaluator.store slot name v).Under K fun _ => True := by
  refine .bind (.container slot.handle) fun c _ => ?_
  split
  · exact .change (c := .setMember slot name v) ⟨hv, by simp⟩ (fun _ _ => trivial) fun _ => rfl
  · exact .fault fun _ => rfl

theorem runAccessorBody (hev : ev.Under K) {code : AccessorCode} (hbody : K.Admits scope code.body)
    {field : Value} (hfield : field.Only K.contents) :
    (ev.runAccessorBody code scope field).Under K
      fun r => (∀ v ∈ r.1, v.Only K.contents) ∧ r.2.Only K.contents := by
  unfold Evaluator.runAccessorBody
  rw [Exec.roomy_eq]
  refine .bind (.deeper (.asCodeOf code.owner (hev.exec hbody))) fun flow hflow => ?_
  refine .get_bind fun s hs => ?_
  have hleft : (((s.frames.local? scope.inner "field").map Binding.value).getD field).Only
      K.contents := by
    cases hlocal : s.frames.local? scope.inner "field" with
    | none => exact hfield
    | some b => exact hs.only.local? hlocal
  cases flow with
  | returned value | normal value => exact .pure ⟨hflow, hleft⟩

theorem runAccessor (hev : ev.Under K) {code : AccessorCode} (hcode : K.contents.accessor code)
    {this : Value} (ty : Ty) {field : Value} {value : Option Value} (hthis : this.Only K.contents)
    (hfield : field.Only K.contents) (hvalue : ∀ v ∈ value, v.Only K.contents) :
    (ev.runAccessor code this ty field value).Under K
      fun r => (∀ v ∈ r.1, v.Only K.contents) ∧ r.2.Only K.contents := by
  refine .bind checkDepth fun _ _ => ?_
  refine .bind (.newScope code.scope) fun scope hnew => ?_
  obtain ⟨hscope, hsees⟩ := hnew
  have hbody : K.Spares scope fun name => code.body.assigns name :=
    fun x hx hinside => ((K.accessor code).mp hcode x hx (hsees x hx hinside)).2
  refine .bind (bindThis hscope hthis) fun _ _ => ?_
  refine .bind (.define (hscope.sets "field") hfield) fun _ _ => ?_
  cases value with
  | none => exact hev.runAccessorBody (hscope.admits hbody) hfield
  | some v =>
      refine .bind (.define (hscope.sets "value") (hvalue v rfl)) fun _ _ => ?_
      exact hev.runAccessorBody (hscope.admits hbody) hfield

theorem memberGet (hev : ev.Under K) {object : Value} (hobject : object.Only K.contents)
    (name : String) : (ev.memberGet object name).Under K (Value.Only K.contents) := by
  refine .bind (.ask fun s hs => .accessed hs object name) fun found hm => ?_
  obtain ⟨handle, slot, access, ty, value, owner, form⟩ := found
  cases form with
  | field readonly => exact .pure hm.value
  | property getter setter =>
      cases getter with
      | none => exact .pure hm.value
      | some getter =>
          have hgetter := hm.accessors getter (List.mem_append_left _ List.mem_cons_self)
          refine .bind (hev.runAccessor hgetter ty hobject hm.value Value.only_none) fun r hr => ?_
          refine .bind (store slot name hr.2) fun _ _ => ?_
          obtain ⟨produced, field⟩ := r
          cases produced with
          | none => exact .pure hr.2
          | some v => exact .pure (hr.1 v rfl)

theorem memberSet (hev : ev.Under K) {object value : Value} (hobject : object.Only K.contents)
    (name : String) (hvalue : value.Only K.contents) :
    (ev.memberSet object name value).Under K (Value.Only K.contents) := by
  refine .bind (.ask fun s hs => .accessed hs object name) fun found hm => ?_
  obtain ⟨handle, slot, access, ty, cached, owner, form⟩ := found
  refine .bind (.container handle) fun c _ => ?_
  dsimp only
  cases Member.readonly ⟨access, ty, cached, owner, form⟩ with
  | true => exact .fault fun _ => rfl
  | false =>
      refine .fitting value ty (fun _ => rfl) ?_
      cases form with
      | field readonly => exact .bind (store slot name hvalue) fun _ _ => .pure hvalue
      | property getter setter =>
          cases setter with
          | none => exact .fault fun _ => rfl
          | some setter =>
              have hsetter := hm.accessors setter (List.mem_append_right _ List.mem_cons_self)
              refine .bind (hev.runAccessor hsetter ty hobject hm.value hvalue.some) fun r hr => ?_
              exact .bind (store slot name hr.2) fun _ _ => .pure hvalue

/-! ## Objects and operators -/

theorem construct (hev : ev.Under K) (cls : Handle) {args : List Value}
    (hargs : ∀ v ∈ args, v.Only K.contents) :
    (ev.construct cls args).Under K (Value.Only K.contents) := by
  refine .bind (.ask fun s _ => .typesOf s args) fun _ _ => ?_
  refine .bind (.container cls) fun c hc => ?_
  refine .bind (select hc.constructors args) fun o ho => ?_
  have hnew : (newInstance c cls).Under K fun _ => True :=
    .change (c := .addInstance c cls) ⟨hc, by simp⟩ (fun _ _ => trivial) fun _ => rfl
  refine .bind hnew fun handle _ => ?_
  have hthis : (Value.object handle).Only K.contents := trivial
  exact .bind (hev.invoke c.name ho hargs hthis.some) fun _ _ => .pure hthis

theorem overloaded (hev : ev.Under K) (op : BinOp) {left right : Value}
    (hleft : left.Only K.contents) (hright : right.Only K.contents) :
    (ev.overloaded op left right).Under K fun r => ∀ v ∈ r, v.Only K.contents := by
  refine .bind (.ask fun s hs => .binaryOverload hs op left right) fun found hfound => ?_
  cases found with
  | none => exact .pure nofun
  | some found =>
      have hargs : ∀ v ∈ [right], v.Only K.contents := fun v hv => List.mem_singleton.mp hv ▸ hright
      exact .map (hev.invoke found.1 (hfound found rfl) hargs hleft.some) fun _ hv => hv.some

theorem binary (hev : ev.Under K) (op : BinOp) {left right : Value}
    (hleft : left.Only K.contents) (hright : right.Only K.contents) :
    (ev.binary op left right).Under K (Value.Only K.contents) := by
  have hrefusal : (do fault (.noOperation op (← ask (·.typeOf left)) (← ask (·.typeOf right))) :
      Exec Value).Under K (Value.Only K.contents) := by
    refine .bind (.ask fun s _ => .typeOf s left) fun _ _ => ?_
    exact .bind (.ask fun s _ => .typeOf s right) fun _ _ => .fault fun _ => rfl
  unfold Evaluator.binary
  by_cases hop : op = .eq ∨ op = .ne
  · rw [if_pos hop]
    refine .bind (hev.overloaded op hleft hright) fun r hr => ?_
    cases r with
    | some v => exact .pure (hr v rfl)
    | none => exact .bind (.ask fun s _ => .equal s left right) fun _ _ => .pure trivial
  · rw [if_neg hop]
    refine .bind (.ask fun s _ => .builtin s op left right) fun r hr => ?_
    cases r with
    | some v => exact .pure (hr v rfl)
    | none =>
        cases op.overloadable with
        | false => exact hrefusal
        | true =>
            refine .bind (hev.overloaded op hleft hright) fun r hr => ?_
            cases r with
            | some v => exact .pure (hr v rfl)
            | none => exact hrefusal

theorem unary (hev : ev.Under K) (op : UnOp) {operand : Value}
    (hoperand : operand.Only K.contents) :
    (ev.unary op operand).Under K (Value.Only K.contents) := by
  refine .bind (.ask fun s hs => .unaryOverload hs op operand) fun found hfound => ?_
  cases found with
  | some found =>
      have hargs : ∀ v ∈ ([] : List Value), v.Only K.contents :=
        fun _ hv => absurd hv List.not_mem_nil
      exact hev.invoke found.1 (hfound found rfl) hargs hoperand.some
  | none =>
      cases op with
      | not => exact .pure trivial
      | plus | neg | bitNot => exact .bind (.ofExcept (.toNumber operand)) fun _ _ => .pure trivial

/-! ## Class bodies -/

theorem initialValue (hev : ev.Under K) (name : String) (ty : Option Ty) {value : Option Expr}
    (hvalue : K.Spares scope fun name => Expr.optionAssigns name value) :
    (ev.initialValue scope name ty value).Under K fun r => r.2.Only K.contents := by
  cases ty with
  | none =>
      cases value with
      | none => exact .pure trivial
      | some e =>
          refine .bind (hev.eval hvalue) fun v hv => ?_
          exact .bind (.ask fun s _ => .typeOf s v) fun _ _ => .pure hv
  | some ty =>
      cases value with
      | none => exact .bind (.defaultValue scope ty) fun _ hv => .pure hv
      | some e =>
          exact .bind (hev.eval hvalue) fun v hv => .fitting v ty (fun _ => rfl) (.pure hv)

theorem addMember (hev : ev.Under K) {d : Draft} (hd : d.cls.Only K.contents) {m : MemberDecl}
    (hm : K.Spares scope fun name => memberBodyAssigns name m.body) :
    (ev.addMember scope d m).Under K fun d => d.cls.Only K.contents := by
  unfold Evaluator.addMember
  cases hbody : m.body with
  | field name readonly ty value =>
      rw [hbody] at hm
      refine .bind (hev.initialValue name ty hm) fun r hr => ?_
      exact .ofExcept (Draft.settled_insert hd m.isStatic name ⟨hr, nofun⟩)
  | property name ty getter setter value =>
      rw [hbody] at hm
      obtain ⟨haccessors, hvalue⟩ := hm.or
      obtain ⟨hgetter, hsetter⟩ := haccessors.or
      refine .bind (hev.initialValue name ty hvalue) fun r hr => .get_bind fun s _ => ?_
      refine .ofExcept (Draft.settled_insert hd m.isStatic name ⟨hr, fun a ha => ?_⟩)
      rcases List.mem_append.mp ha with ha | ha
      · exact hgetter.accessor s a (Option.mem_toList.mp ha)
      · exact hsetter.accessor s a (Option.mem_toList.mp ha)
  | method decl =>
      rw [hbody] at hm
      exact .ask fun s _ => Draft.settled_addMethod (hm.overload s) hd _ _ _
  | constructor decl =>
      rw [hbody] at hm
      exact .ask fun s _ => Draft.settled_addConstructor (hm.overload s) hd
  | binary op decl =>
      rw [hbody] at hm
      exact .ask fun s _ => Draft.settled_addBinary (hm.overload s) hd op _
  | unary op decl =>
      rw [hbody] at hm
      exact .ask fun s _ => Draft.settled_addUnary (hm.overload s) hd op _

theorem addMembers (hev : ev.Under K) {d : Draft} (hd : d.cls.Only K.contents)
    {ms : List MemberDecl} (hms : K.Spares scope fun name => memberAssigns name ms) :
    (ev.addMembers scope d ms).Under K fun d => d.cls.Only K.contents := by
  induction ms generalizing d with
  | nil => exact .pure hd
  | cons m ms ih =>
      obtain ⟨hm, hrest⟩ := hms.or
      exact .bind (hev.addMember hd hm) fun d hd => ih hd hrest

theorem defineClass (hev : ev.Under K) {decl : ClassDecl} (handle : Handle) {parent : Container}
    (hparent : parent.Only K.contents)
    (hmembers : K.Spares scope fun name => memberAssigns name decl.members)
    (hset : K.Sets scope.inner decl.name) :
    (ev.defineClass scope decl handle parent).Under K fun _ => True := by
  have hbegun := Draft.only_inherit decl.name handle hparent
  refine .bind (.asCodeOf _ (hev.addMembers hbegun hmembers)) fun d hd => ?_
  refine .bind (.alloc (Draft.only_finished hd)) fun cls _ => ?_
  have hcls : (Value.object cls).Only K.contents := trivial
  exact .rebind hset fun s _ => .newConstant s.frames _ decl.name .classType hcls

theorem declareClass (hev : ev.Under K) {decl : ClassDecl} (h : K.Admits scope (.classDecl decl)) :
    (ev.declareClass scope decl).Under K fun _ => True := by
  have hset : K.Sets scope.inner decl.name :=
    fun x hx hinner => of_decide_eq_false (h.binds x hx hinner)
  have hmembers : K.Spares scope fun name => memberAssigns name decl.members := by
    cases decl
    exact h.assigns
  refine .get_bind fun s _ => ?_
  cases (s.frames.local? scope.inner decl.name).isSome with
  | true => exact .fault fun _ => rfl
  | false =>
      refine .bind (.ask fun s _ => .parentOf s scope decl.name decl.bases none) fun found _ => ?_
      refine .bind (.container _) fun parent hparent => ?_
      refine .bind (Q := fun _ => True) ?_ fun _ _ => hev.defineClass _ hparent hmembers hset
      exact .change (c := .register decl.name parent.name) ⟨trivial, by simp⟩ (fun _ _ => trivial)
        fun _ => rfl

/-! ## Expressions -/

theorem evalAll (hev : ev.Under K) {es : List Expr}
    (hes : K.Spares scope fun name => Expr.anyAssigns name es) :
    (ev.evalAll scope es).Under K fun vs => ∀ v ∈ vs, v.Only K.contents := by
  induction es with
  | nil => exact .pure fun _ hv => absurd hv List.not_mem_nil
  | cons e es ih =>
      obtain ⟨he, hrest⟩ := hes.or
      refine .bind (hev.eval he) fun v hv => .bind (ih hrest) fun vs hvs => .pure fun w hw => ?_
      rcases List.mem_cons.mp hw with rfl | hw
      · exact hv
      · exact hvs w hw

theorem templateText (hev : ev.Under K) (text : String) {parts : List TemplatePart}
    (hparts : K.Spares scope fun name => TemplatePart.anyAssigns name parts) :
    (ev.templateText scope text parts).Under K fun _ => True := by
  induction parts generalizing text with
  | nil => exact .pure trivial
  | cons part parts ih =>
      cases part with
      | text more => exact ih (text ++ more) hparts
      | code e =>
          obtain ⟨he, hrest⟩ := hparts.or
          refine .bind (hev.eval he) fun v _ => ?_
          exact .bind (.ask fun s _ => .textOf s v) fun more _ => ih (text ++ more) hrest

/-- An assignment goes to a frame of its scope. -/
theorem assign {name : String} (hname : K.Spares scope fun x => decide (name = x)) {value : Value}
    (hvalue : value.Only K.contents) :
    (Evaluator.assign scope name value).Under K fun _ => True := by
  refine .bind (Q := fun owner => owner ∈ scope.frames) (.ask fun s _ => ?_) fun owner howner => ?_
  · split
    · next hfound => exact .ok _ (List.mem_of_find?_eq_some hfound)
    · exact .error _ fun _ => rfl
  · -- if the owner is the frame of a variable, the scope sees it
    have hset : K.Sets owner name := by
      rintro x hx rfl
      exact of_decide_eq_false (hname x hx howner)
    refine .rebind hset fun s _ => ?_
    refine (Custody.Settled.typeOf s value).bind fun valueTy _ => ?_
    refine (Custody.Settled.lineageOf s [value]).bind fun lineage _ => ?_
    exact .assigned s.frames lineage owner name valueTy hvalue

theorem callValue (hev : ev.Under K) {callee : Value} (hcallee : callee.Only K.contents)
    (receiver : Option Value) {args : List Value} (hargs : ∀ v ∈ args, v.Only K.contents) :
    (ev.callValue callee receiver args).Under K (Value.Only K.contents) := by
  have hrefused : (do fault (.notCallable (← ask (·.textOf callee))) :
      Exec Value).Under K (Value.Only K.contents) :=
    .bind (.ask fun s _ => .textOf s callee) fun _ _ => .fault fun _ => rfl
  cases callee with
  | function f =>
      refine .bind (Q := fun this => ∀ v ∈ this, v.Only K.contents) (.ask fun s _ => ?_)
        fun this hthis => hev.callFunction hcallee hargs hthis
      split
      · next handle =>
          refine (Custody.Settled.get s.heap handle).bind fun c _ => ?_
          have hobject : (Value.object handle).Only K.contents := trivial
          cases c.isClass with
          | true => exact .ok _ nofun
          | false => exact .ok _ hobject.some
      · exact .ok _ nofun
  | object handle =>
      refine .bind (.container handle) fun c _ => ?_
      cases c.isClass with
      | false => exact hrefused
      | true => exact hev.construct handle hargs
  | number _ | string _ | boolean _ | list _ | null => exact hrefused

theorem evalStep (hev : ev.Under K) {e : Expr} (h : K.Spares scope fun name => e.assigns name) :
    (ev.evalStep scope e).Under K (Value.Only K.contents) := by
  -- only the call of a member has a `this`
  have hcall : ∀ {callee : Expr} {args : List Expr},
      (K.Spares scope fun name => callee.assigns name) →
      (K.Spares scope fun name => Expr.anyAssigns name args) →
      (do ev.callValue (← ev.eval scope callee) none (← ev.evalAll scope args)).Under K
        (Value.Only K.contents) := by
    intro callee args hcallee hargs
    refine .bind (hev.eval hcallee) fun callee hcallee => ?_
    exact .bind (hev.evalAll hargs) fun args hargs => hev.callValue hcallee none hargs
  cases e with
  | number _ | string _ | boolean _ | null => exact .pure trivial
  | template parts => exact .bind (hev.templateText "" h) fun _ _ => .pure trivial
  | list items => exact .bind (hev.evalAll h) fun _ hvs => .newList hvs
  | var name =>
      rw [Evaluator.evalStep]
      refine .ask fun s hs => ?_
      split
      · next v hv => exact .ok v (hs.only.get? hv)
      · exact .error _ fun _ => rfl
  | binary op left right =>
      obtain ⟨hleft, hright⟩ := h.or
      refine .bind (hev.eval hleft) fun left hleft => ?_
      exact .bind (hev.eval hright) fun right hright => hev.binary op hleft hright
  | unary op operand =>
      exact .bind (hev.eval (e := operand) h) fun operand hoperand => hev.unary op hoperand
  | assign name value =>
      obtain ⟨hname, hvalue⟩ := h.or
      refine .bind (hev.eval hvalue) fun v hv => ?_
      exact .bind (assign hname hv) fun _ _ => .pure hv
  | call callee args =>
      obtain ⟨hcallee, hargs⟩ := h.or
      cases callee with
      | member object name =>
          refine .bind (hev.eval (e := object) hcallee) fun object hobject => ?_
          refine .bind (hev.memberGet hobject name) fun callee hcallee => ?_
          refine .bind (hev.evalAll hargs) fun args hargs => ?_
          exact hev.callValue hcallee (some object) hargs
      | number _ | string _ | boolean _ | null | template _ | list _ | var _ | binary _ _ _
      | unary _ _ | assign _ _ | call _ _ | index _ _ | indexSet _ _ _ | memberSet _ _ _ =>
          exact hcall hcallee hargs
  | index target position =>
      obtain ⟨htarget, hposition⟩ := h.or
      refine .bind (hev.eval htarget) fun target _ => ?_
      refine .bind (hev.eval hposition) fun position _ => ?_
      refine .bind (.ask fun s _ => .element s target position) fun found _ => ?_
      exact .get_bind fun s hs => .pure (hs.only.item found.1 found.2)
  | indexSet target position value =>
      obtain ⟨hplace, hvalue⟩ := h.or
      obtain ⟨htarget, hposition⟩ := hplace.or
      refine .bind (hev.eval htarget) fun target _ => ?_
      refine .bind (hev.eval hposition) fun position _ => ?_
      refine .bind (hev.eval hvalue) fun value hvalue => ?_
      refine .bind (.ask fun s _ => .element s target position) fun found _ => ?_
      exact .change (c := .setItem found.1 found.2 value) ⟨hvalue, by simp⟩ (fun _ _ => hvalue)
        fun _ => rfl
  | member object name =>
      exact .bind (hev.eval (e := object) h) fun object hobject => hev.memberGet hobject name
  | memberSet object name value =>
      obtain ⟨hobject, hvalue⟩ := h.or
      refine .bind (hev.eval hobject) fun object hobject => ?_
      exact .bind (hev.eval hvalue) fun value hvalue => hev.memberSet hobject name hvalue

/-! ## Declarations -/

theorem declareVar (hev : ev.Under K) {name : String} {ty : Option Ty} {value : Option Expr}
    (h : K.Admits scope (.var name ty value)) :
    (ev.declareVar scope name ty value).Under K fun _ => True := by
  have hset : K.Sets scope.inner name :=
    fun x hx hinner => of_decide_eq_false (h.binds x hx hinner)
  have hbind : ∀ (ty : Ty) {v : Value}, v.Only K.contents →
      (rebind scope.inner name fun s => s.frames.newVariable scope.inner name ty v).Under K
        fun _ => True :=
    fun ty _ hv => .rebind hset fun s _ => .newVariable s.frames _ name ty hv
  cases ty with
  | none =>
      cases value with
      | none => exact .fault fun _ => rfl
      | some e =>
          refine .bind (hev.eval (e := e) h.assigns) fun v hv => ?_
          exact .bind (.ask fun s _ => .typeOf s v) fun ty _ => hbind ty hv
  | some ty =>
      cases value with
      | none => exact .bind (.defaultValue scope ty) fun _ hv => hbind ty hv
      | some e =>
          refine .bind (hev.eval (e := e) h.assigns) fun v hv => ?_
          exact .fitting v ty (fun _ => rfl) (hbind ty hv)

theorem declareConst (hev : ev.Under K) {name : String} {value : Expr}
    (h : K.Admits scope (.const name value)) :
    (ev.declareConst scope name value).Under K fun _ => True := by
  have hset : K.Sets scope.inner name :=
    fun x hx hinner => of_decide_eq_false (h.binds x hx hinner)
  refine .bind (hev.eval (e := value) h.assigns) fun v hv => ?_
  refine .bind (.ask fun s _ => .typeOf s v) fun ty _ => ?_
  exact .rebind hset fun s _ => .newConstant s.frames _ name ty hv

/-- A function of the name gets one more overload, or a new function gets its first. -/
theorem declareFunction {decl : FunctionDecl} (h : K.Admits scope (.function decl)) :
    (Evaluator.declareFunction scope decl).Under K fun _ => True := by
  have hset : K.Sets scope.inner decl.name :=
    fun x hx hinner => of_decide_eq_false (h.binds x hx hinner)
  have hassigns : K.Spares scope fun name => functionAssigns name decl := h.assigns
  refine .rebind hset fun s hs => ?_
  have ho := hassigns.overload s
  dsimp only
  cases hlocal : s.frames.local? scope.inner decl.name with
  | none =>
      refine (Custody.Settled.add (K.contents.empty decl.name) ho).bind fun f hf => ?_
      exact .newVariable s.frames _ decl.name .function (v := .function f) hf
  | some b =>
      have hvalue := hs.only.local? hlocal
      obtain ⟨ty, value, immutable⟩ := b
      cases value with
      | function f =>
          refine (Custody.Settled.add hvalue ho).bind fun g hg => ?_
          exact .assigned s.frames _ _ decl.name .function (v := .function g) hg
      | number _ | string _ | boolean _ | list _ | object _ | null => exact .error _ fun _ => rfl

/-! ## Statements -/

theorem execAll (hev : ev.Under K) (hscope : K.Free scope.inner) {last : Option Value}
    (hlast : ∀ v ∈ last, v.Only K.contents) {stmts : List Stmt}
    (hstmts : K.Spares scope fun name => Stmt.anyAssigns name stmts) :
    (ev.execAll scope last stmts).Under K (Flow.Only K.contents) := by
  induction stmts generalizing last with
  | nil => exact .pure hlast
  | cons stmt stmts ih =>
      obtain ⟨hstmt, hrest⟩ := hstmts.or
      refine .bind (hev.exec (hscope.admits hstmt)) fun flow hflow => ?_
      cases flow with
      | normal value => exact ih hflow hrest
      | returned value => exact .pure hflow

theorem whileRounds (hev : ev.Under K) {condition : Expr} {body : Stmt}
    (hcondition : K.Spares scope fun name => condition.assigns name) (hbody : K.Admits scope body)
    (rounds : Nat) :
    (ev.whileRounds scope condition body rounds).Under K (Flow.Only K.contents) := by
  induction rounds with
  | zero => exact .outOfFuel
  | succ rounds ih =>
      refine .bind (hev.eval hcondition) fun v _ => ?_
      cases v.truthy with
      | false => exact .pure nofun
      | true =>
          refine .bind (hev.exec hbody) fun flow hflow => ?_
          cases flow with
          | normal value => exact ih
          | returned value => exact .pure hflow

theorem doRounds (hev : ev.Under K) {body : Stmt} {condition : Expr} (hbody : K.Admits scope body)
    (hcondition : K.Spares scope fun name => condition.assigns name) (rounds : Nat) :
    (ev.doRounds scope body condition rounds).Under K (Flow.Only K.contents) := by
  induction rounds with
  | zero => exact .outOfFuel
  | succ rounds ih =>
      refine .bind (hev.exec hbody) fun flow hflow => ?_
      cases flow with
      | returned value => exact .pure hflow
      | normal value =>
          refine .bind (hev.eval hcondition) fun v _ => ?_
          cases v.truthy with
          | false => exact .pure nofun
          | true => exact ih

theorem countRounds (hev : ev.Under K) (hscope : K.Free scope.inner) (counter : String)
    (count : Count) {body : Stmt} (hbody : K.Admits scope body) (rounds : Nat) :
    (ev.countRounds scope counter count body rounds).Under K (Flow.Only K.contents) := by
  have hcounter : (counterValue scope counter).Under K fun _ => True := .ask fun _ _ => .toNumber _
  induction rounds with
  | zero => exact .outOfFuel
  | succ rounds ih =>
      refine .bind hcounter fun current _ => ?_
      cases count.covers current with
      | false => exact .pure nofun
      | true =>
          refine .bind (hev.exec hbody) fun flow hflow => ?_
          cases flow with
          | returned value => exact .pure hflow
          | normal value =>
              refine .bind hcounter fun current _ => ?_
              refine .bind (.rebind (hscope.sets counter) fun s _ => ?_) fun _ _ => ih
              exact .assigned s.frames _ _ counter .number (v := .number _) trivial

theorem countLoop (hev : ev.Under K) (hscope : K.Free scope.inner) (counter : String)
    (start stop step : Float) {body : Stmt} (hbody : K.Admits scope body) :
    (ev.countLoop scope counter start stop step body).Under K (Flow.Only K.contents) := by
  unfold Evaluator.countLoop
  cases step == 0.0 || step.isNaN with
  | true => exact .fault fun _ => rfl
  | false =>
      refine .bind (.rebind (hscope.sets counter) fun s _ => ?_) fun _ _ =>
        hev.countRounds hscope counter _ hbody _
      exact .newVariable s.frames _ counter .number (v := .number start) trivial

theorem forLoop (hev : ev.Under K) {counter : String} {start stop : Expr} {step : Option Expr}
    {body : Stmt} (h : K.Spares scope fun name =>
      Stmt.assigns name (.forLoop counter start stop step body)) :
    (ev.forLoop scope counter start stop step body).Under K (Flow.Only K.contents) := by
  refine .bind (.newScope scope) fun inside hnew => ?_
  obtain ⟨hinside, hsees⟩ := hnew
  obtain ⟨hhead, hbody⟩ := (h.inside hsees).or
  obtain ⟨hbounds, hstep⟩ := hhead.or
  obtain ⟨hstart, hstop⟩ := hbounds.or
  refine .bind (hev.eval hstart) fun startValue _ => ?_
  refine .bind (.ofExcept (.toNumber startValue)) fun start _ => ?_
  refine .bind (hev.eval hstop) fun stopValue _ => ?_
  refine .bind (.ofExcept (.toNumber stopValue)) fun stop _ => ?_
  have hloop : ∀ step, (ev.countLoop inside counter start stop step body).Under K
      (Flow.Only K.contents) :=
    fun step => hev.countLoop hinside counter start stop step (hinside.admits hbody)
  cases step with
  | none => exact hloop 1.0
  | some step =>
      refine .bind (hev.eval (e := step) hstep) fun stepValue _ => ?_
      exact .bind (.ofExcept (.toNumber stepValue)) fun step _ => hloop step.abs

theorem execStep (hev : ev.Under K) {stmt : Stmt} (h : K.Admits scope stmt) :
    (ev.execStep scope stmt).Under K (Flow.Only K.contents) := by
  have hdone : ∀ {action : Exec Unit}, (action.Under K fun _ => True) →
      (do action; return Flow.normal none).Under K (Flow.Only K.contents) :=
    fun haction => .bind haction fun _ _ => .pure nofun
  cases stmt with
  | expr value => exact .bind (hev.eval (e := value) h.assigns) fun _ hv => .pure hv.some
  | var name ty value => exact hdone (hev.declareVar h)
  | const name value => exact hdone (hev.declareConst h)
  | function decl => exact hdone (declareFunction h)
  | classDecl decl => exact hdone (hev.declareClass h)
  | ifElse condition thenBranch elseBranch =>
      obtain ⟨hhead, helse⟩ := h.assigns.or
      obtain ⟨hcondition, hthen⟩ := hhead.or
      refine .bind (hev.eval hcondition) fun v _ => ?_
      cases v.truthy with
      | true =>
          refine hev.exec ⟨hthen, fun x hx hinner => ?_⟩
          cases elseBranch with
          | none => exact h.binds x hx hinner
          | some elseBranch => exact (Bool.or_eq_false_iff.mp (h.binds x hx hinner)).1
      | false =>
          cases elseBranch with
          | none => exact .pure nofun
          | some elseBranch =>
              refine hev.exec ⟨helse, fun x hx hinner => ?_⟩
              exact (Bool.or_eq_false_iff.mp (h.binds x hx hinner)).2
  | forLoop counter start stop step body => exact hev.forLoop h.assigns
  | whileLoop condition body =>
      obtain ⟨hcondition, hbody⟩ := h.assigns.or
      exact hev.whileRounds hcondition ⟨hbody, h.binds⟩ _
  | doWhile body condition =>
      obtain ⟨hbody, hcondition⟩ := h.assigns.or
      exact hev.doRounds ⟨hbody, h.binds⟩ hcondition _
  | ret value =>
      cases value with
      | none => exact .pure nofun
      | some value => exact .bind (hev.eval (e := value) h.assigns) fun _ hv => .pure hv.some
  | block body =>
      refine .bind (.newScope scope) fun inside hnew => ?_
      obtain ⟨hinside, hsees⟩ := hnew
      exact hev.execAll hinside Value.only_none (h.assigns.inside hsees)

end Evaluator.Under

/-! ## The knot -/

def Host.Under (K : Custody) (host : Host) : Prop :=
  ∀ call : Function → List Value → Exec Value,
    (∀ f args, K.contents.function f → (∀ v ∈ args, v.Only K.contents) →
      (call f args).Under K (Value.Only K.contents)) →
    ∀ name args, (∀ v ∈ args, v.Only K.contents) →
      (host call name args).Under K fun r => ∀ v ∈ r, v.Only K.contents

theorem Host.under_none : Host.none.Under K :=
  fun _ _ _ _ _ => .pure nofun

theorem under_evaluator {config : Config} (hhost : config.host.Under K) (fuel : Nat) :
    (evaluator config fuel).Under K := by
  induction fuel with
  | zero =>
      exact {
        eval := fun _ => .outOfFuel
        exec := fun _ => .outOfFuel
        host := fun name args hargs => hhost (evaluator config 0).call
          (fun _ _ _ _ => .outOfFuel) name args hargs }
  | succ fuel ih =>
      -- a call from the host, like a step, goes to the evaluator with less fuel
      exact {
        eval := fun h => ih.evalStep h
        exec := fun h => ih.execStep h
        host := fun name args hargs => hhost (evaluator config (fuel + 1)).call
          (fun f args hf hargs => ih.callFunction hf hargs nofun) name args hargs }

end ClassScript

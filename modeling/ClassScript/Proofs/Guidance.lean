import ClassScript.Proofs.Regime
import ClassScript.Run.Evaluator
import ClassScript.Run.Toolkit

/-!
# Evaluators under one regime

A regime guides two evaluators when the second follows the first in whatever they are given to run,
and when a call that the first may enter brings both to a depth that the regime knows. Everything
that is built from them is then followed too. There is one lemma for each rule of evaluation, and
the knot is tied at the end.
-/

namespace ClassScript

theorem Evaluator.checkDepth_eq (ev : Evaluator) (s : State) :
    ev.checkDepth s =
      if ev.maxDepth ≤ s.callDepth then .error (.fault (.depthExceeded ev.maxDepth)) s
      else .ok () s := by
  change (if ev.maxDepth ≤ s.callDepth then Exec.fault (.depthExceeded ev.maxDepth)
    else pure () : Exec Unit) s = _
  split <;> rfl

/-- What comes after the check of the depth is run only if more calls may run. -/
theorem Evaluator.checkDepth_bind_eq {α : Type} (ev : Evaluator) (x : Unit → Exec α) (s : State) :
    (ev.checkDepth >>= x) s =
      if ev.maxDepth ≤ s.callDepth then .error (.fault (.depthExceeded ev.maxDepth)) s
      else x () s := by
  change EStateM.bind ev.checkDepth x s = _
  rw [EStateM.bind, ev.checkDepth_eq]
  by_cases hfull : ev.maxDepth ≤ s.callDepth
  · simp only [if_pos hfull]
  · simp only [if_neg hfull]

@[simp]
theorem evaluator_maxDepth (config : Config) (fuel : Nat) :
    (evaluator config fuel).maxDepth = config.maxDepth := by
  cases fuel <;> rfl

@[simp]
theorem evaluator_host (config : Config) (fuel : Nat) :
    (evaluator config fuel).host = config.host := by
  cases fuel <;> rfl

@[simp]
theorem evaluator_rounds (config : Config) (fuel : Nat) :
    (evaluator config fuel).rounds = fuel - 1 := by
  cases fuel <;> rfl

namespace Regime

structure Guides (R : Regime) (ev ev' : Evaluator) : Prop where
  eval : ∀ scope e, R.Follows (ev.eval scope e) (ev'.eval scope e)
  exec : ∀ scope stmt, R.Follows (ev.exec scope stmt) (ev'.exec scope stmt)
  host : ∀ name args, R.Follows (ev.host ev.call name args) (ev'.host ev'.call name args)
  /-- Where the first may enter a call, the second may too. -/
  enter : ∀ depth, R.depth depth → depth < ev.maxDepth →
    depth < ev'.maxDepth ∧ R.depth (depth + 1)
  /-- Where the first may not, the second does not count or may not either. -/
  refuse : R.cut (.fault (.depthExceeded ev.maxDepth)) ∨ ev'.maxDepth = ev.maxDepth
  /-- The second may go round its loops more often, if the first is cut when it may not. -/
  rounds : ev'.rounds = ev.rounds ∨ ev.rounds ≤ ev'.rounds ∧ R.cut .outOfFuel

namespace Guides

open Exec Evaluator

variable {R : Regime} {ev ev' : Evaluator} {α : Type}

/-! ## Calls -/

theorem native (h : R.Guides ev ev') (args : List Value) (f : Native) :
    R.Follows (ev.native args f) (ev'.native args f) := by
  have hprinted : R.Follows (native.printed args) (native.printed args) := by
    unfold native.printed
    cases args with
    | nil => exact .pure ""
    | cons value args => exact .ask _
  cases f with
  | print => exact .bind hprinted fun text => .bind (.write text) fun _ => .pure none
  | println => exact .bind hprinted fun text => .bind (.write _) fun _ => .pure none
  | nothing => exact .pure none
  | host name => exact h.host name args

theorem bindParams (h : R.Guides ev ev') (function : String) (scope : Scope)
    (params : List Param) (args : List Value) :
    R.Follows (ev.bindParams function scope params args)
      (ev'.bindParams function scope params args) := by
  induction params generalizing args with
  | nil => exact .pure ()
  | cons p ps ih =>
      cases args with
      | cons value args => exact .bind (.define _ _ _) fun _ => ih args
      | nil =>
          rw [Evaluator.bindParams, Evaluator.bindParams]
          cases p.default with
          | none => exact .fault _
          | some default =>
              refine .bind (h.eval scope default) fun value => ?_
              refine .bind (.ask _) fun valueTy => ?_
              refine .bind (.ask _) fun fits => ?_
              cases fits with
              | false => exact .bind (.fault _) fun _ => .bind (.define _ _ _) fun _ => ih []
              | true => exact .bind (.define _ _ _) fun _ => ih []

theorem result (function : String) (o : Overload) (produced : Option Value) (scope : Scope) :
    R.Follows (Evaluator.result function o produced scope)
      (Evaluator.result function o produced scope) := by
  unfold Evaluator.result
  split
  · exact .pure _
  · exact .defaultValue scope _
  · refine .bind (.ask _) fun valueTy => .bind (.ask _) fun fits => ?_
    split
    · exact .pure _
    · exact .fault _

theorem bindThis (scope : Scope) (this : Value) :
    R.Follows (Evaluator.bindThis scope this) (Evaluator.bindThis scope this) :=
  .bind (.ask _) fun _ => .define _ _ _

theorem runBody (h : R.Guides ev ev') (function : String) (o : Overload) (args : List Value)
    (scope : Scope) (body : Stmt) :
    R.Follows (ev.runBody function o args scope body) (ev'.runBody function o args scope body) := by
  refine .bind (h.bindParams function scope o.params args) fun _ => ?_
  refine .bind (.asCodeOf o.owner (h.exec scope body)) fun flow => ?_
  cases flow with
  | returned value => exact .pure _
  | normal value => exact .pure _

theorem runOverload (h : R.Guides ev ev') (function : String) (o : Overload) (args : List Value)
    (this : Option Value) :
    R.Follows (ev.runOverload function o args this) (ev'.runOverload function o args this) := by
  unfold Evaluator.runOverload
  cases o.code with
  | native f =>
      refine .bind (h.native args f) fun produced => ?_
      exact .get_bind fun s => result function o produced s.globals
  | script body closure =>
      refine .bind (.newScope closure) fun scope => ?_
      have hbody := h.runBody function o args scope body
      cases this with
      | none => exact .bind hbody fun produced => result function o produced closure
      | some this =>
          refine .bind (bindThis scope this) fun _ => ?_
          exact .bind hbody fun produced => result function o produced closure

/-- An action that comes after the check of the depth. Where the first run passes the check, so does
the second, and one call deeper is a depth of the regime. -/
theorem checkDepth_bind (h : R.Guides ev ev') {x y : Unit → Exec α}
    (hxy : ∀ s : State, R.depth s.callDepth → R.depth (s.callDepth + 1) →
      R.Ends s (x () s) (y () s)) :
    R.Follows (ev.checkDepth >>= x) (ev'.checkDepth >>= y) := by
  intro s hs
  rw [ev.checkDepth_bind_eq, ev'.checkDepth_bind_eq]
  by_cases hfull : ev.maxDepth ≤ s.callDepth
  · rw [if_pos hfull]
    rcases h.refuse with hcut | hsame
    · exact .cut _ hcut s _
    · rw [hsame, if_pos hfull]
      exact .halt _ s (.refl s)
  · obtain ⟨hroom, hdeeper⟩ := h.enter _ hs (Nat.not_le.mp hfull)
    rw [if_neg hfull, if_neg (Nat.not_le.mpr hroom)]
    exact hxy s hs hdeeper

theorem invoke (h : R.Guides ev ev') (function : String) (o : Overload) (args : List Value)
    (this : Option Value) :
    R.Follows (ev.invoke function o args this) (ev'.invoke function o args this) := by
  refine h.checkDepth_bind fun s _ hdeeper => ?_
  rw [roomy_eq, roomy_eq]
  exact Follows.deeper (h.runOverload function o args this) hdeeper

theorem callFunction (h : R.Guides ev ev') (f : Function) (args : List Value)
    (this : Option Value) :
    R.Follows (ev.callFunction f args this) (ev'.callFunction f args this) :=
  .bind (.ask _) fun o => h.invoke f.name o args this

/-! ## Objects -/

theorem store (slot : MemberSlot) (name : String) (value : Value) :
    R.Follows (Evaluator.store slot name value) (Evaluator.store slot name value) := by
  refine .bind (.ask _) fun c => ?_
  split
  · exact .modify fun _ => ⟨rfl, rfl⟩
  · exact .fault _

/-- The depth is checked some steps before the body of an accessor runs. -/
theorem runAccessorBody (h : R.Guides ev ev') (code : AccessorCode) (scope : Scope)
    (field : Value) {s : State} (hdeeper : R.depth (s.callDepth + 1)) :
    R.Ends s (ev.runAccessorBody code scope field s) (ev'.runAccessorBody code scope field s) := by
  have hbody : R.Ends s (deeper (roomy (asCodeOf code.owner (ev.exec scope code.body))) s)
      (deeper (roomy (asCodeOf code.owner (ev'.exec scope code.body))) s) := by
    rw [roomy_eq, roomy_eq]
    exact Follows.deeper (.asCodeOf code.owner (h.exec scope code.body)) hdeeper
  refine hbody.bind fun flow t ht => ?_
  cases flow with
  | returned value => exact .ok _ t (.refl t)
  | normal value => exact .ok _ t (.refl t)

theorem runAccessor (h : R.Guides ev ev') (code : AccessorCode) (this : Value) (ty : Ty)
    (field : Value) (value : Option Value) :
    R.Follows (ev.runAccessor code this ty field value)
      (ev'.runAccessor code this ty field value) := by
  refine h.checkDepth_bind fun s hs hdeeper => ?_
  refine (Follows.newScope code.scope s hs).bind fun scope t ht => ?_
  have hbody : ∀ u : State, s.SameControl u → R.Ends u (ev.runAccessorBody code scope field u)
      (ev'.runAccessorBody code scope field u) := fun u hu =>
    h.runAccessorBody code scope field (hu.callDepth.symm ▸ hdeeper)
  refine (bindThis scope this t (ht.callDepth.symm ▸ hs)).bind fun _ u hu => ?_
  refine (Follows.define _ "field" _ u ((ht.trans hu).callDepth.symm ▸ hs)).bind fun _ w hw => ?_
  have hsw := (ht.trans hu).trans hw
  cases value with
  | none => exact hbody w hsw
  | some value =>
      refine (Follows.define _ "value" _ w (hsw.callDepth.symm ▸ hs)).bind fun _ x hx => ?_
      exact hbody x (hsw.trans hx)

theorem memberGet (h : R.Guides ev ev') (object : Value) (name : String) :
    R.Follows (ev.memberGet object name) (ev'.memberGet object name) := by
  refine .bind (.ask _) fun found => ?_
  obtain ⟨_, slot, m⟩ := found
  dsimp only
  cases m.form with
  | field readonly => exact .pure _
  | property getter setter =>
      cases getter with
      | none => exact .pure _
      | some getter =>
          refine .bind (h.runAccessor getter object m.ty m.value none) fun r => ?_
          exact .bind (store slot name r.2) fun _ => .pure _

theorem memberSet (h : R.Guides ev ev') (object : Value) (name : String) (value : Value) :
    R.Follows (ev.memberSet object name value) (ev'.memberSet object name value) := by
  refine .bind (.ask _) fun found => ?_
  obtain ⟨handle, slot, m⟩ := found
  refine .bind (.ask _) fun c => ?_
  dsimp only
  cases m.readonly with
  | true => exact .fault _
  | false =>
      refine .bind (.ask _) fun valueTy => ?_
      refine .bind (.ask _) fun fits => ?_
      cases fits with
      | false => exact .fault _
      | true =>
          cases m.form with
          | field readonly => exact .bind (store slot name value) fun _ => .pure _
          | property getter setter =>
              cases setter with
              | none => exact .fault _
              | some setter =>
                  refine .bind (h.runAccessor setter object m.ty m.value (some value)) fun r => ?_
                  exact .bind (store slot name r.2) fun _ => .pure _

theorem construct (h : R.Guides ev ev') (cls : Handle) (args : List Value) :
    R.Follows (ev.construct cls args) (ev'.construct cls args) := by
  refine .bind (.ask _) fun _ => ?_
  refine .bind (.ask _) fun c => ?_
  refine .bind (.ask _) fun o => ?_
  refine .bind (.refl fun _ => ⟨rfl, rfl⟩) fun handle => ?_
  exact .bind (h.invoke c.name o args _) fun _ => .pure _

/-! ## Operators -/

theorem overloaded (h : R.Guides ev ev') (op : BinOp) (left right : Value) :
    R.Follows (ev.overloaded op left right) (ev'.overloaded op left right) := by
  refine .bind (.ask _) fun found => ?_
  cases found with
  | none => exact .pure none
  | some entry => exact .map some (h.invoke entry.1 entry.2 [right] (some left))

theorem binary (h : R.Guides ev ev') (op : BinOp) (left right : Value) :
    R.Follows (ev.binary op left right) (ev'.binary op left right) := by
  have hnone : R.Follows
      (do fault (.noOperation op (← ask (·.typeOf left)) (← ask (·.typeOf right))) : Exec Value)
      (do fault (.noOperation op (← ask (·.typeOf left)) (← ask (·.typeOf right)))) :=
    .bind (.ask _) fun _ => .bind (.ask _) fun _ => .fault _
  unfold Evaluator.binary
  split
  · refine .bind (h.overloaded op left right) fun found => ?_
    cases found with
    | some value => exact .pure value
    | none => exact .bind (.ask _) fun _ => .pure _
  · refine .bind (.ask _) fun builtin => ?_
    cases builtin with
    | some value => exact .pure value
    | none =>
        cases op.overloadable with
        | false => exact hnone
        | true =>
            refine .bind (h.overloaded op left right) fun found => ?_
            cases found with
            | some value => exact .pure value
            | none => exact hnone

theorem unary (h : R.Guides ev ev') (op : UnOp) (operand : Value) :
    R.Follows (ev.unary op operand) (ev'.unary op operand) := by
  refine .bind (.ask _) fun found => ?_
  cases found with
  | some entry => exact h.invoke entry.1 entry.2 [] (some operand)
  | none =>
      cases op with
      | not => exact .pure _
      | plus | neg | bitNot => exact .bind (.ask _) fun _ => .pure _

/-! ## Class bodies -/

theorem initialValue (h : R.Guides ev ev') (scope : Scope) (name : String) (ty : Option Ty)
    (value : Option Expr) :
    R.Follows (ev.initialValue scope name ty value) (ev'.initialValue scope name ty value) := by
  cases ty with
  | none =>
      cases value with
      | none => exact .pure _
      | some e =>
          refine .bind (h.eval scope e) fun v => ?_
          exact .bind (.ask _) fun _ => .pure _
  | some ty =>
      cases value with
      | none => exact .bind (.defaultValue scope ty) fun _ => .pure _
      | some e =>
          refine .bind (h.eval scope e) fun v => ?_
          refine .bind (.ask _) fun valueTy => ?_
          refine .bind (.ask _) fun fits => ?_
          cases fits with
          | false => exact .fault _
          | true => exact .pure _

theorem addMember (h : R.Guides ev ev') (scope : Scope) (d : Draft) (m : MemberDecl) :
    R.Follows (ev.addMember scope d m) (ev'.addMember scope d m) := by
  unfold Evaluator.addMember
  cases m.body with
  | field name readonly ty value =>
      exact .bind (h.initialValue scope name ty value) fun _ => .ask _
  | property name ty getter setter value =>
      refine .bind (h.initialValue scope name ty value) fun r => ?_
      exact .get_bind fun _ => .ask _
  | method decl => exact .ask _
  | constructor decl => exact .ask _
  | binary op decl => exact .ask _
  | unary op decl => exact .ask _

theorem addMembers (h : R.Guides ev ev') (scope : Scope) (d : Draft) (ms : List MemberDecl) :
    R.Follows (ev.addMembers scope d ms) (ev'.addMembers scope d ms) := by
  induction ms generalizing d with
  | nil => exact .pure d
  | cons m ms ih => exact .bind (h.addMember scope d m) fun d => ih d

theorem defineClass (h : R.Guides ev ev') (scope : Scope) (decl : ClassDecl) (handle : Handle)
    (parent : Container) :
    R.Follows (ev.defineClass scope decl handle parent)
      (ev'.defineClass scope decl handle parent) := by
  refine .bind (.asCodeOf (some decl.name) (h.addMembers scope _ decl.members)) fun draft => ?_
  exact .bind (.alloc draft.finished) fun cls => .rebind _ _ _

theorem declareClass (h : R.Guides ev ev') (scope : Scope) (decl : ClassDecl) :
    R.Follows (ev.declareClass scope decl) (ev'.declareClass scope decl) := by
  refine .get_bind fun s => ?_
  cases (s.frames.local? scope.inner decl.name).isSome with
  | true => exact .fault _
  | false =>
      refine .bind (.ask _) fun found => ?_
      refine .bind (.ask _) fun parent => ?_
      refine .bind (.modify fun _ => ⟨rfl, rfl⟩) fun _ => ?_
      exact h.defineClass scope decl _ parent

/-! ## Expressions -/

theorem evalAll (h : R.Guides ev ev') (scope : Scope) (es : List Expr) :
    R.Follows (ev.evalAll scope es) (ev'.evalAll scope es) := by
  induction es with
  | nil => exact .pure []
  | cons e es ih =>
      refine .bind (h.eval scope e) fun v => ?_
      exact .bind ih fun _ => .pure _

theorem templateText (h : R.Guides ev ev') (scope : Scope) (text : String)
    (parts : List TemplatePart) :
    R.Follows (ev.templateText scope text parts) (ev'.templateText scope text parts) := by
  induction parts generalizing text with
  | nil => exact .pure text
  | cons part parts ih =>
      cases part with
      | text more => exact ih (text ++ more)
      | code e =>
          refine .bind (h.eval scope e) fun v => ?_
          exact .bind (.ask _) fun more => ih (text ++ more)

theorem callValue (h : R.Guides ev ev') (callee : Value) (receiver : Option Value)
    (args : List Value) :
    R.Follows (ev.callValue callee receiver args) (ev'.callValue callee receiver args) := by
  have hrefused : R.Follows (do fault (.notCallable (← ask (·.textOf callee))) : Exec Value)
      (do fault (.notCallable (← ask (·.textOf callee)))) :=
    .bind (.ask _) fun _ => .fault _
  cases callee with
  | function f => exact .bind (.ask _) fun this => h.callFunction f args this
  | object handle =>
      refine .bind (.ask _) fun c => ?_
      cases c.isClass with
      | false => exact hrefused
      | true => exact h.construct handle args
  | number _ | string _ | boolean _ | list _ | null => exact hrefused

theorem evalStep (h : R.Guides ev ev') (scope : Scope) (e : Expr) :
    R.Follows (ev.evalStep scope e) (ev'.evalStep scope e) := by
  -- only the call of a member has a `this`
  have hcall : ∀ (callee : Expr) (args : List Expr), R.Follows
      (do ev.callValue (← ev.eval scope callee) none (← ev.evalAll scope args))
      (do ev'.callValue (← ev'.eval scope callee) none (← ev'.evalAll scope args)) := by
    intro callee args
    refine .bind (h.eval scope callee) fun callee => ?_
    exact .bind (h.evalAll scope args) fun args => h.callValue callee none args
  cases e with
  | number _ | string _ | boolean _ | null => exact .pure _
  | template parts => exact .bind (h.templateText scope "" parts) fun _ => .pure _
  | list items => exact .bind (h.evalAll scope items) fun vs => .newList vs
  | var name => exact .ask _
  | binary op left right =>
      refine .bind (h.eval scope left) fun left => ?_
      exact .bind (h.eval scope right) fun right => h.binary op left right
  | unary op operand => exact .bind (h.eval scope operand) fun operand => h.unary op operand
  | assign name value =>
      refine .bind (h.eval scope value) fun v => ?_
      exact .bind (.bind (.ask _) fun owner => .rebind _ _ _) fun _ => .pure v
  | call callee args =>
      cases callee with
      | member object name =>
          refine .bind (h.eval scope object) fun object => ?_
          refine .bind (h.memberGet object name) fun callee => ?_
          exact .bind (h.evalAll scope args) fun args => h.callValue callee (some object) args
      | number _ | string _ | boolean _ | null | template _ | list _ | var _ | binary _ _ _
      | unary _ _ | assign _ _ | call _ _ | index _ _ | indexSet _ _ _ | memberSet _ _ _ =>
          exact hcall _ args
  | index target position =>
      refine .bind (h.eval scope target) fun target => ?_
      refine .bind (h.eval scope position) fun position => ?_
      exact .bind (.ask _) fun found => .get_bind fun _ => .pure _
  | indexSet target position value =>
      refine .bind (h.eval scope target) fun target => ?_
      refine .bind (h.eval scope position) fun position => ?_
      refine .bind (h.eval scope value) fun value => ?_
      refine .bind (.ask _) fun found => ?_
      exact .bind (.modify fun _ => ⟨rfl, rfl⟩) fun _ => .pure value
  | member object name => exact .bind (h.eval scope object) fun object => h.memberGet object name
  | memberSet object name value =>
      refine .bind (h.eval scope object) fun object => ?_
      exact .bind (h.eval scope value) fun value => h.memberSet object name value

/-! ## Statements -/

theorem declareVar (h : R.Guides ev ev') (scope : Scope) (name : String) (ty : Option Ty)
    (value : Option Expr) :
    R.Follows (ev.declareVar scope name ty value) (ev'.declareVar scope name ty value) := by
  cases ty with
  | none =>
      cases value with
      | none => exact .fault _
      | some e =>
          refine .bind (h.eval scope e) fun v => ?_
          exact .bind (.ask _) fun ty => .rebind _ _ _
  | some ty =>
      cases value with
      | none => exact .bind (.defaultValue scope ty) fun v => .rebind _ _ _
      | some e =>
          refine .bind (h.eval scope e) fun v => ?_
          refine .bind (.ask _) fun valueTy => ?_
          refine .bind (.ask _) fun fits => ?_
          cases fits with
          | false => exact .fault _
          | true => exact .rebind _ _ _

theorem declareConst (h : R.Guides ev ev') (scope : Scope) (name : String) (value : Expr) :
    R.Follows (ev.declareConst scope name value) (ev'.declareConst scope name value) := by
  refine .bind (h.eval scope value) fun v => ?_
  exact .bind (.ask _) fun ty => .rebind _ _ _

theorem execAll (h : R.Guides ev ev') (scope : Scope) (last : Option Value) (stmts : List Stmt) :
    R.Follows (ev.execAll scope last stmts) (ev'.execAll scope last stmts) := by
  induction stmts generalizing last with
  | nil => exact .pure _
  | cons stmt stmts ih =>
      refine .bind (h.exec scope stmt) fun flow => ?_
      cases flow with
      | normal value => exact ih value
      | returned value => exact .pure _

/-- The rounds of a loop, given that each body and each condition is followed. A loop that may go
round less often than the other one is cut when it has done so. -/
theorem rounds_induction (h : R.Guides ev ev') {loop loop' : Nat → Exec α}
    (hzero : loop 0 = throw .outOfFuel) (hzero' : loop' 0 = throw .outOfFuel)
    (hsucc : ∀ n n', R.Follows (loop n) (loop' n') → R.Follows (loop (n + 1)) (loop' (n' + 1))) :
    R.Follows (loop ev.rounds) (loop' ev'.rounds) := by
  have hsame : ∀ n, R.Follows (loop n) (loop' n) := by
    intro n
    induction n with
    | zero =>
        rw [hzero, hzero']
        exact .throw _
    | succ n ih => exact hsucc n n ih
  rcases h.rounds with heq | ⟨hle, hcut⟩
  · rw [heq]
    exact hsame _
  · have hfewer : ∀ n n', n ≤ n' → R.Follows (loop n) (loop' n') := by
      intro n
      induction n with
      | zero =>
          intro n' _
          rw [hzero]
          exact fun s _ => .cut _ hcut s _
      | succ n ih =>
          intro n' hn
          obtain ⟨n', rfl⟩ := Nat.exists_eq_add_of_lt hn
          exact hsucc n _ (ih _ (Nat.le_add_right n n'))
    exact hfewer _ _ hle

theorem whileLoop (h : R.Guides ev ev') (scope : Scope) (condition : Expr) (body : Stmt) :
    R.Follows (ev.whileRounds scope condition body ev.rounds)
      (ev'.whileRounds scope condition body ev'.rounds) := by
  refine h.rounds_induction rfl rfl fun n n' ih => ?_
  refine .bind (h.eval scope condition) fun v => ?_
  cases v.truthy with
  | false => exact .pure _
  | true =>
      refine .bind (h.exec scope body) fun flow => ?_
      cases flow with
      | normal value => exact ih
      | returned value => exact .pure _

theorem doWhile (h : R.Guides ev ev') (scope : Scope) (body : Stmt) (condition : Expr) :
    R.Follows (ev.doRounds scope body condition ev.rounds)
      (ev'.doRounds scope body condition ev'.rounds) := by
  refine h.rounds_induction rfl rfl fun n n' ih => ?_
  refine .bind (h.exec scope body) fun flow => ?_
  cases flow with
  | returned value => exact .pure _
  | normal value =>
      refine .bind (h.eval scope condition) fun v => ?_
      cases v.truthy with
      | false => exact .pure _
      | true => exact ih

theorem countRounds (h : R.Guides ev ev') (scope : Scope) (counter : String) (count : Count)
    (body : Stmt) :
    R.Follows (ev.countRounds scope counter count body ev.rounds)
      (ev'.countRounds scope counter count body ev'.rounds) := by
  refine h.rounds_induction rfl rfl fun n n' ih => ?_
  refine .bind (.ask _) fun current => ?_
  cases count.covers current with
  | false => exact .pure _
  | true =>
      refine .bind (h.exec scope body) fun flow => ?_
      cases flow with
      | returned value => exact .pure _
      | normal value =>
          refine .bind (.ask _) fun current => ?_
          exact .bind (.rebind _ _ _) fun _ => ih

theorem countLoop (h : R.Guides ev ev') (scope : Scope) (counter : String)
    (start stop step : Float) (body : Stmt) :
    R.Follows (ev.countLoop scope counter start stop step body)
      (ev'.countLoop scope counter start stop step body) := by
  unfold Evaluator.countLoop
  cases step == 0.0 || step.isNaN with
  | true => exact .fault _
  | false => exact .bind (.rebind _ _ _) fun _ => h.countRounds scope counter _ body

theorem forLoop (h : R.Guides ev ev') (scope : Scope) (counter : String) (start stop : Expr)
    (step : Option Expr) (body : Stmt) :
    R.Follows (ev.forLoop scope counter start stop step body)
      (ev'.forLoop scope counter start stop step body) := by
  refine .bind (.newScope scope) fun scope => ?_
  refine .bind (h.eval scope start) fun startValue => ?_
  refine .bind (.ask _) fun start => ?_
  refine .bind (h.eval scope stop) fun stopValue => ?_
  refine .bind (.ask _) fun stop => ?_
  cases step with
  | none => exact h.countLoop scope counter start stop 1.0 body
  | some step =>
      refine .bind (h.eval scope step) fun stepValue => ?_
      exact .bind (.ask _) fun step => h.countLoop scope counter start stop step.abs body

theorem execStep (h : R.Guides ev ev') (scope : Scope) (stmt : Stmt) :
    R.Follows (ev.execStep scope stmt) (ev'.execStep scope stmt) := by
  cases stmt with
  | expr value => exact .bind (h.eval scope value) fun _ => .pure _
  | var name ty value => exact .bind (h.declareVar scope name ty value) fun _ => .pure _
  | const name value => exact .bind (h.declareConst scope name value) fun _ => .pure _
  | function decl => exact .bind (.rebind _ _ _) fun _ => .pure _
  | classDecl decl => exact .bind (h.declareClass scope decl) fun _ => .pure _
  | ifElse condition thenBranch elseBranch =>
      refine .bind (h.eval scope condition) fun v => ?_
      cases v.truthy with
      | true => exact h.exec scope thenBranch
      | false =>
          cases elseBranch with
          | none => exact .pure _
          | some elseBranch => exact h.exec scope elseBranch
  | forLoop counter start stop step body => exact h.forLoop scope counter start stop step body
  | whileLoop condition body => exact h.whileLoop scope condition body
  | doWhile body condition => exact h.doWhile scope body condition
  | ret value =>
      cases value with
      | none => exact .pure _
      | some value => exact .bind (h.eval scope value) fun _ => .pure _
  | block body => exact .bind (.newScope scope) fun scope => h.execAll scope none body

theorem program (h : R.Guides ev ev') (statements : List Stmt) :
    R.Follows (ev.program statements) (ev'.program statements) := by
  refine .get_bind fun s => ?_
  refine .bind (h.execAll s.globals none statements) fun flow => ?_
  cases flow with
  | normal value => exact .pure value
  | returned value => exact .pure value

end Guides

/-! ## The knot -/

def Hosts (R : Regime) (host host' : Host) : Prop :=
  ∀ call call' : Function → List Value → Exec Value,
    (∀ f args, R.Follows (call f args) (call' f args)) →
    ∀ name args, R.Follows (host call name args) (host' call' name args)

/-- Two evaluators, if the regime allows for their settings and for what fuel they have. -/
theorem guides_evaluator {R : Regime} {config config' : Config}
    (hhost : R.Hosts config.host config'.host)
    (henter : ∀ depth, R.depth depth → depth < config.maxDepth →
      depth < config'.maxDepth ∧ R.depth (depth + 1))
    (hrefuse : R.cut (.fault (.depthExceeded config.maxDepth)) ∨
      config'.maxDepth = config.maxDepth) {fuel fuel' : Nat}
    (hfuel : fuel' = fuel ∨ fuel ≤ fuel' ∧ R.cut .outOfFuel) :
    R.Guides (evaluator config fuel) (evaluator config' fuel') := by
  -- what is left to show is what the evaluators run
  have hguides : ∀ {fuel fuel'}, (fuel' = fuel ∨ fuel ≤ fuel' ∧ R.cut .outOfFuel) →
      (∀ scope e, R.Follows ((evaluator config fuel).eval scope e)
        ((evaluator config' fuel').eval scope e)) →
      (∀ scope stmt, R.Follows ((evaluator config fuel).exec scope stmt)
        ((evaluator config' fuel').exec scope stmt)) →
      (∀ f args, R.Follows ((evaluator config fuel).call f args)
        ((evaluator config' fuel').call f args)) →
      R.Guides (evaluator config fuel) (evaluator config' fuel') := by
    intro fuel fuel' hfuel heval hexec hcall
    refine ⟨heval, hexec, ?_, ?_, ?_, ?_⟩
    · simpa using hhost _ _ hcall
    · simpa using henter
    · simpa using hrefuse
    · simp only [evaluator_rounds]
      exact hfuel.imp (congrArg (· - 1)) fun h => ⟨Nat.sub_le_sub_right h.1 1, h.2⟩
  induction fuel generalizing fuel' with
  | zero =>
      -- without fuel the first is cut, or the second has none either
      rcases hfuel with rfl | ⟨hle, hcut⟩
      · exact hguides (Or.inl rfl) (fun _ _ => .throw _) (fun _ _ => .throw _) fun _ _ => .throw _
      · exact hguides (Or.inr ⟨hle, hcut⟩) (fun _ _ s _ => .cut _ hcut s _)
          (fun _ _ s _ => .cut _ hcut s _) fun _ _ s _ => .cut _ hcut s _
  | succ fuel ih =>
      cases fuel' with
      | zero => simp at hfuel
      | succ fuel' =>
          have hev := ih (hfuel.imp Nat.succ.inj fun h => ⟨Nat.le_of_succ_le_succ h.1, h.2⟩)
          exact hguides hfuel hev.evalStep hev.execStep fun f args => hev.callFunction f args none

/-- The functions of the toolkit leave the control state alone and hand on what calls do. -/
theorem hosts_toolkit (R : Regime) : R.Hosts Host.toolkit Host.toolkit := by
  intro call call' hcall name args
  unfold Host.toolkit
  split
  · exact .pure _
  · exact .pure _
  · exact .pure _
  · exact .bind (.newList _) fun _ => .pure _
  · exact .fault _
  · exact .bind (.refl fun _ => ⟨rfl, rfl⟩) fun _ => .pure _
  · exact .get_bind fun _ => .pure _
  · exact .bind (.ask _) fun _ => .pure _
  · exact .bind (.modify fun _ => ⟨rfl, rfl⟩) fun _ => .pure _
  · exact .get_bind fun _ => .pure _
  · exact .map some (hcall _ _)
  · exact .pure _

end Regime

end ClassScript

import ClassScript.Proofs.CoupledClasses

/-!
# Coupled code

Expressions, statements and whole programs, one rule for each form. In the end an evaluator with any
fuel matches itself, if the host does nothing that tells alike states apart.
-/

namespace ClassScript

namespace Horizon

open Exec

variable {H : Horizon} {known : List (String × String)} {s s' : State} {ev ev' : Evaluator}

namespace Matches

/-! ## Expressions -/

theorem evalAll (hev : H.Matches ev ev') {scope : Scope} (es : List Expr) (hs : H.Alike s s')
    (hscope : scope.Within H s) :
    H.Coupled known (fun t vs => ∀ v ∈ vs, v.Within H t) s s' (ev.evalAll scope es s)
      (ev'.evalAll scope es s') := by
  induction es generalizing s s' with
  | nil => exact .pure nofun
  | cons e es ih =>
      refine .bind hs (hev.eval e hs hscope) fun t t' v ht hst hv => ?_
      refine .bind ht (ih ht (hscope.mono hst)) fun u u' vs _ htu hvs => ?_
      refine .pure fun w hw => ?_
      rcases List.mem_cons.mp hw with rfl | hw
      · exact hv.mono htu
      · exact hvs w hw

theorem templateText (hev : H.Matches ev ev') {scope : Scope} (text : String)
    (parts : List TemplatePart) (hs : H.Alike s s') (hscope : scope.Within H s) :
    H.Coupled known (fun _ _ => True) s s' (ev.templateText scope text parts s)
      (ev'.templateText scope text parts s') := by
  induction parts generalizing s s' text with
  | nil => exact .pure trivial
  | cons part parts ih =>
      cases part with
      | text more => exact ih (text ++ more) hs hscope
      | code e =>
          refine .bind hs (hev.eval e hs hscope) fun t t' v ht hst hv => ?_
          refine .ask_bind (ht.textOf hv) fun more _ => ?_
          exact ih (text ++ more) ht (hscope.mono hst)

theorem assign {scope : Scope} (name : String) {value : Value} (hs : H.Alike s s')
    (hvalue : value.Within H s) :
    H.Coupled known (fun _ _ => True) s s' (Evaluator.assign scope name value s)
      (Evaluator.assign scope name value s') := by
  refine .ask_bind (P := fun _ => True) ?_ fun owner _ => ?_
  · rw [hs.frames, hs.undefinedName]
    split
    · exact .ok _ trivial
    · exact .error _ (tolerates_of_ne nofun)
  · refine .rebind owner name hs ?_
    refine (hs.typeOf hvalue).bind fun valueTy _ => ?_
    refine (hs.lineageOf_one hvalue).bind fun lineage _ => ?_
    rw [hs.frames]
    exact agree_assigned _ lineage owner name valueTy hvalue

theorem callValue (hev : H.Matches ev ev') {callee : Value} {receiver : Option Value}
    {args : List Value} (hs : H.Alike s s') (hcallee : callee.Within H s)
    (hreceiver : ∀ v, receiver = some v → v.Within H s) (hargs : ∀ v ∈ args, v.Within H s) :
    H.Coupled known (fun t v => v.Within H t) s s' (ev.callValue callee receiver args s)
      (ev'.callValue callee receiver args s') := by
  have hrefused : H.Coupled known (fun t v => v.Within H t) s s'
      ((do fault (.notCallable (← ask (·.textOf callee))) : Exec Value) s)
      ((do fault (.notCallable (← ask (·.textOf callee))) : Exec Value) s') :=
    .ask_bind (hs.textOf hcallee) fun _ _ => .fault nofun
  cases callee with
  | function f =>
      refine .ask_bind (P := fun this => ∀ v, this = some v → v.Within H s) ?_ fun this hthis =>
        hev.callFunction hcallee hs hargs hthis
      split
      · next handle =>
          have hhandle := hreceiver _ rfl
          refine (hs.get hhandle).bind fun c _ => ?_
          refine .ok _ fun v hv => ?_
          split at hv
          · cases hv
          · cases hv
            exact hhandle
      · exact .ok none nofun
  | object handle =>
      refine .ask_bind (hs.get hcallee) fun c hc => ?_
      cases hclass : c.isClass with
      | false => exact hrefused
      | true =>
          refine hev.construct hs hcallee (fun c' hc' => ?_) hargs
          rw [hc.2] at hc'
          cases hc'
          exact hclass
  | number _ | string _ | boolean _ | list _ | null => exact hrefused

theorem evalStep (hev : H.Matches ev ev') {scope : Scope} (e : Expr) (hs : H.Alike s s')
    (hscope : scope.Within H s) :
    H.Coupled known (fun t v => v.Within H t) s s' (ev.evalStep scope e s)
      (ev'.evalStep scope e s') := by
  -- only the call of a member has a `this`
  have hcall : ∀ (callee : Expr) (args : List Expr),
      H.Coupled known (fun t v => v.Within H t) s s'
        ((do ev.callValue (← ev.eval scope callee) none (← ev.evalAll scope args)) s)
        ((do ev'.callValue (← ev'.eval scope callee) none (← ev'.evalAll scope args)) s') := by
    intro callee args
    refine .bind hs (hev.eval callee hs hscope) fun t t' callee ht hst hcallee => ?_
    refine .bind ht (hev.evalAll args ht (hscope.mono hst)) fun u u' args hu htu hargs => ?_
    exact hev.callValue hu (hcallee.mono htu) nofun hargs
  cases e with
  | number _ | string _ | boolean _ | null => exact .pure trivial
  | template parts =>
      exact .bind hs (hev.templateText "" parts hs hscope) fun _ _ _ _ _ _ => .pure trivial
  | list items =>
      refine .bind hs (hev.evalAll items hs hscope) fun t t' vs ht _ hvs => ?_
      exact .newList ht hvs
  | var name =>
      rw [Evaluator.evalStep, Evaluator.evalStep]
      refine .ask ?_
      rw [hs.frames, hs.undefinedName]
      split
      · next v hv => exact .ok v (hs.closed.lookup hscope hv)
      · exact .error _ (tolerates_of_ne nofun)
  | binary op left right =>
      refine .bind hs (hev.eval left hs hscope) fun t t' left ht hst hleft => ?_
      refine .bind ht (hev.eval right ht (hscope.mono hst)) fun u u' right hu htu hright => ?_
      exact hev.binary op hu (hleft.mono htu) hright
  | unary op operand =>
      refine .bind hs (hev.eval operand hs hscope) fun t t' operand ht _ hoperand => ?_
      exact hev.unary op ht hoperand
  | assign name value =>
      refine .bind hs (hev.eval value hs hscope) fun t t' v ht _ hv => ?_
      exact .bind ht (assign name ht hv) fun _ _ _ _ htu _ => .pure (hv.mono htu)
  | call callee args =>
      cases callee with
      | member object name =>
          refine .bind hs (hev.eval object hs hscope) fun t t' object ht hst hobject => ?_
          refine .bind ht (hev.memberGet name ht hobject) fun u u' callee hu htu hcallee => ?_
          refine .bind hu (hev.evalAll args hu (hscope.mono (hst.trans htu)))
            fun w w' args hw huw hargs => ?_
          exact hev.callValue hw (hcallee.mono huw)
            (fun v hv => Option.some.inj hv ▸ hobject.mono (htu.trans huw)) hargs
      | number _ | string _ | boolean _ | null | template _ | list _ | var _ | binary _ _ _
      | unary _ _ | assign _ _ | call _ _ | index _ _ | indexSet _ _ _ | memberSet _ _ _ =>
          exact hcall _ args
  | index target position =>
      refine .bind hs (hev.eval target hs hscope) fun t t' target ht hst htarget => ?_
      refine .bind ht (hev.eval position ht (hscope.mono hst)) fun u u' position hu htu _ => ?_
      refine .ask_bind (hu.element (htarget.mono htu)) fun found hfound => ?_
      refine .get_bind ?_
      rw [hu.lists]
      refine .pure ?_
      cases hitem : (u.lists.elements found.1)[found.2]? with
      | none => trivial
      | some v => exact hu.closed.list found.1 hfound v (Array.mem_of_getElem? hitem)
  | indexSet target position value =>
      refine .bind hs (hev.eval target hs hscope) fun t t' target ht hst htarget => ?_
      refine .bind ht (hev.eval position ht (hscope.mono hst)) fun u u' position hu htu _ => ?_
      refine .bind hu (hev.eval value hu (hscope.mono (hst.trans htu)))
        fun w w' value hw huw hvalue => ?_
      refine .ask_bind (hw.element (htarget.mono (htu.trans huw))) fun found hfound => ?_
      have hkeeps : H.Keeps w (w.apply (.setItem found.1 found.2 value)) := fun _ =>
        w.keeps_apply trivial
      exact .change (.setItem found.1 found.2 value) hvalue rfl (hvalue.mono hkeeps)
  | member object name =>
      refine .bind hs (hev.eval object hs hscope) fun t t' object ht _ hobject => ?_
      exact hev.memberGet name ht hobject
  | memberSet object name value =>
      refine .bind hs (hev.eval object hs hscope) fun t t' object ht hst hobject => ?_
      refine .bind ht (hev.eval value ht (hscope.mono hst)) fun u u' value hu htu hvalue => ?_
      exact hev.memberSet name hu (hobject.mono htu) hvalue

/-! ## Statements -/

theorem execAll (hev : H.Matches ev ev') {scope : Scope} {last : Option Value} (stmts : List Stmt)
    (hs : H.Alike s s') (hscope : scope.Within H s) (hlast : ∀ v, last = some v → v.Within H s) :
    H.Coupled known (fun t flow => flow.Within H t) s s' (ev.execAll scope last stmts s)
      (ev'.execAll scope last stmts s') := by
  induction stmts generalizing s s' last with
  | nil => exact .pure hlast
  | cons stmt stmts ih =>
      refine .bind hs (hev.exec stmt hs hscope) fun t t' flow ht hst hflow => ?_
      cases flow with
      | normal value => exact ih ht (hscope.mono hst) hflow
      | returned value => exact .pure hflow

theorem declareVar (hev : H.Matches ev ev') {scope : Scope} (name : String) (ty : Option Ty)
    (value : Option Expr) (hs : H.Alike s s') (hscope : scope.Within H s) :
    H.Coupled known (fun _ _ => True) s s' (ev.declareVar scope name ty value s)
      (ev'.declareVar scope name ty value s') := by
  have hbind : ∀ t t' (ty : Ty) (v : Value), H.Alike t t' → v.Within H t →
      H.Coupled known (fun _ _ => True) t t'
        (rebind scope.inner name (fun s => s.frames.newVariable scope.inner name ty v) t)
        (rebind scope.inner name (fun s => s.frames.newVariable scope.inner name ty v) t') := by
    intro t t' ty v ht hv
    refine .rebind _ _ ht ?_
    rw [ht.frames]
    exact agree_newVariable _ _ _ _ hv
  cases ty with
  | none =>
      cases value with
      | none => exact .fault nofun
      | some e =>
          refine .bind hs (hev.eval e hs hscope) fun t t' v ht _ hv => ?_
          exact .ask_bind (ht.typeOf hv) fun ty _ => hbind t t' ty v ht hv
  | some ty =>
      cases value with
      | none => exact .bind hs (.defaultValue ty hs) fun t t' v ht _ hv => hbind t t' ty v ht hv
      | some e =>
          refine .bind hs (hev.eval e hs hscope) fun t t' v ht _ hv => ?_
          refine .ask_bind (ht.typeOf hv) fun valueTy _ => ?_
          refine .ask_bind (ht.fits hv valueTy ty) fun fits _ => ?_
          cases fits with
          | false => exact .fault nofun
          | true => exact hbind t t' ty v ht hv

theorem declareConst (hev : H.Matches ev ev') {scope : Scope} (name : String) (value : Expr)
    (hs : H.Alike s s') (hscope : scope.Within H s) :
    H.Coupled known (fun _ _ => True) s s' (ev.declareConst scope name value s)
      (ev'.declareConst scope name value s') := by
  refine .bind hs (hev.eval value hs hscope) fun t t' v ht _ hv => ?_
  refine .ask_bind (ht.typeOf hv) fun ty _ => ?_
  refine .rebind _ _ ht ?_
  rw [ht.frames]
  exact agree_newConstant _ _ _ _ hv

theorem declareFunction {scope : Scope} (decl : FunctionDecl) (hs : H.Alike s s')
    (hscope : scope.Within H s) :
    H.Coupled known (fun _ _ => True) s s' (Evaluator.declareFunction scope decl s)
      (Evaluator.declareFunction scope decl s') := by
  refine .rebind _ _ hs ?_
  rw [hs.frames, hs.registry, hs.overload]
  have ho : (s.overload scope decl).code.Within H s := hscope
  dsimp only
  split
  · refine (agree_add (Function.Within.empty decl.name) ho).bind fun f hf => ?_
    exact agree_newVariable _ _ _ _ hf
  · next f _ hlocal =>
      have hf : f.Within H s := hs.closed.local? hscope.inner hlocal
      refine (agree_add hf ho).bind fun f hf => ?_
      exact agree_assigned _ _ _ _ _ hf
  · exact .error _ (tolerates_of_ne nofun)

theorem whileRounds (hev : H.Matches ev ev') {scope : Scope} (condition : Expr) (body : Stmt)
    (rounds : Nat) (hs : H.Alike s s') (hscope : scope.Within H s) :
    H.Coupled known (fun t flow => flow.Within H t) s s'
      (ev.whileRounds scope condition body rounds s)
      (ev'.whileRounds scope condition body rounds s') := by
  induction rounds generalizing s s' with
  | zero => exact .outOfFuel
  | succ rounds ih =>
      refine .bind hs (hev.eval condition hs hscope) fun t t' v ht hst _ => ?_
      cases v.truthy with
      | false => exact .pure nofun
      | true =>
          refine .bind ht (hev.exec body ht (hscope.mono hst)) fun u u' flow hu htu hflow => ?_
          cases flow with
          | normal value => exact ih hu (hscope.mono (hst.trans htu))
          | returned value => exact .pure hflow

theorem doRounds (hev : H.Matches ev ev') {scope : Scope} (body : Stmt) (condition : Expr)
    (rounds : Nat) (hs : H.Alike s s') (hscope : scope.Within H s) :
    H.Coupled known (fun t flow => flow.Within H t) s s'
      (ev.doRounds scope body condition rounds s)
      (ev'.doRounds scope body condition rounds s') := by
  induction rounds generalizing s s' with
  | zero => exact .outOfFuel
  | succ rounds ih =>
      refine .bind hs (hev.exec body hs hscope) fun t t' flow ht hst hflow => ?_
      cases flow with
      | returned value => exact .pure hflow
      | normal value =>
          refine .bind ht (hev.eval condition ht (hscope.mono hst)) fun u u' v hu htu _ => ?_
          cases v.truthy with
          | false => exact .pure nofun
          | true => exact ih hu (hscope.mono (hst.trans htu))

theorem counterValue {scope : Scope} (counter : String) (hs : H.Alike s s') :
    H.Coupled known (fun _ _ => True) s s' (Evaluator.counterValue scope counter s)
      (Evaluator.counterValue scope counter s') := by
  unfold Evaluator.counterValue
  refine .ask ?_
  rw [hs.frames]
  exact agree_toNumber _

theorem countRounds (hev : H.Matches ev ev') {scope : Scope} (counter : String)
    (count : Evaluator.Count) (body : Stmt) (rounds : Nat) (hs : H.Alike s s')
    (hscope : scope.Within H s) :
    H.Coupled known (fun t flow => flow.Within H t) s s'
      (ev.countRounds scope counter count body rounds s)
      (ev'.countRounds scope counter count body rounds s') := by
  induction rounds generalizing s s' with
  | zero => exact .outOfFuel
  | succ rounds ih =>
      refine .bind hs (counterValue counter hs) fun t t' current ht hst _ => ?_
      cases count.covers current with
      | false => exact .pure nofun
      | true =>
          refine .bind ht (hev.exec body ht (hscope.mono hst)) fun u u' flow hu htu hflow => ?_
          cases flow with
          | returned value => exact .pure hflow
          | normal value =>
              refine .bind hu (counterValue counter hu) fun w w' current hw huw _ => ?_
              refine .bind hw (.rebind _ _ hw ?_) fun x x' _ hx hwx _ =>
                ih hx (hscope.mono (((hst.trans htu).trans huw).trans hwx))
              rw [hw.frames, hw.registry]
              exact agree_assigned _ _ _ _ _ trivial

theorem countLoop (hev : H.Matches ev ev') {scope : Scope} (counter : String)
    (start stop step : Float) (body : Stmt) (hs : H.Alike s s') (hscope : scope.Within H s) :
    H.Coupled known (fun t flow => flow.Within H t) s s'
      (ev.countLoop scope counter start stop step body s)
      (ev'.countLoop scope counter start stop step body s') := by
  unfold Evaluator.countLoop
  rw [hev.rounds]
  cases step == 0.0 || step.isNaN with
  | true => exact .fault nofun
  | false =>
      refine .bind hs (.rebind _ _ hs ?_) fun t t' _ ht hst _ =>
        hev.countRounds counter _ body _ ht (hscope.mono hst)
      rw [hs.frames]
      exact agree_newVariable _ _ _ _ trivial

theorem forLoop (hev : H.Matches ev ev') {scope : Scope} (counter : String) (start stop : Expr)
    (step : Option Expr) (body : Stmt) (hs : H.Alike s s') (hscope : scope.Within H s) :
    H.Coupled known (fun t flow => flow.Within H t) s s'
      (ev.forLoop scope counter start stop step body s)
      (ev'.forLoop scope counter start stop step body s') := by
  refine .bind hs (.newScope hs hscope) fun t t' scope ht _ hscope => ?_
  refine .bind ht (hev.eval start ht hscope) fun u u' startValue hu htu _ => ?_
  refine .ask_bind (agree_toNumber startValue) fun start _ => ?_
  replace hscope := hscope.mono htu
  refine .bind hu (hev.eval stop hu hscope) fun w w' stopValue hw huw _ => ?_
  refine .ask_bind (agree_toNumber stopValue) fun stop _ => ?_
  replace hscope := hscope.mono huw
  cases step with
  | none => exact hev.countLoop counter start stop 1.0 body hw hscope
  | some step =>
      refine .bind hw (hev.eval step hw hscope) fun x x' stepValue hx hwx _ => ?_
      refine .ask_bind (agree_toNumber stepValue) fun step _ => ?_
      exact hev.countLoop counter start stop step.abs body hx (hscope.mono hwx)

theorem execStep (hev : H.Matches ev ev') {scope : Scope} (stmt : Stmt) (hs : H.Alike s s')
    (hscope : scope.Within H s) :
    H.Coupled known (fun t flow => flow.Within H t) s s' (ev.execStep scope stmt s)
      (ev'.execStep scope stmt s') := by
  cases stmt with
  | expr value =>
      refine .bind hs (hev.eval value hs hscope) fun _ _ v _ _ hv => ?_
      exact .pure fun w hw => Option.some.inj hw ▸ hv
  | var name ty value =>
      exact .bind hs (hev.declareVar name ty value hs hscope) fun _ _ _ _ _ _ => .pure nofun
  | const name value =>
      exact .bind hs (hev.declareConst name value hs hscope) fun _ _ _ _ _ _ => .pure nofun
  | function decl =>
      exact .bind hs (declareFunction decl hs hscope) fun _ _ _ _ _ _ => .pure nofun
  | classDecl decl =>
      exact .bind hs (hev.declareClass decl hs hscope) fun _ _ _ _ _ _ => .pure nofun
  | ifElse condition thenBranch elseBranch =>
      refine .bind hs (hev.eval condition hs hscope) fun t t' v ht hst _ => ?_
      cases v.truthy with
      | true => exact hev.exec thenBranch ht (hscope.mono hst)
      | false =>
          cases elseBranch with
          | none => exact .pure nofun
          | some elseBranch => exact hev.exec elseBranch ht (hscope.mono hst)
  | forLoop counter start stop step body => exact hev.forLoop counter start stop step body hs hscope
  | whileLoop condition body =>
      rw [Evaluator.execStep, Evaluator.execStep, hev.rounds]
      exact hev.whileRounds condition body _ hs hscope
  | doWhile body condition =>
      rw [Evaluator.execStep, Evaluator.execStep, hev.rounds]
      exact hev.doRounds body condition _ hs hscope
  | ret value =>
      cases value with
      | none => exact .pure nofun
      | some value =>
          refine .bind hs (hev.eval value hs hscope) fun _ _ v _ _ hv => ?_
          exact .pure fun w hw => Option.some.inj hw ▸ hv
  | block body =>
      refine .bind hs (.newScope hs hscope) fun t t' scope ht _ hscope => ?_
      exact hev.execAll body ht hscope nofun

theorem program (hev : H.Matches ev ev') (statements : List Stmt) (hs : H.Alike s s') :
    H.Coupled known (fun t r => ∀ v, r = some v → v.Within H t) s s' (ev.program statements s)
      (ev'.program statements s') := by
  refine .get_bind ?_
  rw [hs.globals]
  refine .bind hs (hev.execAll statements hs hs.closed.globals nofun) fun t t' flow _ _ hflow => ?_
  cases flow with
  | normal value | returned value => exact .pure hflow

end Matches

/-! ## The knot -/

def Hosts (H : Horizon) (host host' : Host) : Prop :=
  ∀ call call' : Function → List Value → Exec Value,
    (∀ {known s s' f args}, H.Alike s s' → f.Within H s → (∀ v ∈ args, v.Within H s) →
      H.Coupled known (fun t v => v.Within H t) s s' (call f args s) (call' f args s')) →
    ∀ {known s s' args} (name : String), H.native (.host name) → H.Alike s s' →
      (∀ v ∈ args, v.Within H s) →
      H.Coupled known (fun t r => ∀ v, r = some v → v.Within H t) s s' (host call name args s)
        (host' call' name args s')

/-- Evaluators with the same fuel match. -/
theorem matches_evaluator {config config' : Config} (hhost : H.Hosts config.host config'.host)
    (hnothing : H.native .nothing)
    (hdepth : config'.maxDepth = config.maxDepth ∨ config.maxDepth ≤ config'.maxDepth ∧
      H.cut (.fault (.depthExceeded config.maxDepth))) (fuel : Nat) :
    H.Matches (evaluator config fuel) (evaluator config' fuel) := by
  induction fuel with
  | zero =>
      exact {
        eval := fun _ _ _ => .outOfFuel
        exec := fun _ _ _ => .outOfFuel
        host := hhost _ _ fun _ _ _ => .outOfFuel
        nothing := hnothing
        maxDepth := hdepth
        rounds := rfl }
  | succ fuel ih =>
      -- a call from the host, like a step, goes to the evaluator with less fuel
      exact {
        eval := fun e hs hscope => ih.evalStep e hs hscope
        exec := fun stmt hs hscope => ih.execStep stmt hs hscope
        host := hhost (evaluator config (fuel + 1)).call (evaluator config' (fuel + 1)).call
          fun hs hf hargs => ih.callFunction hf hs hargs nofun
        nothing := hnothing
        maxDepth := hdepth
        rounds := rfl }

end Horizon

end ClassScript

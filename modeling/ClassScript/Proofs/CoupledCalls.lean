import ClassScript.Proofs.Coupling

/-!
# Coupled calls

Two evaluators match when they run the same code in a coupled way from alike states. Matching
evaluators then couple everything that is built from them; this module goes through calls, member
access, construction and operators.
-/

namespace ClassScript

def Flow.Within (H : Horizon) (s : State) : Flow → Prop
  | .normal value | .returned value => ∀ v, value = some v → v.Within H s

namespace Horizon

structure Matches (H : Horizon) (ev ev' : Evaluator) : Prop where
  eval : ∀ {known s s'} {scope : Scope} (e : Expr), H.Alike s s' → scope.Within H s →
    H.Coupled known (fun t v => v.Within H t) s s' (ev.eval scope e s) (ev'.eval scope e s')
  exec : ∀ {known s s'} {scope : Scope} (stmt : Stmt), H.Alike s s' → scope.Within H s →
    H.Coupled known (fun t flow => flow.Within H t) s s' (ev.exec scope stmt s)
      (ev'.exec scope stmt s')
  host : ∀ {known s s'} {args : List Value} (name : String), H.native (.host name) → H.Alike s s' →
    (∀ v ∈ args, v.Within H s) →
    H.Coupled known (fun t r => ∀ v, r = some v → v.Within H t) s s'
      (ev.host ev.call name args s) (ev'.host ev'.call name args s')
  /-- Code may hold the constructor of a class that declares none. -/
  nothing : H.native .nothing
  /-- One of them may allow fewer calls, if it is cut when it runs out of them. -/
  maxDepth : ev'.maxDepth = ev.maxDepth ∨
    ev.maxDepth ≤ ev'.maxDepth ∧ H.cut (.fault (.depthExceeded ev.maxDepth))
  rounds : ev'.rounds = ev.rounds

theorem steady_value {H : Horizon} : Steady fun t (v : Value) => v.Within H t := by
  intro t depth context v hv
  exact hv.mono fun _ => t.control_keeps depth context

theorem steady_flow {H : Horizon} : Steady fun t flow => Flow.Within H t flow := by
  intro t depth context flow h
  cases flow with
  | normal value | returned value =>
      exact fun v hv => (h v hv).mono fun _ => t.control_keeps depth context

namespace Matches

open Exec

variable {H : Horizon} {known : List (String × String)} {s s' : State} {ev ev' : Evaluator}

/-! ## Calls -/

theorem printed {args : List Value} (hs : H.Alike s s') (hargs : ∀ v ∈ args, v.Within H s) :
    H.Coupled known (fun _ _ => True) s s' (Evaluator.native.printed args s)
      (Evaluator.native.printed args s') := by
  unfold Evaluator.native.printed
  cases args with
  | nil => exact .pure trivial
  | cons v args => exact .ask (hs.textOf (hargs v List.mem_cons_self))

theorem native (hev : H.Matches ev ev') {f : Native} (hf : H.native f) {args : List Value}
    (hs : H.Alike s s') (hargs : ∀ v ∈ args, v.Within H s) :
    H.Coupled known (fun t r => ∀ v, r = some v → v.Within H t) s s' (ev.native args f s)
      (ev'.native args f s') := by
  cases f with
  | print =>
      refine .bind hs (printed hs hargs) fun t t' text ht _ _ => ?_
      exact .bind ht (.write text ht) fun _ _ _ _ _ _ => .pure nofun
  | println =>
      refine .bind hs (printed hs hargs) fun t t' text ht _ _ => ?_
      exact .bind ht (.write _ ht) fun _ _ _ _ _ _ => .pure nofun
  | nothing => exact .pure nofun
  | host name => exact hev.host name hf hs hargs

theorem bindParams (hev : H.Matches ev ev') (function : String) {scope : Scope}
    (params : List Param) {args : List Value} (hs : H.Alike s s') (hscope : scope.Within H s)
    (hargs : ∀ v ∈ args, v.Within H s) :
    H.Coupled known (fun _ _ => True) s s' (ev.bindParams function scope params args s)
      (ev'.bindParams function scope params args s') := by
  induction params generalizing s s' args with
  | nil => exact .pure trivial
  | cons p ps ih =>
      cases args with
      | cons value args =>
          refine .bind hs (.define _ _ (hargs value List.mem_cons_self)) fun t t' _ ht hst _ => ?_
          exact ih ht (hscope.mono hst) fun v hv => (hargs v (List.mem_cons_of_mem _ hv)).mono hst
      | nil =>
          rw [Evaluator.bindParams, Evaluator.bindParams]
          cases p.default with
          | none => exact .fault nofun
          | some default =>
              refine .bind hs (hev.eval default hs hscope) fun t t' value ht hst hvalue => ?_
              refine .ask_bind (ht.typeOf hvalue) fun valueTy _ => ?_
              refine .ask_bind (ht.fits hvalue valueTy p.ty) fun fits _ => ?_
              cases fits with
              | false => exact .fault nofun
              | true =>
                  refine .bind ht (.define _ _ hvalue) fun u u' _ hu htu _ => ?_
                  exact ih hu (hscope.mono (hst.trans htu)) nofun

theorem result (function : String) (o : Overload) {produced : Option Value} {scope : Scope}
    (hs : H.Alike s s') (hproduced : ∀ v, produced = some v → v.Within H s) :
    H.Coupled known (fun t v => v.Within H t) s s'
      (Evaluator.result function o produced scope s)
      (Evaluator.result function o produced scope s') := by
  unfold Evaluator.result
  cases o.returnType with
  | none =>
      cases produced with
      | none => exact .pure trivial
      | some v => exact .pure (hproduced v rfl)
  | some ty =>
      cases produced with
      | none => exact .defaultValue ty hs
      | some v =>
          have hv := hproduced v rfl
          refine .ask_bind (hs.typeOf hv) fun valueTy _ => ?_
          refine .ask_bind (hs.fits hv valueTy ty) fun fits _ => ?_
          cases fits with
          | false => exact .fault nofun
          | true => exact .pure hv

theorem bindThis {scope : Scope} {this : Value} (hthis : this.Within H s) (hs : H.Alike s s') :
    H.Coupled known (fun _ _ => True) s s' (Evaluator.bindThis scope this s)
      (Evaluator.bindThis scope this s') :=
  .ask_bind (hs.typeOf hthis) fun _ _ => .define _ _ hthis

theorem runBody (hev : H.Matches ev ev') (function : String) (o : Overload) {args : List Value}
    {scope : Scope} (body : Stmt) (hs : H.Alike s s') (hscope : scope.Within H s)
    (hargs : ∀ v ∈ args, v.Within H s) :
    H.Coupled known (fun t r => ∀ v, r = some v → v.Within H t) s s'
      (ev.runBody function o args scope body s) (ev'.runBody function o args scope body s') := by
  refine .bind hs (hev.bindParams function o.params hs hscope hargs) fun t t' _ ht hst _ => ?_
  refine .bind ht (.asCodeOf o.owner steady_flow ht fun u u' hu htu =>
    hev.exec body hu (hscope.mono (hst.trans htu))) fun u u' flow hu _ hflow => ?_
  cases flow with
  | returned value => exact .pure hflow
  | normal value => exact .pure fun v hv => hflow v (Option.filter_eq_some_iff.mp hv).1

theorem runOverload (hev : H.Matches ev ev') (function : String) {o : Overload}
    (ho : o.code.Within H s) {args : List Value} {this : Option Value} (hs : H.Alike s s')
    (hargs : ∀ v ∈ args, v.Within H s) (hthis : ∀ v, this = some v → v.Within H s) :
    H.Coupled known (fun t v => v.Within H t) s s' (ev.runOverload function o args this s)
      (ev'.runOverload function o args this s') := by
  unfold Evaluator.runOverload
  cases hcode : o.code with
  | native f =>
      rw [hcode] at ho
      refine .bind hs (hev.native ho hs hargs) fun t t' produced ht _ hproduced => ?_
      refine .get_bind ?_
      rw [ht.globals]
      exact result function o ht hproduced
  | script body closure =>
      rw [hcode] at ho
      refine .bind hs (.newScope hs ho) fun t t' scope ht hst hscope => ?_
      cases this with
      | none =>
          refine .bind ht (hev.runBody function o body ht hscope fun v hv => (hargs v hv).mono hst)
            fun u u' produced hu _ hproduced => ?_
          exact result function o hu hproduced
      | some this =>
          refine .bind ht (bindThis ((hthis this rfl).mono hst) ht) fun u u' _ hu htu _ => ?_
          refine .bind hu (hev.runBody function o body hu (hscope.mono htu)
            fun v hv => (hargs v hv).mono (hst.trans htu)) fun w w' produced hw _ hproduced => ?_
          exact result function o hw hproduced

theorem checkDepth (hev : H.Matches ev ev') (hs : H.Alike s s') :
    H.Coupled known (fun _ _ => True) s s' (ev.checkDepth s) (ev'.checkDepth s') := by
  refine .get_bind ?_
  rw [hs.callDepth]
  by_cases hdeep : ev.maxDepth ≤ s.callDepth
  · rw [if_pos hdeep]
    rcases hev.maxDepth with hmax | ⟨hmax, hcut⟩
    · rw [hmax, if_pos hdeep]
      exact .fault nofun
    · exact .cut _ hcut _ _
  · have hdeep' : ¬ ev'.maxDepth ≤ s.callDepth := by
      rcases hev.maxDepth with hmax | ⟨hmax, _⟩ <;> omega
    rw [if_neg hdeep, if_neg hdeep']
    exact .pure trivial

theorem invoke (hev : H.Matches ev ev') (function : String) {o : Overload}
    (ho : o.code.Within H s) {args : List Value} {this : Option Value} (hs : H.Alike s s')
    (hargs : ∀ v ∈ args, v.Within H s) (hthis : ∀ v, this = some v → v.Within H s) :
    H.Coupled known (fun t v => v.Within H t) s s' (ev.invoke function o args this s)
      (ev'.invoke function o args this s') := by
  refine .bind hs (hev.checkDepth hs) fun t t' _ ht hst _ => ?_
  rw [Exec.roomy_eq, Exec.roomy_eq]
  refine .deeper steady_value ht fun u u' hu htu => ?_
  have hsu := hst.trans htu
  exact hev.runOverload function (ho.mono hsu) hu (fun v hv => (hargs v hv).mono hsu)
    fun v hv => (hthis v hv).mono hsu

theorem select {f : Function} (hf : f.Within H s) {args : List Value} (hs : H.Alike s s')
    (hargs : ∀ v ∈ args, v.Within H s) :
    H.Coupled known (fun t o => o.code.Within H t) s s' (Evaluator.select f args s)
      (Evaluator.select f args s') :=
  .ask (hs.resolve hf hargs)

theorem callFunction (hev : H.Matches ev ev') {f : Function} (hf : f.Within H s)
    {args : List Value} {this : Option Value} (hs : H.Alike s s')
    (hargs : ∀ v ∈ args, v.Within H s) (hthis : ∀ v, this = some v → v.Within H s) :
    H.Coupled known (fun t v => v.Within H t) s s' (ev.callFunction f args this s)
      (ev'.callFunction f args this s') := by
  refine .bind hs (select hf hs hargs) fun t t' o ht hst ho => ?_
  exact hev.invoke f.name ho ht (fun v hv => (hargs v hv).mono hst)
    fun v hv => (hthis v hv).mono hst

/-! ## Members -/

theorem store {slot : MemberSlot} (name : String) {value : Value} (hs : H.Alike s s')
    (hslot : (Node.container slot.handle).Within H s) (hvalue : value.Within H s) :
    H.Coupled known (fun _ _ => True) s s' (Evaluator.store slot name value s)
      (Evaluator.store slot name value s') := by
  refine .ask_bind (hs.get hslot) fun c hc => ?_
  by_cases hm : (c.table slot.isStatic).contains name
  · rw [if_pos hm]
    exact .change (a := ()) (.setMember slot name value) hvalue rfl trivial
  · rw [if_neg hm]
    exact .fault nofun

theorem runAccessorBody (hev : H.Matches ev ev') (code : AccessorCode) {scope : Scope}
    {field : Value} (hs : H.Alike s s') (hscope : scope.Within H s) (hfield : field.Within H s) :
    H.Coupled known (fun t r => (∀ v, r.1 = some v → v.Within H t) ∧ r.2.Within H t) s s'
      (ev.runAccessorBody code scope field s) (ev'.runAccessorBody code scope field s') := by
  unfold Evaluator.runAccessorBody
  rw [Exec.roomy_eq, Exec.roomy_eq]
  refine .bind hs (.deeper steady_flow hs fun t t' ht hst => .asCodeOf code.owner steady_flow ht
    fun u u' hu htu => hev.exec code.body hu (hscope.mono (hst.trans htu)))
    fun t t' flow ht hst hflow => ?_
  refine .get_bind ?_
  rw [ht.frames]
  have hleft :
      (((t.frames.local? scope.inner "field").map Binding.value).getD field).Within H t := by
    cases hlocal : t.frames.local? scope.inner "field" with
    | none => exact hfield.mono hst
    | some b => exact ht.closed.local? (hscope.mono hst).inner hlocal
  cases flow with
  | normal value | returned value => exact .pure ⟨hflow, hleft⟩

theorem runAccessor (hev : H.Matches ev ev') {code : AccessorCode} {this : Value} (ty : Ty)
    {field : Value} {value : Option Value} (hs : H.Alike s s') (hcode : code.scope.Within H s)
    (hthis : this.Within H s) (hfield : field.Within H s)
    (hvalue : ∀ v, value = some v → v.Within H s) :
    H.Coupled known (fun t r => (∀ v, r.1 = some v → v.Within H t) ∧ r.2.Within H t) s s'
      (ev.runAccessor code this ty field value s)
      (ev'.runAccessor code this ty field value s') := by
  refine .bind hs (hev.checkDepth hs) fun t t' _ ht hst _ => ?_
  refine .bind ht (.newScope ht (hcode.mono hst)) fun u u' scope hu htu hscope => ?_
  have hsu := hst.trans htu
  refine .bind hu (bindThis (hthis.mono hsu) hu) fun w w' _ hw huw _ => ?_
  have hsw := hsu.trans huw
  refine .bind hw (.define _ _ (hfield.mono hsw)) fun x x' _ hx hwx _ => ?_
  have hsx := hsw.trans hwx
  have hscope' := hscope.mono (huw.trans hwx)
  cases value with
  | none => exact hev.runAccessorBody code hx hscope' (hfield.mono hsx)
  | some value =>
      refine .bind hx (.define _ _ ((hvalue value rfl).mono hsx)) fun y y' _ hy hxy _ => ?_
      exact hev.runAccessorBody code hy (hscope'.mono hxy) (hfield.mono (hsx.trans hxy))

theorem memberGet (hev : H.Matches ev ev') {object : Value} (name : String) (hs : H.Alike s s')
    (hobject : object.Within H s) :
    H.Coupled known (fun t v => v.Within H t) s s' (ev.memberGet object name s)
      (ev'.memberGet object name s') := by
  refine .ask_bind (hs.accessed hobject name) fun found hfound => ?_
  obtain ⟨handle, slot, m⟩ := found
  obtain ⟨_, hslot, hm⟩ := hfound
  cases hform : m.form with
  | field readonly =>
      simp only [hform]
      exact .pure hm.value
  | property getter setter =>
      have haccessors := hm.accessors
      rw [hform] at haccessors
      simp only [hform]
      cases getter with
      | none => exact .pure hm.value
      | some getter =>
          have hgetter := haccessors getter (by simp [MemberForm.accessors])
          refine .bind hs (hev.runAccessor m.ty hs hgetter hobject hm.value nofun)
            fun t t' r ht hst hr => ?_
          refine .bind ht (store name ht (hslot.mono hst) hr.2) fun u u' _ _ htu _ => ?_
          obtain ⟨produced, field⟩ := r
          cases produced with
          | none => exact .pure (hr.2.mono htu)
          | some v => exact .pure ((hr.1 v rfl).mono htu)

theorem memberSet (hev : H.Matches ev ev') {object : Value} (name : String) {value : Value}
    (hs : H.Alike s s') (hobject : object.Within H s) (hvalue : value.Within H s) :
    H.Coupled known (fun t v => v.Within H t) s s' (ev.memberSet object name value s)
      (ev'.memberSet object name value s') := by
  refine .ask_bind (hs.accessed hobject name) fun found hfound => ?_
  obtain ⟨handle, slot, m⟩ := found
  obtain ⟨hhandle, hslot, hm⟩ := hfound
  refine .ask_bind (hs.get hhandle) fun c _ => ?_
  dsimp only
  cases m.readonly with
  | true => exact .fault nofun
  | false =>
      refine .ask_bind (hs.typeOf hvalue) fun valueTy _ => ?_
      refine .ask_bind (hs.fits hvalue valueTy m.ty) fun fits _ => ?_
      cases fits with
      | false => exact .fault nofun
      | true =>
          have haccessors := hm.accessors
          cases hform : m.form with
          | field _ =>
              exact .bind hs (store name hs hslot hvalue) fun _ _ _ _ hst _ =>
                .pure (hvalue.mono hst)
          | property getter setter =>
              rw [hform] at haccessors
              cases setter with
              | none => exact .fault nofun
              | some setter =>
                  have hcode := haccessors setter (by simp [MemberForm.accessors])
                  refine .bind hs (hev.runAccessor m.ty hs hcode hobject hm.value
                    fun v hv => Option.some.inj hv ▸ hvalue) fun t t' r ht hst hr => ?_
                  exact .bind ht (store name ht (hslot.mono hst) hr.2) fun _ _ _ _ htu _ =>
                    .pure (hvalue.mono (hst.trans htu))

/-! ## Objects -/

theorem newInstance {cls : Container} {handle : Handle} (hs : H.Alike s s')
    (hhandle : (Node.container handle).Within H s) (hcls : s.heap.get handle = .ok cls)
    (hclass : cls.isClass) :
    H.Coupled known (fun t i => (Node.container i).Within H t) s s'
      (Evaluator.newInstance cls handle s) (Evaluator.newInstance cls handle s') := by
  have hfresh : (Node.container s.heap.slots.size).Within H (s.apply (.addInstance cls handle)) :=
    ⟨fun hstale => Nat.lt_irrefl _ (hs.closed.past _ hstale),
      fun _ => ⟨_, Heap.get_alloc_self _ _⟩⟩
  have hresult : Evaluator.newInstance cls handle s' =
      .ok s.heap.slots.size (s'.apply (.addInstance cls handle)) := by
    rw [← hs.size]
    rfl
  rw [hresult]
  exact .change (.addInstance cls handle) ⟨hcls, hclass, hhandle⟩ rfl hfresh

theorem construct (hev : H.Matches ev ev') {cls : Handle} {args : List Value} (hs : H.Alike s s')
    (hcls : (Node.container cls).Within H s) (hclass : ∀ c, s.heap.get cls = .ok c → c.isClass)
    (hargs : ∀ v ∈ args, v.Within H s) :
    H.Coupled known (fun t v => v.Within H t) s s' (ev.construct cls args s)
      (ev'.construct cls args s') := by
  refine .ask_bind (hs.typesOf hargs) fun _ _ => ?_
  refine .ask_bind (hs.get hcls) fun c hc => ?_
  refine .ask_bind (hs.resolve hc.1.constructors hargs) fun o ho => ?_
  refine .bind hs (newInstance hs hcls hc.2 (hclass c hc.2)) fun t t' i ht hst hi => ?_
  refine .bind ht (hev.invoke c.name (ho.mono hst) ht (fun v hv => (hargs v hv).mono hst)
    fun v hv => Option.some.inj hv ▸ hi) fun u u' _ _ htu _ => ?_
  exact .pure (hi.mono htu)

/-! ## Operators -/

theorem overloaded (hev : H.Matches ev ev') (op : BinOp) {left right : Value} (hs : H.Alike s s')
    (hleft : left.Within H s) (hright : right.Within H s) :
    H.Coupled known (fun t r => ∀ v, r = some v → v.Within H t) s s'
      (ev.overloaded op left right s) (ev'.overloaded op left right s') := by
  refine .ask_bind (hs.binaryOverload op hleft hright) fun found hfound => ?_
  cases found with
  | none => exact .pure nofun
  | some found =>
      refine .map (hev.invoke found.1 (hfound found rfl) hs
        (fun v hv => List.mem_singleton.mp hv ▸ hright) fun v hv => Option.some.inj hv ▸ hleft) ?_
      exact fun t v hv w hw => Option.some.inj hw ▸ hv

/-- An operation that two values do not have. -/
theorem noOperation (op : BinOp) {left right : Value} (hs : H.Alike s s')
    (hleft : left.Within H s) (hright : right.Within H s) :
    let refusal : Exec Value := do
      fault (.noOperation op (← ask (·.typeOf left)) (← ask (·.typeOf right)))
    H.Coupled known (fun t v => v.Within H t) s s' (refusal s) (refusal s') := by
  refine .ask_bind (hs.typeOf hleft) fun _ _ => ?_
  exact .ask_bind (hs.typeOf hright) fun _ _ => .fault nofun

theorem binary (hev : H.Matches ev ev') (op : BinOp) {left right : Value} (hs : H.Alike s s')
    (hleft : left.Within H s) (hright : right.Within H s) :
    H.Coupled known (fun t v => v.Within H t) s s' (ev.binary op left right s)
      (ev'.binary op left right s') := by
  unfold Evaluator.binary
  by_cases hop : op = .eq ∨ op = .ne
  · rw [if_pos hop, if_pos hop]
    refine .bind hs (hev.overloaded op hs hleft hright) fun t t' r ht hst hr => ?_
    cases r with
    | some v => exact .pure (hr v rfl)
    | none => exact .ask_bind (ht.equal (hleft.mono hst) (hright.mono hst)) fun _ _ => .pure trivial
  · rw [if_neg hop, if_neg hop]
    refine .ask_bind (hs.builtin op hleft hright) fun r hr => ?_
    cases r with
    | some v => exact .pure (hr v rfl)
    | none =>
        cases op.overloadable with
        | false => exact noOperation op hs hleft hright
        | true =>
            refine .bind hs (hev.overloaded op hs hleft hright) fun t t' r ht hst hr => ?_
            cases r with
            | some v => exact .pure (hr v rfl)
            | none => exact noOperation op ht (hleft.mono hst) (hright.mono hst)

theorem unary (hev : H.Matches ev ev') (op : UnOp) {operand : Value} (hs : H.Alike s s')
    (hoperand : operand.Within H s) :
    H.Coupled known (fun t v => v.Within H t) s s' (ev.unary op operand s)
      (ev'.unary op operand s') := by
  refine .ask_bind (hs.unaryOverload op hoperand) fun found hfound => ?_
  cases found with
  | some found =>
      exact hev.invoke found.1 (hfound found rfl) hs nofun fun v hv => Option.some.inj hv ▸ hoperand
  | none =>
      cases op with
      | not => exact .pure trivial
      | plus | neg | bitNot => exact .ask_bind (agree_toNumber operand) fun _ _ => .pure trivial

end Matches

end Horizon

end ClassScript

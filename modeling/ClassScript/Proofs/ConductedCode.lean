import ClassScript.Proofs.ConductedCalls
import ClassScript.Run.Evaluator

/-!
# Code on terms

Class bodies, expressions and statements, one rule for each form. In the end an evaluator with any
fuel is orderly, if the host is.
-/

namespace ClassScript

/-! ## Drafts -/

namespace Draft

variable {d d' : Draft}

theorem nullSafe_put (h : d.cls.NullSafe) (isStatic : Bool) (name : String) {m : Member}
    (hm : m.ty.Admits m.value) : (d.put isStatic name m).cls.NullSafe := by
  have hput : (d.put isStatic name m).cls =
      d.cls.setTable isStatic ((d.cls.table isStatic).insert name m) := by
    cases isStatic <;> rfl
  rw [hput]
  exact h.insert isStatic name hm

theorem nullSafe_insert (h : d.cls.NullSafe) {isStatic : Bool} {name : String} {m : Member}
    (hm : m.ty.Admits m.value) (hd : d.insert isStatic name m = .ok d') : d'.cls.NullSafe := by
  unfold insert at hd
  split at hd
  · cases hd
  · cases hd
    exact nullSafe_put h isStatic name hm

theorem nullSafe_addMethod (h : d.cls.NullSafe) {access : Access} {isStatic : Bool}
    {name : String} {o : Overload} (hd : d.addMethod access isStatic name o = .ok d') :
    d'.cls.NullSafe := by
  obtain ⟨f, _, hd⟩ := exists_answer_of_bind_eq_ok hd
  obtain ⟨g, _, hd⟩ := exists_answer_of_bind_eq_ok hd
  cases hd
  exact nullSafe_put h isStatic name fun _ => nofun

theorem nullSafe_addConstructor (h : d.cls.NullSafe) {o : Overload}
    (hd : d.addConstructor o = .ok d') : d'.cls.NullSafe := by
  obtain ⟨f, _, hd⟩ := exists_answer_of_bind_eq_ok hd
  cases hd
  exact h

theorem nullSafe_addBinary (h : d.cls.NullSafe) {op : BinOp} {name : String} {o : Overload}
    (hd : d.addBinary op name o = .ok d') : d'.cls.NullSafe := by
  obtain ⟨f, _, hd⟩ := exists_answer_of_bind_eq_ok hd
  cases hd
  exact h

theorem nullSafe_addUnary (h : d.cls.NullSafe) {op : UnOp} {name : String} {o : Overload}
    (hd : d.addUnary op name o = .ok d') : d'.cls.NullSafe := by
  obtain ⟨f, _, hd⟩ := exists_answer_of_bind_eq_ok hd
  cases hd
  exact h

theorem nullSafe_finished (h : d.cls.NullSafe) : d.finished.NullSafe := by
  unfold finished
  split <;> exact h

theorem nullSafe_inherit (name : String) (handle : Handle) {parent : Container}
    (h : parent.NullSafe) : (Evaluator.inherit name handle parent).cls.NullSafe := by
  intro isStatic m hm
  cases isStatic with
  | false => exact h false m hm
  | true => exact absurd hm List.not_mem_nil

end Draft

/-! ## Parents -/

theorem State.isClass_of_baseClass {s : State} {scope : Scope} {name : String} {handle : Handle}
    (h : s.baseClass scope name = .ok handle) :
    ∃ c, s.heap.get handle = .ok c ∧ c.isClass = true := by
  unfold baseClass at h
  split at h
  · cases h
  · obtain ⟨c, hc, h⟩ := exists_answer_of_bind_eq_ok h
    split at h
    · next hclass =>
        cases h
        exact ⟨c, hc, hclass⟩
    · cases h
  · cases h

/-- The bases of a class are classes. -/
theorem State.isClass_of_parentOf {s : State} {scope : Scope} {name : String}
    {before found : Option Handle} {bases : List Ty}
    (hbefore : ∀ handle, before = some handle →
      ∃ c, s.heap.get handle = .ok c ∧ c.isClass = true)
    (h : s.parentOf scope name before bases = .ok found) :
    ∀ handle, found = some handle → ∃ c, s.heap.get handle = .ok c ∧ c.isClass = true := by
  induction bases generalizing before with
  | nil =>
      cases h
      exact hbefore
  | cons base bases ih =>
      obtain ⟨handle, hhandle, h⟩ := exists_answer_of_bind_eq_ok h
      cases before with
      | some existing =>
          obtain ⟨_, _, h⟩ := exists_answer_of_bind_eq_ok h
          cases h
      | none =>
          refine ih (fun other hother => ?_) h
          cases hother
          exact isClass_of_baseClass hhandle

/-- A class without a base inherits from the class `Object`. -/
theorem State.isClass_of_parent {s : State} {scope : Scope} {name : String} {found : Option Handle}
    {bases : List Ty} {parent : Container} (hfound : s.parentOf scope name none bases = .ok found)
    (hparent : s.heap.get (found.getD s.objectClass) = .ok parent) :
    found.getD s.objectClass = s.objectClass ∨ parent.isClass = true := by
  cases found with
  | none => exact Or.inl rfl
  | some handle =>
      obtain ⟨c, hc, hclass⟩ := isClass_of_parentOf (by simp) hfound handle rfl
      cases hc.symm.trans hparent
      exact Or.inr hclass

/-- The class that a body has made. Its parent was found before the body ran, but the body leaves
what the parent has for its instances as it is. -/
theorem Terms.Permits.drafted {strict : Prop} {T : Terms strict} {s : State} {cs : List Change}
    (hcs : T.Permits s cs) (hstrict : strict) {handle : Handle} {parent : Container}
    (hparent : s.heap.get handle = .ok parent)
    (hisClass : handle = s.objectClass ∨ parent.isClass = true) (hrooted : (s.after cs).Rooted)
    {ev : Evaluator} {scope : Scope} {decl : ClassDecl} {items : List Item} {d : Draft}
    {u v : State} (hitems : DeclaresAll ev scope decl.name u decl.members items v)
    (hreflects : d.Reflects decl.name handle parent items) :
    d.finished.Drafted (.ofItems decl.name items) (s.after cs) := by
  obtain ⟨hname, hkind, hderives⟩ := hreflects.finished
  obtain ⟨parent', hparent', hstays⟩ := hcs.upholds.container handle parent hparent
  have hclass : parent'.isClass = true := by
    rcases hisClass with rfl | hclass
    · obtain ⟨object, hobject, hclass⟩ := hrooted
      rw [s.after_objectClass (hcs.own hstrict), hparent'] at hobject
      exact Except.ok.inj hobject ▸ hclass
    · exact hstays.isClass_eq.trans hclass
  have hmembers := hcs.upholds.template hstrict handle parent parent' hparent hparent'
    (hstays.isClass_eq.symm.trans hclass)
  refine ⟨⟨ev, scope, items, u, v, decl, hname.symm, hname ▸ hitems, by rw [hname]⟩, ?_⟩
  exact ⟨handle, parent', hkind, hparent', hclass, hderives.parent hstays hmembers⟩

namespace Evaluator.Orderly

open Exec

variable {strict : Prop} {T : Terms strict} {s : State} {ev : Evaluator}

/-! ## Class bodies -/

theorem initialValue (hev : ev.Orderly strict) (scope : Scope) (name : String) (ty : Option Ty)
    (value : Option Expr) (hs : T.Fits s) :
    T.Conducted (fun r => r.1.Admits r.2) s (ev.initialValue scope name ty value s) := by
  cases ty with
  | none =>
      cases value with
      | none => exact .pure fun hexcludes => by cases hexcludes.1
      | some e =>
          refine .bind hs (hev.eval scope e hs) fun t v ht _ _ => ?_
          exact .ask_bind fun ty hty => .pure (State.admits_typeOf hty)
  | some ty =>
      cases value with
      | none => exact .bind hs (.defaultValue scope ty) fun _ _ _ _ hv => .pure hv
      | some e =>
          refine .bind hs (hev.eval scope e hs) fun t v ht _ _ => ?_
          refine .ask_bind fun valueTy hvalueTy => ?_
          refine .ask_bind fun fits hfits => ?_
          cases fits with
          | false => exact .fault
          | true => exact .pure (State.admits_of_fits hvalueTy hfits)

theorem addMember (hev : ev.Orderly strict) (scope : Scope) {d : Draft} (m : MemberDecl)
    (hs : T.Fits s) (hd : strict → d.cls.NullSafe) :
    T.Conducted (fun d' => strict → d'.cls.NullSafe) s (ev.addMember scope d m s) := by
  unfold Evaluator.addMember
  cases m.body with
  | field name readonly ty value =>
      refine .bind hs (hev.initialValue scope name ty value hs) fun t r _ _ hr => ?_
      exact .ask fun d' hd' hstrict => Draft.nullSafe_insert (hd hstrict) hr hd'
  | property name ty getter setter value =>
      refine .bind hs (hev.initialValue scope name ty value hs) fun t r _ _ hr => ?_
      refine .get_bind ?_
      exact .ask fun d' hd' hstrict => Draft.nullSafe_insert (hd hstrict) hr hd'
  | method decl => exact .ask fun d' hd' hstrict => Draft.nullSafe_addMethod (hd hstrict) hd'
  | constructor decl =>
      exact .ask fun d' hd' hstrict => Draft.nullSafe_addConstructor (hd hstrict) hd'
  | binary op decl => exact .ask fun d' hd' hstrict => Draft.nullSafe_addBinary (hd hstrict) hd'
  | unary op decl => exact .ask fun d' hd' hstrict => Draft.nullSafe_addUnary (hd hstrict) hd'

theorem addMembers (hev : ev.Orderly strict) (scope : Scope) {d : Draft} (ms : List MemberDecl)
    (hs : T.Fits s) (hd : strict → d.cls.NullSafe) :
    T.Conducted (fun d' => strict → d'.cls.NullSafe) s (ev.addMembers scope d ms s) := by
  induction ms generalizing s d with
  | nil => exact .pure hd
  | cons m ms ih =>
      exact .bind hs (hev.addMember scope m hs hd) fun t d' ht _ hd' => ih ht hd'

/-- The body of a class, run as code of the class. -/
theorem classBody (hev : ev.Orderly strict) (scope : Scope) (decl : ClassDecl) (handle : Handle)
    {parent : Container} (hs : T.Fits s) (hparent : strict → parent.NullSafe) :
    T.Conducted (fun d => strict → d.cls.NullSafe) s (asCodeOf (some decl.name)
      (ev.addMembers scope (inherit decl.name handle parent) decl.members) s) := by
  refine .between rfl (fun _ => rfl) ?_
  exact hev.addMembers scope decl.members (hs.control s.callDepth (some decl.name :: s.context))
    fun hstrict => Draft.nullSafe_inherit decl.name handle (hparent hstrict)

/-! ## What class bodies make -/

/-- The first value of a field or a property is found on the way. -/
theorem currentClass_initialValue (hev : ev.Orderly strict) {scope : Scope} {name : String}
    {ty : Option Ty} {value : Option Expr} {r : Ty × Value} {t : State} (hs : T.Fits s)
    (h : ev.initialValue scope name ty value s = .ok r t) :
    t.currentClass = s.currentClass ∧ T.Fits t := by
  obtain ⟨cs, hcs, rfl, _⟩ := (hev.initialValue scope name ty value hs).exists_of_ok h
  exact ⟨s.currentClass_after cs, hs.trans hcs.upholds⟩

/-- One more item. -/
theorem declares (hev : ev.Orderly strict) {scope : Scope} {d d' : Draft} {m : MemberDecl}
    {t : State} (hs : T.Fits s) (hclass : s.currentClass = some d.cls.name)
    (h : ev.addMember scope d m s = .ok d' t) :
    (∃ item, Declares ev scope d.cls.name s m item t ∧ d.Adds d' item) ∧
      t.currentClass = s.currentClass ∧ T.Fits t := by
  unfold Evaluator.addMember at h
  cases hbody : m.body with
  | field name readonly ty value =>
      rw [hbody] at h
      obtain ⟨r, u, hvalue, h⟩ := exists_of_bind_eq_ok h
      obtain ⟨hd', rfl⟩ := Exec.ask_eq_ok h
      refine ⟨?_, hev.currentClass_initialValue hs hvalue⟩
      cases hstatic : m.isStatic with
      | false =>
          rw [hstatic] at hd'
          exact ⟨_, .field hstatic hbody hvalue, hd'⟩
      | true =>
          rw [hstatic] at hd'
          exact ⟨_, .staticField hstatic hbody hvalue, Draft.sameSide_insert hd'⟩
  | property name ty getter setter value =>
      rw [hbody] at h
      obtain ⟨r, u, hvalue, h⟩ := exists_of_bind_eq_ok h
      obtain ⟨_, _, hget, h⟩ := exists_of_bind_eq_ok h
      cases hget
      obtain ⟨hd', rfl⟩ := Exec.ask_eq_ok h
      -- the accessors are made when the first value has been found; still in code of the class
      have hkept := hev.currentClass_initialValue hs hvalue
      rw [State.accessor_eq (hkept.1.trans hclass)] at hd'
      refine ⟨?_, hkept⟩
      cases hstatic : m.isStatic with
      | false =>
          rw [hstatic] at hd'
          exact ⟨_, .property hstatic hbody hvalue, hd'⟩
      | true =>
          rw [hstatic] at hd'
          exact ⟨_, .staticProperty hstatic hbody hvalue, Draft.sameSide_insert hd'⟩
  | method decl =>
      rw [hbody] at h
      obtain ⟨hd', rfl⟩ := Exec.ask_eq_ok h
      rw [State.overload_eq hclass] at hd'
      refine ⟨?_, rfl, hs⟩
      cases hstatic : m.isStatic with
      | false =>
          rw [hstatic] at hd'
          exact ⟨_, .method hstatic hbody, hd'⟩
      | true =>
          rw [hstatic] at hd'
          exact ⟨_, .staticMethod hstatic hbody, Draft.sameSide_addMethod hd'⟩
  | constructor decl =>
      rw [hbody] at h
      obtain ⟨hd', rfl⟩ := Exec.ask_eq_ok h
      exact ⟨⟨_, .constructor hbody, Draft.sameSide_addConstructor hd'⟩, rfl, hs⟩
  | binary op decl =>
      rw [hbody] at h
      obtain ⟨hd', rfl⟩ := Exec.ask_eq_ok h
      rw [State.overload_eq hclass] at hd'
      exact ⟨⟨_, .binary hbody, hd'⟩, rfl, hs⟩
  | unary op decl =>
      rw [hbody] at h
      obtain ⟨hd', rfl⟩ := Exec.ask_eq_ok h
      rw [State.overload_eq hclass] at hd'
      exact ⟨⟨_, .unary hbody, hd'⟩, rfl, hs⟩

/-- A body comes to items, and the class in the making has what they say. -/
theorem declaresAll (hev : ev.Orderly strict) {scope : Scope} {d d' : Draft} {ms : List MemberDecl}
    {cls : String} {handle : Handle} {parent : Container} {items : List Item} {t : State}
    (hs : T.Fits s) (hclass : s.currentClass = some cls)
    (hreflects : d.Reflects cls handle parent items) (h : ev.addMembers scope d ms s = .ok d' t) :
    ∃ more, DeclaresAll ev scope cls s ms more t ∧
      d'.Reflects cls handle parent (items ++ more) := by
  induction ms generalizing s d items with
  | nil =>
      cases h
      exact ⟨[], .nil, by rw [List.append_nil]; exact hreflects⟩
  | cons m ms ih =>
      obtain ⟨d₁, u, hm, h⟩ := exists_of_bind_eq_ok h
      have howner : s.currentClass = some d.cls.name := by rw [hclass, hreflects.name]
      obtain ⟨⟨item, hdeclares, hadds⟩, hclass', hu⟩ := hev.declares hs howner hm
      rw [hreflects.name] at hdeclares
      obtain ⟨more, hmore, hreflects'⟩ := ih hu (hclass'.trans hclass) (hreflects.adds hadds) h
      refine ⟨item :: more, .cons hdeclares hmore, ?_⟩
      rw [List.append_cons]
      exact hreflects'

theorem declaresAll_classBody (hev : ev.Orderly strict) {scope : Scope} {decl : ClassDecl}
    {handle : Handle} {parent : Container} {d : Draft} {t : State} (hs : T.Fits s)
    (h : asCodeOf (some decl.name)
      (ev.addMembers scope (inherit decl.name handle parent) decl.members) s = .ok d t) :
    ∃ items u, DeclaresAll ev scope decl.name
        (s.control s.callDepth (some decl.name :: s.context)) decl.members items u ∧
      t = u.control u.callDepth u.context.tail ∧ d.Reflects decl.name handle parent items := by
  unfold asCodeOf between at h
  split at h
  · next u hrun =>
      cases h
      obtain ⟨items, hitems, hreflects⟩ :=
        hev.declaresAll (hs.control s.callDepth (some decl.name :: s.context)) rfl
          (Draft.reflects_inherit decl.name handle parent) hrun
      exact ⟨items, u, hitems, rfl, hreflects⟩
  · cases h

/-! ## Class declarations -/

theorem defineClass (hev : ev.Orderly strict) {scope : Scope} (decl : ClassDecl) {handle : Handle}
    {parent : Container} (hs : T.Fits s) (hscope : T.Opens scope.inner)
    (hparent : s.heap.get handle = .ok parent)
    (hisClass : handle = s.objectClass ∨ parent.isClass = true) :
    T.Conducted (fun _ => True) s (ev.defineClass scope decl handle parent s) := by
  refine .bind_run hs (hev.classBody scope decl handle hs fun hstrict =>
    (hs.nullSafe hstrict).member handle parent hparent) fun cs d hcs hrun ht hsafe => ?_
  obtain ⟨items, u, hitems, _, hreflects⟩ := hev.declaresAll_classBody hs hrun
  refine .change_bind (.addClass d.finished) ht rfl (fun hstrict =>
    ⟨Draft.nullSafe_finished (hsafe hstrict), fun hrooted => ?_⟩) fun _ => ?_
  · exact ⟨_, hcs.drafted hstrict hparent hisClass hrooted hitems hreflects⟩
  · refine .rebind fun b hb => Terms.proper_newConstant hscope ?_ hb
    exact fun _ _ => nofun

theorem declareClass (hev : ev.Orderly strict) {scope : Scope} (decl : ClassDecl) (hs : T.Fits s)
    (hscope : T.Opens scope.inner) :
    T.Conducted (fun _ => True) s (ev.declareClass scope decl s) := by
  refine .get_bind ?_
  cases (s.frames.local? scope.inner decl.name).isSome with
  | true => exact .fault
  | false =>
      refine .ask_bind fun found hfound => ?_
      refine .ask_bind fun parent hparent => ?_
      refine .change_bind (.register decl.name parent.name) hs rfl trivial fun ht => ?_
      exact hev.defineClass decl ht hscope hparent (State.isClass_of_parent hfound hparent)

/-! ## Expressions -/

theorem evalAll (hev : ev.Orderly strict) (scope : Scope) (es : List Expr) (hs : T.Fits s) :
    T.Conducted (fun _ => True) s (ev.evalAll scope es s) := by
  induction es generalizing s with
  | nil => exact .pure trivial
  | cons e es ih =>
      refine .bind hs (hev.eval scope e hs) fun t v ht _ _ => ?_
      exact .bind ht (ih ht) fun _ _ _ _ _ => .pure trivial

theorem templateText (hev : ev.Orderly strict) (scope : Scope) (text : String)
    (parts : List TemplatePart) (hs : T.Fits s) :
    T.Conducted (fun _ => True) s (ev.templateText scope text parts s) := by
  induction parts generalizing s text with
  | nil => exact .pure trivial
  | cons part parts ih =>
      cases part with
      | text more => exact ih (text ++ more) hs
      | code e =>
          refine .bind hs (hev.eval scope e hs) fun t v ht _ _ => ?_
          exact .ask_bind fun more _ => ih (text ++ more) ht

/-- The frame of the variable may be any that the scope has: its names stay what they are. -/
theorem assign (scope : Scope) (name : String) (value : Value) :
    T.Conducted (fun _ => True) s (Evaluator.assign scope name value s) := by
  refine .ask_bind fun owner _ => ?_
  refine .rebind fun b hb => ?_
  obtain ⟨valueTy, hvalueTy, hb⟩ := exists_answer_of_bind_eq_ok hb
  obtain ⟨lineage, _, hb⟩ := exists_answer_of_bind_eq_ok hb
  exact Terms.proper_assigned hvalueTy hb

theorem callValue (hev : ev.Orderly strict) (callee : Value) (receiver : Option Value)
    (args : List Value) (hs : T.Fits s) :
    T.Conducted (fun _ => True) s (ev.callValue callee receiver args s) := by
  have hrefused : T.Conducted (fun _ => True) s
      ((do fault (.notCallable (← ask (·.textOf callee))) : Exec Value) s) :=
    .ask_bind fun _ _ => .fault
  cases callee with
  | function f => exact .ask_bind fun this _ => hev.callFunction f args this hs
  | object handle =>
      refine .ask_bind fun c _ => ?_
      cases c.isClass with
      | false => exact hrefused
      | true => exact hev.construct handle args hs
  | number _ | string _ | boolean _ | list _ | null => exact hrefused

theorem evalStep (hev : ev.Orderly strict) (scope : Scope) (e : Expr) (hs : T.Fits s) :
    T.Conducted (fun _ => True) s (ev.evalStep scope e s) := by
  -- only the call of a member has a `this`
  have hcall : ∀ (callee : Expr) (args : List Expr), T.Conducted (fun _ => True) s
      ((do ev.callValue (← ev.eval scope callee) none (← ev.evalAll scope args)) s) := by
    intro callee args
    refine .bind hs (hev.eval scope callee hs) fun t callee ht _ _ => ?_
    refine .bind ht (hev.evalAll scope args ht) fun u args hu _ _ => ?_
    exact hev.callValue callee none args hu
  cases e with
  | number _ | string _ | boolean _ | null => exact .pure trivial
  | template parts =>
      exact .bind hs (hev.templateText scope "" parts hs) fun _ _ _ _ _ => .pure trivial
  | list items =>
      refine .bind hs (hev.evalAll scope items hs) fun t vs _ _ _ => ?_
      exact (Terms.Conducted.newList vs).mono fun _ _ => trivial
  | var name =>
      rw [Evaluator.evalStep]
      exact .ask fun _ _ => trivial
  | binary op left right =>
      refine .bind hs (hev.eval scope left hs) fun t left ht _ _ => ?_
      refine .bind ht (hev.eval scope right ht) fun u right hu _ _ => ?_
      exact hev.binary op left right hu
  | unary op operand =>
      refine .bind hs (hev.eval scope operand hs) fun t operand ht _ _ => ?_
      exact hev.unary op operand ht
  | assign name value =>
      refine .bind hs (hev.eval scope value hs) fun t v ht _ _ => ?_
      exact .bind ht (assign scope name v) fun _ _ _ _ _ => .pure trivial
  | call callee args =>
      cases callee with
      | member object name =>
          refine .bind hs (hev.eval scope object hs) fun t object ht _ _ => ?_
          refine .bind ht (hev.memberGet object name ht) fun u callee hu _ _ => ?_
          refine .bind hu (hev.evalAll scope args hu) fun w args hw _ _ => ?_
          exact hev.callValue callee (some object) args hw
      | number _ | string _ | boolean _ | null | template _ | list _ | var _ | binary _ _ _
      | unary _ _ | assign _ _ | call _ _ | index _ _ | indexSet _ _ _ | memberSet _ _ _ =>
          exact hcall _ args
  | index target position =>
      refine .bind hs (hev.eval scope target hs) fun t target ht _ _ => ?_
      refine .bind ht (hev.eval scope position ht) fun u position hu _ _ => ?_
      refine .ask_bind fun found _ => ?_
      exact .get_bind (.pure trivial)
  | indexSet target position value =>
      refine .bind hs (hev.eval scope target hs) fun t target ht _ _ => ?_
      refine .bind ht (hev.eval scope position ht) fun u position hu _ _ => ?_
      refine .bind hu (hev.eval scope value hu) fun w value hw _ _ => ?_
      refine .ask_bind fun found _ => ?_
      exact .change (.setItem found.1 found.2 value) trivial trivial
  | member object name =>
      refine .bind hs (hev.eval scope object hs) fun t object ht _ _ => ?_
      exact hev.memberGet object name ht
  | memberSet object name value =>
      refine .bind hs (hev.eval scope object hs) fun t object ht _ _ => ?_
      refine .bind ht (hev.eval scope value ht) fun u value hu _ _ => ?_
      exact hev.memberSet object name value hu

/-! ## Declarations -/

theorem declareVar (hev : ev.Orderly strict) {scope : Scope} (name : String) (ty : Option Ty)
    (value : Option Expr) (hs : T.Fits s) (hscope : T.Opens scope.inner) :
    T.Conducted (fun _ => True) s (ev.declareVar scope name ty value s) := by
  have hbind : ∀ (t : State) (ty : Ty) (v : Value), ty.Admits v → T.Conducted (fun _ => True) t
      (rebind scope.inner name (fun s => s.frames.newVariable scope.inner name ty v) t) :=
    fun t ty v hv => .rebind fun b hb => Terms.proper_newVariable hscope (fun _ => hv) hb
  cases ty with
  | none =>
      cases value with
      | none => exact .fault
      | some e =>
          refine .bind hs (hev.eval scope e hs) fun t v _ _ _ => ?_
          exact .ask_bind fun ty hty => hbind t ty v (State.admits_typeOf hty)
  | some ty =>
      cases value with
      | none => exact .bind hs (.defaultValue scope ty) fun t v _ _ hv => hbind t ty v hv
      | some e =>
          refine .bind hs (hev.eval scope e hs) fun t v _ _ _ => ?_
          refine .ask_bind fun valueTy hvalueTy => ?_
          refine .ask_bind fun fits hfits => ?_
          cases fits with
          | false => exact .fault
          | true => exact hbind t ty v (State.admits_of_fits hvalueTy hfits)

theorem declareConst (hev : ev.Orderly strict) {scope : Scope} (name : String) (value : Expr)
    (hs : T.Fits s) (hscope : T.Opens scope.inner) :
    T.Conducted (fun _ => True) s (ev.declareConst scope name value s) := by
  refine .bind hs (hev.eval scope value hs) fun t v _ _ _ => ?_
  refine .ask_bind fun ty hty => ?_
  exact .rebind fun b hb =>
    Terms.proper_newConstant hscope (fun _ => State.admits_typeOf hty) hb

theorem declareFunction {scope : Scope} (decl : FunctionDecl) (hscope : T.Opens scope.inner) :
    T.Conducted (fun _ => True) s (Evaluator.declareFunction scope decl s) := by
  refine .rebind fun b hb => ?_
  dsimp only at hb
  split at hb
  · obtain ⟨f, _, hb⟩ := exists_answer_of_bind_eq_ok hb
    refine Terms.proper_newVariable hscope ?_ hb
    exact fun _ _ => nofun
  · obtain ⟨f, _, hb⟩ := exists_answer_of_bind_eq_ok hb
    exact Terms.proper_assigned rfl hb
  · cases hb

/-! ## Statements -/

theorem execAll (hev : ev.Orderly strict) {scope : Scope} (last : Option Value) (stmts : List Stmt)
    (hs : T.Fits s) (hscope : T.Opens scope.inner) :
    T.Conducted (fun _ => True) s (ev.execAll scope last stmts s) := by
  induction stmts generalizing s last with
  | nil => exact .pure trivial
  | cons stmt stmts ih =>
      refine .bind hs (hev.exec scope stmt hs fun _ => hscope) fun t flow ht _ _ => ?_
      cases flow with
      | normal value => exact ih value ht
      | returned value => exact .pure trivial

theorem whileRounds (hev : ev.Orderly strict) {scope : Scope} (condition : Expr) (body : Stmt)
    (rounds : Nat) (hs : T.Fits s) (hscope : body.declares = true → T.Opens scope.inner) :
    T.Conducted (fun _ => True) s (ev.whileRounds scope condition body rounds s) := by
  induction rounds generalizing s with
  | zero => exact .outOfFuel
  | succ rounds ih =>
      refine .bind hs (hev.eval scope condition hs) fun t v ht _ _ => ?_
      cases v.truthy with
      | false => exact .pure trivial
      | true =>
          refine .bind ht (hev.exec scope body ht hscope) fun u flow hu _ _ => ?_
          cases flow with
          | normal value => exact ih hu
          | returned value => exact .pure trivial

theorem doRounds (hev : ev.Orderly strict) {scope : Scope} (body : Stmt) (condition : Expr)
    (rounds : Nat) (hs : T.Fits s) (hscope : body.declares = true → T.Opens scope.inner) :
    T.Conducted (fun _ => True) s (ev.doRounds scope body condition rounds s) := by
  induction rounds generalizing s with
  | zero => exact .outOfFuel
  | succ rounds ih =>
      refine .bind hs (hev.exec scope body hs hscope) fun t flow ht _ _ => ?_
      cases flow with
      | returned value => exact .pure trivial
      | normal value =>
          refine .bind ht (hev.eval scope condition ht) fun u v hu _ _ => ?_
          cases v.truthy with
          | false => exact .pure trivial
          | true => exact ih hu

theorem countRounds (hev : ev.Orderly strict) {scope : Scope} (counter : String) (count : Count)
    (body : Stmt) (rounds : Nat) (hs : T.Fits s) (hscope : T.Opens scope.inner) :
    T.Conducted (fun _ => True) s (ev.countRounds scope counter count body rounds s) := by
  induction rounds generalizing s with
  | zero => exact .outOfFuel
  | succ rounds ih =>
      refine .ask_bind fun current _ => ?_
      cases count.covers current with
      | false => exact .pure trivial
      | true =>
          refine .bind hs (hev.exec scope body hs fun _ => hscope) fun t flow ht _ _ => ?_
          cases flow with
          | returned value => exact .pure trivial
          | normal value =>
              refine .ask_bind fun current _ => ?_
              refine .bind ht (.rebind fun b hb => ?_) fun u _ hu _ _ => ih hu
              exact Terms.proper_assigned rfl hb

theorem countLoop (hev : ev.Orderly strict) {scope : Scope} (counter : String)
    (start stop step : Float) (body : Stmt) (hs : T.Fits s) (hscope : T.Opens scope.inner) :
    T.Conducted (fun _ => True) s (ev.countLoop scope counter start stop step body s) := by
  unfold Evaluator.countLoop
  cases step == 0.0 || step.isNaN with
  | true => exact .fault
  | false =>
      refine .bind hs (.rebind fun b hb => Terms.proper_newVariable hscope ?_ hb)
        fun t _ ht _ _ => hev.countRounds counter _ body _ ht hscope
      exact fun _ _ => nofun

/-- The counter and what the body declares live in a frame of the loop. -/
theorem forLoop (hev : ev.Orderly strict) (scope : Scope) (counter : String) (start stop : Expr)
    (step : Option Expr) (body : Stmt) (hs : T.Fits s) :
    T.Conducted (fun _ => True) s (ev.forLoop scope counter start stop step body s) := by
  refine .bind hs (.newScope scope hs) fun t scope ht _ hscope => ?_
  refine .bind ht (hev.eval scope start ht) fun u startValue hu _ _ => ?_
  refine .ask_bind fun start _ => ?_
  refine .bind hu (hev.eval scope stop hu) fun w stopValue hw _ _ => ?_
  refine .ask_bind fun stop _ => ?_
  cases step with
  | none => exact hev.countLoop counter start stop 1.0 body hw (Or.inl hscope)
  | some step =>
      refine .bind hw (hev.eval scope step hw) fun x stepValue hx _ _ => ?_
      refine .ask_bind fun step _ => ?_
      exact hev.countLoop counter start stop step.abs body hx (Or.inl hscope)

theorem execStep (hev : ev.Orderly strict) {scope : Scope} (stmt : Stmt) (hs : T.Fits s)
    (hscope : stmt.declares = true → T.Opens scope.inner) :
    T.Conducted (fun _ => True) s (ev.execStep scope stmt s) := by
  cases stmt with
  | expr value => exact .bind hs (hev.eval scope value hs) fun _ _ _ _ _ => .pure trivial
  | var name ty value =>
      exact .bind hs (hev.declareVar name ty value hs (hscope rfl)) fun _ _ _ _ _ => .pure trivial
  | const name value =>
      exact .bind hs (hev.declareConst name value hs (hscope rfl)) fun _ _ _ _ _ => .pure trivial
  | function decl =>
      exact .bind hs (declareFunction decl (hscope rfl)) fun _ _ _ _ _ => .pure trivial
  | classDecl decl =>
      exact .bind hs (hev.declareClass decl hs (hscope rfl)) fun _ _ _ _ _ => .pure trivial
  | ifElse condition thenBranch elseBranch =>
      refine .bind hs (hev.eval scope condition hs) fun t v ht _ _ => ?_
      cases v.truthy with
      | true =>
          refine hev.exec scope thenBranch ht fun hdeclares => hscope ?_
          cases elseBranch with
          | none => exact hdeclares
          | some elseBranch => simp [Stmt.declares, hdeclares]
      | false =>
          cases elseBranch with
          | none => exact .pure trivial
          | some elseBranch =>
              refine hev.exec scope elseBranch ht fun hdeclares => hscope ?_
              simp [Stmt.declares, hdeclares]
  | forLoop counter start stop step body => exact hev.forLoop scope counter start stop step body hs
  | whileLoop condition body => exact hev.whileRounds condition body _ hs hscope
  | doWhile body condition => exact hev.doRounds body condition _ hs hscope
  | ret value =>
      cases value with
      | none => exact .pure trivial
      | some value => exact .bind hs (hev.eval scope value hs) fun _ _ _ _ _ => .pure trivial
  | block body =>
      refine .bind hs (.newScope scope hs) fun t scope ht _ hscope => ?_
      exact hev.execAll none body ht (Or.inl hscope)

theorem program (hev : ev.Orderly strict) (statements : List Stmt) (hs : T.Fits s)
    (hscope : T.Opens s.globals.inner) :
    T.Conducted (fun _ => True) s (ev.program statements s) := by
  refine .get_bind ?_
  refine .bind hs (hev.execAll none statements hs hscope) fun t flow _ _ _ => ?_
  cases flow with
  | normal value | returned value => exact .pure trivial

end Evaluator.Orderly

/-! ## The knot -/

def Host.Conducted (strict : Prop) (host : Host) : Prop :=
  ∀ call : Function → List Value → Exec Value,
    (∀ {T : Terms strict} {s : State} (f : Function) (args : List Value), T.Fits s →
      T.Conducted (fun _ => True) s (call f args s)) →
    ∀ {T : Terms strict} {s : State} (name : String) (args : List Value), T.Fits s →
      T.Conducted (fun _ => True) s (host call name args s)

theorem Host.conducted_none (strict : Prop) : Host.none.Conducted strict :=
  fun _ _ _ _ _ _ _ => .pure trivial

theorem orderly_evaluator {strict : Prop} {config : Config}
    (hhost : config.host.Conducted strict) (fuel : Nat) :
    (evaluator config fuel).Orderly strict := by
  induction fuel with
  | zero =>
      exact {
        eval := fun _ _ _ => .outOfFuel
        exec := fun _ _ _ _ => .outOfFuel
        host := hhost _ fun _ _ _ => .outOfFuel }
  | succ fuel ih =>
      -- a call from the host, like a step, goes to the evaluator with less fuel
      exact {
        eval := fun scope e hs => ih.evalStep scope e hs
        exec := fun _ stmt hs hscope => ih.execStep stmt hs hscope
        host := hhost (evaluator config (fuel + 1)).call
          fun f args hs => ih.callFunction f args none hs }

end ClassScript

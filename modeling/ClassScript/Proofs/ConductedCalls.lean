import ClassScript.Proofs.Conducted
import ClassScript.Run.Object

/-!
# Calls on terms

An evaluator is orderly when it conducts the parts of its code on whatever terms they are run: an
expression adds names to no frame, and a statement at most to the one that it stands in. Everything
that is built from an orderly evaluator is then conducted too; this module goes through calls,
member access, construction and operators.

The body of a call runs in a frame that the call makes. So the call can bind what it likes there,
and the body declares names there that nobody saw before.
-/

namespace ClassScript

/-- Whether a statement can declare a name in the scope that it is run in. Blocks, counting loops
and calls have scopes of their own. -/
def Stmt.declares : Stmt → Bool
  | .var .. | .const .. | .function _ | .classDecl _ => true
  | .ifElse _ thenBranch none => thenBranch.declares
  | .ifElse _ thenBranch (some elseBranch) => thenBranch.declares || elseBranch.declares
  | .whileLoop _ body => body.declares
  | .doWhile body _ => body.declares
  | .expr _ | .forLoop .. | .ret _ | .block _ => false

structure Evaluator.Orderly (strict : Prop) (ev : Evaluator) : Prop where
  eval : ∀ {T : Terms strict} {s : State} (scope : Scope) (e : Expr), T.Fits s →
    T.Conducted (fun _ => True) s (ev.eval scope e s)
  exec : ∀ {T : Terms strict} {s : State} (scope : Scope) (stmt : Stmt), T.Fits s →
    (stmt.declares = true → T.Opens scope.inner) →
    T.Conducted (fun _ => True) s (ev.exec scope stmt s)
  host : ∀ {T : Terms strict} {s : State} (name : String) (args : List Value), T.Fits s →
    T.Conducted (fun _ => True) s (ev.host ev.call name args s)

/-! ## Where members are -/

/-- A slot holds a member. If it is one of a class, the member is static. -/
def State.Holds (s : State) (slot : MemberSlot) (name : String) (m : Member) : Prop :=
  ∃ c, s.heap.get slot.handle = .ok c ∧ (c.isClass = true → slot.isStatic = true) ∧
    (c.table slot.isStatic).get? name = some m

theorem State.holds_of_locate {s : State} {handle : Handle} {name : String} {slot : MemberSlot}
    {m : Member} (h : s.locate handle name = .ok (slot, m)) : s.Holds slot name m := by
  obtain ⟨c, hc, h⟩ := exists_answer_of_bind_eq_ok h
  dsimp only at h
  split at h
  · next own hown =>
      cases h
      split at hown
      · cases hown
      · next hinstance => exact ⟨c, hc, fun hclass => absurd hclass hinstance, hown⟩
  · obtain ⟨found, _, h⟩ := exists_answer_of_bind_eq_ok h
    cases found with
    | none => cases h
    | some owner =>
        obtain ⟨cls, hcls, h⟩ := exists_answer_of_bind_eq_ok h
        split at h
        · next hm =>
            cases h
            exact ⟨cls, hcls, fun _ => rfl, hm⟩
        · cases h

theorem State.holds_of_accessed {s : State} {object : Value} {name : String} {handle : Handle}
    {slot : MemberSlot} {m : Member} (h : s.accessed object name = .ok (handle, slot, m)) :
    s.Holds slot name m := by
  obtain ⟨found, _, h⟩ := exists_answer_of_bind_eq_ok h
  obtain ⟨located, hlocated, h⟩ := exists_answer_of_bind_eq_ok h
  obtain ⟨_, _, h⟩ := exists_answer_of_bind_eq_ok h
  cases h
  exact holds_of_locate hlocated

theorem State.NullSafe.holds {s : State} (h : s.NullSafe) {slot : MemberSlot} {name : String}
    {m : Member} (hm : s.Holds slot name m) : m.ty.Admits m.value := by
  obtain ⟨c, hc, _, hget⟩ := hm
  exact h.member slot.handle c hc slot.isStatic m (Assoc.mem_values_of_get? hget)

/-- What is in a slot stays there. -/
theorem Terms.Upholds.holds {strict : Prop} {T : Terms strict} {s t : State} (h : T.Upholds s t)
    {slot : MemberSlot} {name : String} {m : Member} (hm : s.Holds slot name m) :
    ∃ m', t.Holds slot name m' ∧ m.Stays m' := by
  obtain ⟨c, hc, hstatic, hget⟩ := hm
  obtain ⟨c', hc', hstays⟩ := h.container slot.handle c hc
  obtain ⟨m', hget', hmember⟩ := hstays.member slot.isStatic name m hget
  refine ⟨m', ⟨c', hc', fun hclass => hstatic ?_, hget'⟩, hmember⟩
  rw [Container.isClass, ← hstays.kind]
  exact hclass

namespace Evaluator.Orderly

open Exec

variable {strict : Prop} {T : Terms strict} {s : State} {ev : Evaluator}

/-! ## Calls -/

theorem native (hev : ev.Orderly strict) (f : Native) (args : List Value) (hs : T.Fits s) :
    T.Conducted (fun _ => True) s (ev.native args f s) := by
  have hprinted : T.Conducted (fun _ => True) s (Evaluator.native.printed args s) := by
    unfold Evaluator.native.printed
    cases args with
    | nil => exact .pure trivial
    | cons v args => exact .ask fun _ _ => trivial
  cases f with
  | print =>
      refine .bind hs hprinted fun t text ht _ _ => ?_
      exact .bind ht (.write text) fun _ _ _ _ _ => .pure trivial
  | println =>
      refine .bind hs hprinted fun t text ht _ _ => ?_
      exact .bind ht (.write _) fun _ _ _ _ _ => .pure trivial
  | nothing => exact .pure trivial
  | host name => exact hev.host name args hs

theorem bindParams (hev : ev.Orderly strict) (function : String) {scope : Scope}
    (hscope : T.base ≤ scope.inner) (params : List Param) {args : List Value} (hs : T.Fits s)
    (hargs : ∀ entry ∈ params.zip args, entry.1.ty.Admits entry.2) :
    T.Conducted (fun _ => True) s (ev.bindParams function scope params args s) := by
  induction params generalizing s args with
  | nil => exact .pure trivial
  | cons p ps ih =>
      cases args with
      | cons value args =>
          have hvalue : p.ty.Admits value := hargs (p, value) List.mem_cons_self
          refine .bind hs (.define p.name hscope fun _ => hvalue) fun t _ ht _ _ => ?_
          exact ih ht fun entry hentry => hargs entry (List.mem_cons_of_mem _ hentry)
      | nil =>
          rw [Evaluator.bindParams]
          cases p.default with
          | none => exact .fault
          | some default =>
              refine .bind hs (hev.eval scope default hs) fun t value ht _ _ => ?_
              refine .ask_bind fun valueTy hvalueTy => ?_
              refine .ask_bind fun fits hfits => ?_
              cases fits with
              | false => exact .fault
              | true =>
                  have hvalue := State.admits_of_fits hvalueTy hfits
                  refine .bind ht (.define p.name hscope fun _ => hvalue) fun u _ hu _ _ => ?_
                  exact ih hu (by simp)

theorem result (function : String) (o : Overload) (produced : Option Value) (scope : Scope) :
    T.Conducted (fun v => ∀ ty, o.returnType = some ty → ty.Admits v) s
      (Evaluator.result function o produced scope s) := by
  unfold Evaluator.result
  cases o.returnType with
  | none => exact .pure nofun
  | some ty =>
      cases produced with
      | none =>
          refine (Terms.Conducted.defaultValue scope ty).mono fun v hv ty' hty => ?_
          cases hty
          exact hv
      | some v =>
          refine .ask_bind fun valueTy hvalueTy => ?_
          refine .ask_bind fun fits hfits => ?_
          cases fits with
          | false => exact .fault
          | true =>
              refine .pure fun ty' hty => ?_
              cases hty
              exact State.admits_of_fits hvalueTy hfits

theorem bindThis {scope : Scope} (this : Value) (hscope : T.base ≤ scope.inner) :
    T.Conducted (fun _ => True) s (Evaluator.bindThis scope this s) := by
  refine .ask_bind fun ty hty => ?_
  exact .define "this" hscope fun _ => State.admits_typeOf hty

theorem runBody (hev : ev.Orderly strict) (function : String) {o : Overload} {args : List Value}
    {scope : Scope} (body : Stmt) (hs : T.Fits s) (hscope : T.base ≤ scope.inner)
    (hargs : o.Admits args) :
    T.Conducted (fun _ => True) s (ev.runBody function o args scope body s) := by
  refine .bind hs (hev.bindParams function hscope o.params hs hargs) fun t _ ht _ _ => ?_
  refine .bind ht (.asCodeOf o.owner ht fun u hu => hev.exec scope body hu fun _ => Or.inl hscope)
    fun u flow _ _ _ => ?_
  cases flow with
  | returned value => exact .pure trivial
  | normal value => exact .pure trivial

theorem runOverload (hev : ev.Orderly strict) (function : String) {o : Overload}
    {args : List Value} (this : Option Value) (hs : T.Fits s) (hargs : o.Admits args) :
    T.Conducted (fun v => ∀ ty, o.returnType = some ty → ty.Admits v) s
      (ev.runOverload function o args this s) := by
  unfold Evaluator.runOverload
  cases o.code with
  | native f =>
      refine .bind hs (hev.native f args hs) fun t produced _ _ _ => ?_
      exact .get_bind (result function o produced _)
  | script body closure =>
      refine .bind hs (.newScope closure hs) fun t scope ht _ hscope => ?_
      cases this with
      | none =>
          refine .bind ht (hev.runBody function body ht hscope hargs) fun u produced _ _ _ => ?_
          exact result function o produced closure
      | some this =>
          refine .bind ht (bindThis this hscope) fun u _ hu _ _ => ?_
          refine .bind hu (hev.runBody function body hu hscope hargs) fun w produced _ _ _ => ?_
          exact result function o produced closure

theorem checkDepth : T.Conducted (fun _ => True) s (ev.checkDepth s) := by
  refine .get_bind ?_
  split
  · exact .fault
  · exact .pure trivial

theorem invoke (hev : ev.Orderly strict) (function : String) {o : Overload} {args : List Value}
    (this : Option Value) (hs : T.Fits s) (hargs : o.Admits args) :
    T.Conducted (fun v => ∀ ty, o.returnType = some ty → ty.Admits v) s
      (ev.invoke function o args this s) := by
  refine .bind hs checkDepth fun t _ ht _ _ => ?_
  rw [Exec.roomy_eq]
  exact .deeper ht fun u hu => hev.runOverload function this hu hargs

theorem callFunction (hev : ev.Orderly strict) (f : Function) (args : List Value)
    (this : Option Value) (hs : T.Fits s) :
    T.Conducted (fun _ => True) s (ev.callFunction f args this s) := by
  unfold Evaluator.callFunction
  rw [Evaluator.select_eq]
  refine .ask_bind fun o ho => ?_
  exact (hev.invoke f.name this hs (State.admits_of_selected ho)).mono fun _ _ => trivial

/-! ## Members -/

theorem store {slot : MemberSlot} {name : String} {m : Member} {v : Value}
    (hm : s.Holds slot name m) (hwritable : m.readonly = false) (hv : strict → m.ty.Admits v) :
    T.Conducted (fun _ => True) s (Evaluator.store slot name v s) := by
  obtain ⟨c, hc, hstatic, hget⟩ := hm
  refine .ask_bind fun found _ => ?_
  split
  · have hproper : (Change.setMember slot name v).Proper T s :=
      ⟨c, m, hc, hstatic, hget, hwritable, hv⟩
    exact .change (a := ()) _ hproper trivial
  · exact .fault

/-- The frame of an accessor is older than the run of its body. On these terms `field` keeps its
type, and the state after the body is null-safe; so is what the body leaves behind. -/
theorem runAccessorBody (hev : ev.Orderly strict) (code : AccessorCode) (scope : Scope)
    {field : Value} {b : Binding} (hs : T.Fits s) (hscope : T.base ≤ scope.inner)
    (hlocal : s.frames.local? scope.inner "field" = some b) :
    T.Conducted (fun r => strict → b.ty.Admits r.2) s (ev.runAccessorBody code scope field s) := by
  unfold Evaluator.runAccessorBody
  rw [Exec.roomy_eq]
  have hbody : ∀ T' : Terms strict, T'.Fits s → T'.Opens scope.inner →
      T'.Conducted (fun _ => True) s
        (deeper (Exec.asCodeOf code.owner (ev.exec scope code.body)) s) := by
    intro T' hfits hopens
    refine .deeper hfits fun t ht => ?_
    exact .asCodeOf code.owner ht fun u hu => hev.exec scope code.body hu fun _ => hopens
  let T' : Terms strict := { base := s.frames.size, free := fun id => id = scope.inner }
  refine .bind_also hs (hbody T hs (Or.inl hscope))
    (hbody T' ⟨Nat.le_refl _, hs.nullSafe⟩ (Or.inr rfl)) fun t flow ht _ hst _ => ?_
  refine .get_bind ?_
  obtain ⟨b', hlocal', hstays⟩ :=
    hst.binding scope.inner (Frames.lt_size_of_local? hlocal) "field" b hlocal
  have hfield : strict → b.ty.Admits b'.value := by
    intro hstrict
    rw [← hstays.ty]
    exact (ht.nullSafe hstrict).local? hlocal'
  simp only [hlocal', Option.map_some, Option.getD_some]
  cases flow with
  | returned value => exact .pure hfield
  | normal value => exact .pure hfield

theorem runAccessor (hev : ev.Orderly strict) (code : AccessorCode) (this : Value) {ty : Ty}
    {field : Value} {value : Option Value} (hs : T.Fits s) (hfield : strict → ty.Admits field)
    (hvalue : ∀ v, value = some v → strict → ty.Admits v) :
    T.Conducted (fun r => strict → ty.Admits r.2) s
      (ev.runAccessor code this ty field value s) := by
  refine .bind hs checkDepth fun t _ ht _ _ => ?_
  refine .change_bind .frame ht rfl trivial fun hframe => ?_
  have hbase : T.base ≤ t.frames.size := ht.base
  have hnew : t.frames.size < (t.apply .frame).frames.size := by simp [State.apply]
  refine .bind hframe (bindThis this hbase) fun u _ hu htu _ => ?_
  have hthere : t.frames.size < u.frames.size := Nat.lt_of_lt_of_le hnew htu.size
  have hproper : ∀ {w : State} (name : String) {v : Value}, (strict → ty.Admits v) →
      (Change.bind t.frames.size name ⟨ty, v, false⟩).Proper T w := fun name v hv =>
    ⟨fun _ hlt => absurd hlt (Nat.not_lt.mpr hbase), fun _ => Or.inl hbase, hv⟩
  refine .change_bind (.bind t.frames.size "field" ⟨ty, field, false⟩) hu rfl
    (hproper "field" hfield) fun hw => ?_
  have hlocal := Frames.local?_define_self hthere "field" ⟨ty, field, false⟩
  cases value with
  | none => exact hev.runAccessorBody code (code.scope.child t.frames.size) hw hbase hlocal
  | some v =>
      refine .change_bind (.bind t.frames.size "value" ⟨ty, v, false⟩) hw rfl
        (hproper "value" (hvalue v rfl)) fun hx => ?_
      refine hev.runAccessorBody code (code.scope.child t.frames.size) hx hbase
        (b := ⟨ty, field, false⟩) ?_
      exact (Frames.local?_define_of_ne _ _ (by simp)).trans hlocal

theorem memberGet (hev : ev.Orderly strict) (object : Value) (name : String) (hs : T.Fits s) :
    T.Conducted (fun _ => True) s (ev.memberGet object name s) := by
  refine .ask_bind fun found hfound => ?_
  obtain ⟨handle, slot, m⟩ := found
  have hm := State.holds_of_accessed hfound
  cases hform : m.form with
  | field readonly =>
      simp only [hform]
      exact .pure trivial
  | property getter setter =>
      simp only [hform]
      cases getter with
      | none => exact .pure trivial
      | some getter =>
          refine .bind hs (hev.runAccessor getter object hs (fun hstrict =>
            (hs.nullSafe hstrict).holds hm) nofun) fun t r ht hst hr => ?_
          obtain ⟨m', hm', hstays⟩ := hst.holds hm
          have hwritable : m'.readonly = false := by
            rw [hstays.readonly_eq, Member.readonly, hform]
          refine .bind ht (store hm' hwritable fun hstrict => ?_) fun u _ _ _ _ => .pure trivial
          rw [hstays.ty]
          exact hr hstrict

theorem memberSet (hev : ev.Orderly strict) (object : Value) (name : String) (value : Value)
    (hs : T.Fits s) : T.Conducted (fun _ => True) s (ev.memberSet object name value s) := by
  refine .ask_bind fun found hfound => ?_
  obtain ⟨handle, slot, m⟩ := found
  have hm := State.holds_of_accessed hfound
  refine .ask_bind fun c _ => ?_
  dsimp only
  cases hwritable : m.readonly with
  | true => exact .fault
  | false =>
      refine .ask_bind fun valueTy hvalueTy => ?_
      refine .ask_bind fun fits hfits => ?_
      cases fits with
      | false => exact .fault
      | true =>
          have hvalue := State.admits_of_fits hvalueTy hfits
          cases m.form with
          | field readonly =>
              refine .bind hs (store hm hwritable fun _ => hvalue) fun _ _ _ _ _ => ?_
              exact .pure trivial
          | property getter setter =>
              cases setter with
              | none => exact .fault
              | some setter =>
                  refine .bind hs (hev.runAccessor setter object hs (fun hstrict =>
                    (hs.nullSafe hstrict).holds hm) fun v hv _ => ?_) fun t r ht hst hr => ?_
                  · cases hv
                    exact hvalue
                  · obtain ⟨m', hm', hstays⟩ := hst.holds hm
                    have hwritable' : m'.readonly = false := hstays.readonly_eq.trans hwritable
                    refine .bind ht (store hm' hwritable' fun hstrict => ?_)
                      fun _ _ _ _ _ => .pure trivial
                    rw [hstays.ty]
                    exact hr hstrict

/-! ## Objects and operators -/

theorem construct (hev : ev.Orderly strict) (cls : Handle) (args : List Value) (hs : T.Fits s) :
    T.Conducted (fun _ => True) s (ev.construct cls args s) := by
  refine .ask_bind fun _ _ => ?_
  refine .ask_bind fun c hc => ?_
  rw [Evaluator.select_eq]
  refine .ask_bind fun o ho => ?_
  refine .change_bind (.addInstance c cls) hs rfl hc fun ht => ?_
  refine .bind ht (hev.invoke c.name _ ht (State.admits_of_selected ho)) fun _ _ _ _ _ => ?_
  exact .pure trivial

theorem overloaded (hev : ev.Orderly strict) (op : BinOp) (left right : Value) (hs : T.Fits s) :
    T.Conducted (fun _ => True) s (ev.overloaded op left right s) := by
  refine .ask_bind fun found hfound => ?_
  cases found with
  | none => exact .pure trivial
  | some found =>
      have hargs := State.admits_of_binaryOverload hfound
      exact .map (hev.invoke found.1 (some left) hs hargs) fun _ _ => trivial

theorem binary (hev : ev.Orderly strict) (op : BinOp) (left right : Value) (hs : T.Fits s) :
    T.Conducted (fun _ => True) s (ev.binary op left right s) := by
  have hrefusal : ∀ {t : State}, T.Conducted (fun _ => True) t
      ((do fault (.noOperation op (← ask (·.typeOf left)) (← ask (·.typeOf right))) :
        Exec Value) t) := by
    intro t
    refine .ask_bind fun _ _ => ?_
    exact .ask_bind fun _ _ => .fault
  unfold Evaluator.binary
  by_cases hop : op = .eq ∨ op = .ne
  · rw [if_pos hop]
    refine .bind hs (hev.overloaded op left right hs) fun t r _ _ _ => ?_
    cases r with
    | some v => exact .pure trivial
    | none => exact .ask_bind fun _ _ => .pure trivial
  · rw [if_neg hop]
    refine .ask_bind fun r _ => ?_
    cases r with
    | some v => exact .pure trivial
    | none =>
        cases op.overloadable with
        | false => exact hrefusal
        | true =>
            refine .bind hs (hev.overloaded op left right hs) fun t r _ _ _ => ?_
            cases r with
            | some v => exact .pure trivial
            | none => exact hrefusal

theorem unary (hev : ev.Orderly strict) (op : UnOp) (operand : Value) (hs : T.Fits s) :
    T.Conducted (fun _ => True) s (ev.unary op operand s) := by
  refine .ask_bind fun found _ => ?_
  cases found with
  | some found =>
      have hnone : found.2.Admits [] := by simp [Overload.Admits]
      exact (hev.invoke found.1 (some operand) hs hnone).mono fun _ _ => trivial
  | none =>
      cases op with
      | not => exact .pure trivial
      | plus | neg | bitNot => exact .ask_bind fun _ _ => .pure trivial

end Evaluator.Orderly

end ClassScript

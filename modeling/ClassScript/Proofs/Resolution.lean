import ClassScript.Proofs.Conduct
import ClassScript.Run.Operator
import Mathlib.Data.List.Forall2

/-!
# What a selected overload can take

An overload that a call selects takes each argument of the call: the argument has the very type of
its parameter or one that fits it. In particular null goes to no parameter whose type keeps it out.
-/

namespace ClassScript

/-! ## Types -/

namespace Ty

theorem assignable_self (lineage : Lineage) (ty : Ty) : assignable lineage ty ty = true := by
  unfold assignable
  split
  · next hnullable => simp [acceptsNull, hnullable]
  · simp [covariant]

@[simp]
theorem assignable_null (lineage : Lineage) (target : Ty) :
    assignable lineage .null target = target.acceptsNull :=
  rfl

theorem ExcludesNull.acceptsNull_eq {ty : Ty} (h : ty.ExcludesNull) : ty.acceptsNull = false := by
  have hprimitive : ty.isPrimitive = true := decide_eq_true h.2
  rw [acceptsNull, h.1, hprimitive]
  rfl

end Ty

namespace State

@[simp]
theorem typeOf_null (s : State) : s.typeOf .null = .ok .null :=
  rfl

/-- A value of a type that fits a slot can stand there, as far as null is concerned. -/
theorem admits_of_assignable {s : State} {v : Value} {ty target : Ty} {lineage : Lineage}
    (hty : s.typeOf v = .ok ty) (h : Ty.assignable lineage ty target = true) : target.Admits v := by
  rintro htarget rfl
  rw [typeOf_null] at hty
  cases hty
  rw [Ty.assignable_null, htarget.acceptsNull_eq] at h
  cases h

theorem admits_typeOf {s : State} {v : Value} {ty : Ty} (hty : s.typeOf v = .ok ty) :
    ty.Admits v :=
  admits_of_assignable hty (Ty.assignable_self ⟨s.registry, []⟩ ty)

theorem admits_of_fits {s : State} {v : Value} {ty target : Ty} (hty : s.typeOf v = .ok ty)
    (h : s.fits v ty target = .ok true) : target.Admits v := by
  obtain ⟨lineage, _, hfits⟩ := exists_answer_of_bind_eq_ok h
  exact admits_of_assignable hty (Except.ok.inj hfits)

/-- The types of values, one by one. -/
theorem forall₂_typeOf {s : State} {args : List Value} {types : List Ty}
    (h : args.mapM s.typeOf = .ok types) :
    List.Forall₂ (fun v ty => s.typeOf v = .ok ty) args types := by
  induction args generalizing types with
  | nil =>
      cases h
      exact .nil
  | cons v args ih =>
      rw [List.mapM_cons] at h
      obtain ⟨ty, hv, h⟩ := exists_answer_of_bind_eq_ok h
      obtain ⟨rest, hargs, h⟩ := exists_answer_of_bind_eq_ok h
      cases h
      exact .cons hv (ih hargs)

end State

/-! ## Choices -/

namespace Overload

theorem compatible_of_exact (lineage : Lineage) {o : Overload} {args : List Ty}
    (h : o.exact args = true) : o.compatible lineage args = true := by
  have htypes : o.types = args := of_decide_eq_true h
  unfold compatible
  rw [htypes, List.all_eq_true]
  rintro ⟨param, arg⟩ hmem
  obtain rfl : param = arg := by
    rw [← List.map_id args, List.zip_map'] at hmem
    obtain ⟨ty, _, hty⟩ := List.mem_map.mp hmem
    cases hty
    rfl
  exact Ty.assignable_self lineage param

theorem acceptsCount_of_exact {o : Overload} {args : List Ty} (h : o.exact args = true) :
    o.acceptsCount args.length = true := by
  have htypes : o.types = args := of_decide_eq_true h
  have hlength : args.length = o.params.length := by
    rw [← htypes, types, List.length_map]
  have hrequired : o.requiredCount ≤ o.params.length := List.length_filter_le ..
  simp [acceptsCount, hlength, hrequired]

/-- A choice is one of the overloads that a call could mean. -/
theorem compatible_of_mem_choices {α : Type} {overload : α → Overload} {lineage : Lineage}
    {args : List Ty} {all : List α} {a : α} (h : a ∈ choices overload lineage args all) :
    (overload a).compatible lineage args = true := by
  unfold choices at h
  dsimp only at h
  split at h
  · next found hfound =>
      rw [List.mem_singleton.mp h]
      have hexact := List.find?_some hfound
      exact compatible_of_exact lineage hexact
  · exact (List.mem_filter.mp h).2

theorem mem_choices_of_choose {α : Type} {overload : α → Overload} {function : String}
    {lineage : Lineage} {args : List Ty} {all : List α} {a : α}
    (h : choose overload function lineage args all = .ok a) :
    a ∈ choices overload lineage args all := by
  unfold choose at h
  split at h
  · next found hfound =>
      cases h
      rw [hfound]
      exact List.mem_singleton_self a
  · cases h
  · cases h

def Admits (o : Overload) (args : List Value) : Prop :=
  ∀ entry ∈ o.params.zip args, entry.1.ty.Admits entry.2

theorem admits_of_compatible {s : State} {o : Overload} {args : List Value} {types : List Ty}
    {lineage : Lineage} (htypes : List.Forall₂ (fun v ty => s.typeOf v = .ok ty) args types)
    (h : o.compatible lineage types = true) : o.Admits args := by
  unfold Admits
  unfold compatible Overload.types at h
  generalize o.params = params at h ⊢
  induction htypes generalizing params with
  | nil => simp
  | cons hv _ ih =>
      cases params with
      | nil => simp
      | cons p params =>
          simp only [List.map_cons, List.zip_cons_cons, List.all_cons, Bool.and_eq_true] at h
          intro entry hentry
          rcases List.mem_cons.mp hentry with rfl | hentry
          · exact State.admits_of_assignable hv h.1
          · exact ih params h.2 entry hentry

end Overload

theorem Function.admits_of_resolve {f : Function} {s : State} {args : List Value}
    {types : List Ty} {lineage : Lineage} {o : Overload}
    (htypes : args.mapM s.typeOf = .ok types) (h : f.resolve lineage types = .ok o) :
    o.Admits args := by
  have hcompatible := Overload.compatible_of_mem_choices (Overload.mem_choices_of_choose h)
  exact Overload.admits_of_compatible (State.forall₂_typeOf htypes) hcompatible

def State.selected (s : State) (f : Function) (args : List Value) : Except Fault Overload := do
  let types ← args.mapM s.typeOf
  f.resolve (← s.lineageOf args) types

theorem Evaluator.select_eq (f : Function) (args : List Value) :
    Evaluator.select f args = Exec.ask fun s => s.selected f args :=
  rfl

theorem State.admits_of_selected {s : State} {f : Function} {args : List Value} {o : Overload}
    (h : s.selected f args = .ok o) : o.Admits args := by
  obtain ⟨types, htypes, h⟩ := exists_answer_of_bind_eq_ok h
  obtain ⟨lineage, _, h⟩ := exists_answer_of_bind_eq_ok h
  exact Function.admits_of_resolve htypes h

/-- An operator that is found for two operands takes the right one. -/
theorem State.admits_of_binaryOverload {s : State} {op : BinOp} {left right : Value}
    {name : String} {o : Overload} (h : s.binaryOverload op left right = .ok (some (name, o))) :
    o.Admits [right] := by
  obtain ⟨cls, _, h⟩ := exists_answer_of_bind_eq_ok h
  cases hop : cls.bind fun c => c.binaryOps.get? op with
  | none =>
      rw [hop] at h
      cases h
  | some f =>
      rw [hop] at h
      obtain ⟨ty, hty, h⟩ := exists_answer_of_bind_eq_ok h
      obtain ⟨lineage, _, h⟩ := exists_answer_of_bind_eq_ok h
      split at h
      · cases h
      · obtain ⟨found, hresolve, h⟩ := exists_answer_of_bind_eq_ok h
        cases h
        have htypes : [right].mapM s.typeOf = .ok [ty] := by
          rw [List.mapM_cons, hty]
          rfl
        exact Function.admits_of_resolve htypes hresolve

end ClassScript

import ClassScript.Proofs.Formation
import Mathlib.Data.List.Nodup
import Mathlib.Data.List.Perm.Basic

/-!
# Which overload a call selects

The overloads of a function are added one after the other, and each has to pass a check against
those before it. Two facts follow from the checks. The overload that a call selects can be said
without the order in which overloads are looked through: the one with the very types of the
arguments, or else the only one that accepts them. And overloads that can be added in one order can
be added in any order, with the same outcome for every call.
-/

namespace ClassScript

/-! ## Functions built from overloads -/

def Function.build (name : String) (overloads : List Overload) : Except Fault Function :=
  overloads.foldlM Function.add { name }

namespace Function.Formed

variable {f g : Function}

theorem sublist (h : f.Formed) (hsub : g.overloads.Sublist f.overloads) : g.Formed where
  ordered o ho := h.ordered o (hsub.subset ho)
  types := h.types.sublist hsub
  requiredTypes := h.requiredTypes.sublist hsub

theorem perm (h : f.Formed) (hperm : f.overloads.Perm g.overloads) : g.Formed where
  ordered o ho := h.ordered o (hperm.mem_iff.mpr ho)
  types := (hperm.pairwise_iff Ne.symm).mp h.types
  requiredTypes := (hperm.pairwise_iff Ne.symm).mp h.requiredTypes

theorem nodup_types (h : f.Formed) : (f.overloads.map Overload.types).Nodup :=
  List.pairwise_map.mpr h.types

theorem nodup (h : f.Formed) : f.overloads.Nodup :=
  h.nodup_types.of_map

/-- An overload is known by its parameter types. -/
theorem eq_of_types (h : f.Formed) {a b : Overload} (ha : a ∈ f.overloads) (hb : b ∈ f.overloads)
    (heq : a.types = b.types) : a = b :=
  List.inj_on_of_nodup_map h.nodup_types ha hb heq

theorem foldlM_add_eq_ok_iff (hf : f.Formed) {overloads : List Overload} :
    overloads.foldlM Function.add f = .ok g ↔
      g = { f with overloads := f.overloads ++ overloads } ∧ g.Formed := by
  induction overloads generalizing f with
  | nil =>
      rw [List.foldlM_nil, List.append_nil]
      constructor
      · intro h
        cases h
        exact ⟨rfl, hf⟩
      · rintro ⟨rfl, _⟩
        rfl
  | cons o overloads ih =>
      have happend : f.overloads ++ o :: overloads = (f.push o).overloads ++ overloads :=
        List.append_cons ..
      rw [List.foldlM_cons, happend]
      constructor
      · intro h
        obtain ⟨next, hadd, h⟩ := exists_answer_of_bind_eq_ok h
        obtain ⟨rfl, hnext⟩ := hf.add_eq_ok_iff.mp hadd
        exact (ih hnext).mp h
      · rintro ⟨hg, hformed⟩
        have hnext : (f.push o).Formed := by
          refine hformed.sublist ?_
          rw [hg]
          exact List.sublist_append_left ..
        rw [hf.add_eq_ok_iff.mpr ⟨rfl, hnext⟩]
        exact (ih hnext).mpr ⟨hg, hformed⟩

end Function.Formed

/-- A function can be built exactly when it is formed. -/
theorem Function.build_eq_ok_iff {name : String} {overloads : List Overload} {f : Function} :
    build name overloads = .ok f ↔ f = { name, overloads } ∧ f.Formed :=
  (formed_empty name).foldlM_add_eq_ok_iff

/-! ## Which overload is meant -/

/-- An overload accepts arguments of some types: each parameter without a default has an argument,
each argument has a parameter, and where there are both, the one can be assigned to the other. -/
structure Overload.Accepts (lineage : Lineage) (args : List Ty) (o : Overload) : Prop where
  supplied : Supplied o.params args.length
  bounded : args.length ≤ o.params.length
  assignable : ∀ (i : Nat) (p : Param) (ty : Ty), o.params[i]? = some p → args[i]? = some ty →
    Ty.assignable lineage ty p.ty = true

/-- What a call of the function with some overloads comes to, in whatever order they are. -/
inductive Selects (name : String) (overloads : List Overload) (lineage : Lineage) (args : List Ty) :
    Except Fault Overload → Prop
  | exact {o : Overload} (ho : o ∈ overloads) (htypes : o.types = args)
      (honly : ∀ other ∈ overloads, other.types = args → other = o) :
      Selects name overloads lineage args (.ok o)
  | accepting {o : Overload} (hinexact : ∀ other ∈ overloads, other.types ≠ args)
      (ho : o ∈ overloads) (haccepts : o.Accepts lineage args)
      (honly : ∀ other ∈ overloads, other.Accepts lineage args → other = o) :
      Selects name overloads lineage args (.ok o)
  | nothing (hinexact : ∀ other ∈ overloads, other.types ≠ args)
      (hnone : ∀ other ∈ overloads, ¬ other.Accepts lineage args) :
      Selects name overloads lineage args (.error (.noOverload name args))
  | several {many : List Overload} (hinexact : ∀ other ∈ overloads, other.types ≠ args)
      (hnodup : many.Nodup) (hmany : ∀ o, o ∈ many ↔ o ∈ overloads ∧ o.Accepts lineage args)
      (hlength : 2 ≤ many.length) :
      Selects name overloads lineage args (.error (.ambiguousCall name many.length args))

theorem Supplied.length_filter_le {params : List Param} {count : Nat} (h : Supplied params count) :
    (params.filter Param.required).length ≤ count := by
  have hrest : (params.drop count).filter Param.required = [] := by
    refine List.filter_eq_nil_iff.mpr fun p hp hrequired => ?_
    obtain ⟨i, hi⟩ := List.getElem?_of_mem hp
    rw [List.getElem?_drop] at hi
    exact absurd (h _ p hi hrequired) (Nat.not_lt.mpr (Nat.le_add_right count i))
  calc (params.filter Param.required).length
      = ((params.take count).filter Param.required).length := by
        conv_lhs => rw [← List.take_append_drop count params]
        rw [List.filter_append, hrest, List.append_nil]
    _ ≤ (params.take count).length := List.length_filter_le ..
    _ ≤ count := List.length_take_le ..

namespace Overload

variable {lineage : Lineage} {args : List Ty} {o : Overload}

theorem compatible_iff : o.compatible lineage args = true ↔
    ∀ (i : Nat) (p : Param) (ty : Ty), o.params[i]? = some p → args[i]? = some ty →
      Ty.assignable lineage ty p.ty = true := by
  unfold compatible
  rw [List.all_eq_true]
  constructor
  · intro h i p ty hp hty
    refine h (p.ty, ty) (List.mem_of_getElem? (List.getElem?_zip_eq_some.mpr ⟨?_, hty⟩))
    rw [types, List.getElem?_map, hp]
    rfl
  · rintro h ⟨param, ty⟩ hmem
    obtain ⟨i, hi⟩ := List.getElem?_of_mem hmem
    obtain ⟨hparam, hty⟩ := List.getElem?_zip_eq_some.mp hi
    rw [types, List.getElem?_map] at hparam
    obtain ⟨p, hp, rfl⟩ := Option.map_eq_some_iff.mp hparam
    exact h i p ty hp hty

/-- The order of parameters is what makes their number tell which of them have an argument. -/
theorem accepts_iff (h : RequiredFirst o.params) : o.Accepts lineage args ↔
    o.acceptsCount args.length = true ∧ o.compatible lineage args = true := by
  constructor
  · rintro ⟨hsupplied, hbounded, hassignable⟩
    have hcount : o.requiredCount ≤ args.length := hsupplied.length_filter_le
    exact ⟨by simp [acceptsCount, hcount, hbounded], compatible_iff.mpr hassignable⟩
  · rintro ⟨hcount, hcompatible⟩
    refine ⟨h.supplied hcount, ?_, compatible_iff.mp hcompatible⟩
    simp only [acceptsCount, Bool.and_eq_true, decide_eq_true_eq] at hcount
    exact hcount.2

end Overload

namespace Selects

variable {name : String} {overloads : List Overload} {lineage : Lineage} {args : List Ty}

/-- Several overloads are at least two different ones. -/
theorem exists_ne_of_several {many : List Overload} (hnodup : many.Nodup)
    (hmany : ∀ o, o ∈ many ↔ o ∈ overloads ∧ o.Accepts lineage args) (hlength : 2 ≤ many.length) :
    ∃ a ∈ overloads, ∃ b ∈ overloads, a.Accepts lineage args ∧ b.Accepts lineage args ∧ a ≠ b := by
  match many with
  | a :: b :: rest =>
      obtain ⟨ha, ha'⟩ := (hmany a).mp List.mem_cons_self
      obtain ⟨hb, hb'⟩ := (hmany b).mp (List.mem_cons_of_mem _ List.mem_cons_self)
      exact ⟨a, ha, b, hb, ha', hb', List.ne_of_not_mem_cons (List.nodup_cons.mp hnodup).1⟩

theorem unique {r r' : Except Fault Overload} (h : Selects name overloads lineage args r)
    (h' : Selects name overloads lineage args r') : r = r' := by
  have hone : ∀ {o : Overload} {many : List Overload},
      (∀ other ∈ overloads, other.Accepts lineage args → other = o) → many.Nodup →
      (∀ o, o ∈ many ↔ o ∈ overloads ∧ o.Accepts lineage args) → ¬ 2 ≤ many.length := by
    intro o many honly hnodup hmany hlength
    obtain ⟨a, ha, b, hb, ha', hb', hne⟩ := exists_ne_of_several hnodup hmany hlength
    exact hne ((honly a ha ha').trans (honly b hb hb').symm)
  cases h with
  | exact ho htypes honly =>
      cases h' with
      | exact ho' htypes' _ => rw [honly _ ho' htypes']
      | accepting hinexact | nothing hinexact | several hinexact =>
          exact absurd htypes (hinexact _ ho)
  | accepting hinexact ho haccepts honly =>
      cases h' with
      | exact ho' htypes' => exact absurd htypes' (hinexact _ ho')
      | accepting _ ho' haccepts' _ => rw [honly _ ho' haccepts']
      | nothing _ hnone => exact absurd haccepts (hnone _ ho)
      | several _ hnodup hmany hlength => exact absurd hlength (hone honly hnodup hmany)
  | nothing hinexact hnone =>
      cases h' with
      | exact ho' htypes' => exact absurd htypes' (hinexact _ ho')
      | accepting _ ho' haccepts' => exact absurd haccepts' (hnone _ ho')
      | nothing => rfl
      | several _ hnodup hmany hlength =>
          obtain ⟨a, ha, _, _, haccepts, _⟩ := exists_ne_of_several hnodup hmany hlength
          exact absurd haccepts (hnone a ha)
  | several hinexact hnodup hmany hlength =>
      cases h' with
      | exact ho' htypes' => exact absurd htypes' (hinexact _ ho')
      | accepting _ _ _ honly => exact absurd hlength (hone honly hnodup hmany)
      | nothing _ hnone =>
          obtain ⟨a, ha, _, _, haccepts, _⟩ := exists_ne_of_several hnodup hmany hlength
          exact absurd haccepts (hnone a ha)
      | several _ hnodup' hmany' _ =>
          have hperm := (List.perm_ext_iff_of_nodup hnodup hnodup').mpr fun o =>
            (hmany o).trans (hmany' o).symm
          rw [hperm.length_eq]

/-- Only which overloads there are counts. -/
theorem congr {others : List Overload} (heq : ∀ o, o ∈ overloads ↔ o ∈ others)
    {r : Except Fault Overload} (h : Selects name overloads lineage args r) :
    Selects name others lineage args r := by
  cases h with
  | exact ho htypes honly =>
      exact .exact ((heq _).mp ho) htypes fun a ha => honly a ((heq a).mpr ha)
  | accepting hinexact ho haccepts honly =>
      exact .accepting (fun a ha => hinexact a ((heq a).mpr ha)) ((heq _).mp ho) haccepts
        fun a ha => honly a ((heq a).mpr ha)
  | nothing hinexact hnone =>
      exact .nothing (fun a ha => hinexact a ((heq a).mpr ha)) fun a ha => hnone a ((heq a).mpr ha)
  | several hinexact hnodup hmany hlength =>
      exact .several (fun a ha => hinexact a ((heq a).mpr ha)) hnodup
        (fun o => (hmany o).trans (and_congr_left' (heq o))) hlength

end Selects

namespace Function.Formed

variable {f : Function}

/-- The overloads that are looked at when none is exact. -/
theorem mem_fitting_iff (h : f.Formed) (lineage : Lineage) (args : List Ty) (o : Overload) :
    o ∈ (f.overloads.filter fun o => o.acceptsCount args.length).filter
        (fun o => o.compatible lineage args) ↔
      o ∈ f.overloads ∧ o.Accepts lineage args := by
  rw [List.mem_filter, List.mem_filter, and_assoc]
  exact and_congr_right fun ho => (Overload.accepts_iff (h.ordered o ho)).symm

theorem selects_resolve (h : f.Formed) (lineage : Lineage) (args : List Ty) :
    Selects f.name f.overloads lineage args (f.resolve lineage args) := by
  unfold resolve Overload.choose Overload.choices
  simp only [id]
  cases hfind : (f.overloads.filter fun o => o.acceptsCount args.length).find?
      (fun o => o.exact args) with
  | some o =>
      have ho : o ∈ f.overloads := (List.mem_filter.mp (List.mem_of_find?_eq_some hfind)).1
      have hexact := List.find?_some hfind
      have htypes : o.types = args := of_decide_eq_true hexact
      exact .exact ho htypes fun other hother hsame =>
        h.eq_of_types hother ho (hsame.trans htypes.symm)
  | none =>
      have hinexact : ∀ other ∈ f.overloads, other.types ≠ args := by
        intro other hother htypes
        have hexact : other.exact args = true := decide_eq_true htypes
        refine List.find?_eq_none.mp hfind other (List.mem_filter.mpr ⟨hother, ?_⟩) hexact
        exact Overload.acceptsCount_of_exact hexact
      have hmem := fun o => h.mem_fitting_iff lineage args o
      have hnodup := (h.nodup.filter fun o => o.acceptsCount args.length).filter
        fun o => o.compatible lineage args
      dsimp only
      generalize (f.overloads.filter fun o => o.acceptsCount args.length).filter
        (fun o => o.compatible lineage args) = fitting at hmem hnodup
      match fitting with
      | [] =>
          exact .nothing hinexact fun other hother haccepts =>
            absurd ((hmem other).mpr ⟨hother, haccepts⟩) List.not_mem_nil
      | [o] =>
          obtain ⟨ho, haccepts⟩ := (hmem o).mp (List.mem_singleton_self o)
          exact .accepting hinexact ho haccepts fun other hother haccepts' =>
            List.mem_singleton.mp ((hmem other).mpr ⟨hother, haccepts'⟩)
      | _ :: _ :: _ => exact .several hinexact hnodup hmem (by simp)

end Function.Formed

/-- Let a function be built from some overloads. Then a call of it comes to what `Selects` says, and
to nothing else, whatever the types of its arguments and whoever their ancestors are. To find none
is an error about types. In any other order the function can be built from the overloads as well,
and every call comes to the same. -/
theorem Function.resolve_of_build {name : String} {overloads : List Overload} {f : Function}
    (h : build name overloads = .ok f) :
    (∀ lineage args r, f.resolve lineage args = r ↔ Selects name overloads lineage args r) ∧
      (∀ args, (Fault.noOverload name args).kind = .type) ∧
      ∀ others, overloads.Perm others → ∃ g, build name others = .ok g ∧
        ∀ lineage args, g.resolve lineage args = f.resolve lineage args := by
  obtain ⟨rfl, hf⟩ := build_eq_ok_iff.mp h
  refine ⟨fun lineage args r => ⟨?_, fun hr => ?_⟩, fun _ => rfl, fun others hperm => ?_⟩
  · rintro rfl
    exact hf.selects_resolve lineage args
  · exact (hf.selects_resolve lineage args).unique hr
  · have hg : Formed { name, overloads := others } := hf.perm hperm
    refine ⟨_, build_eq_ok_iff.mpr ⟨rfl, hg⟩, fun lineage args => ?_⟩
    have hmem : ∀ o, o ∈ others ↔ o ∈ overloads := fun o => hperm.mem_iff.symm
    exact ((hg.selects_resolve lineage args).congr hmem).unique (hf.selects_resolve lineage args)

/-- A function with one overload for numbers and one for objects, to which a text can be added. -/
theorem Function.resolve_of_build_pair :
    let number := Overload.native [⟨"x", .number, none⟩] none .print
    let object :=
      Overload.native [⟨"x", .object, none⟩, ⟨"y", .string, some (.string "")⟩] none .print
    ∃ f g, build "show" [number, object] = .ok f ∧ build "show" [object, number] = .ok g ∧
      ∀ lineage args, g.resolve lineage args = f.resolve lineage args := by
  intro number object
  have hf : build "show" [number, object] = .ok { name := "show", overloads := [number, object] } :=
    rfl
  obtain ⟨g, hg, hsame⟩ := (Function.resolve_of_build hf).2.2 [object, number] (.swap ..)
  exact ⟨_, g, hf, hg, hsame⟩

end ClassScript

import ClassScript.Proofs.CustodyCode
import ClassScript.Proofs.NullSafety

/-!
# No call misses an argument

The functions in the state of a session are formed at any moment: wherever a function comes from, a
declaration, a class body or what a class inherits, its overloads ask for required parameters first
and can be told apart. So the overload that a call selects has an argument for each required
parameter, and no run fails because one is missing.
-/

namespace ClassScript

/-! ## The start and collections -/

theorem Builtin.formed_printer (name : String) (code : Native) : (printer name code).Formed := by
  have hdistinct : [Ty.string, .number, .boolean, .object].Pairwise fun a b => [a] ≠ [b] := by
    decide
  refine ⟨fun o ho => ?_, List.pairwise_map.mpr hdistinct, List.pairwise_map.mpr hdistinct⟩
  obtain ⟨ty, _, rfl⟩ := List.mem_map.mp ho
  exact List.pairwise_singleton _ _

theorem Builtin.formed_plainClass (name : String) (parent : Option Handle) :
    (plainClass name parent).Formed := by
  refine .bare (Function.formed_push_iff.mpr ⟨Function.formed_empty name, .nil, ?_, ?_⟩)
  all_goals
    intro _ ha
    exact absurd ha List.not_mem_nil

namespace State.Formed

variable {s : State}

theorem startOn (sink : Sink) : (State.startOn sink).Formed where
  binding id frame hframe b hb := by
    have hid : id < 1 := (Array.getElem?_eq_some_iff.mp hframe).1
    obtain rfl := Nat.lt_one_iff.mp hid
    obtain rfl : Builtin.frame = frame := Option.some.inj hframe
    simp only [Builtin.frame, Assoc.values, List.map_cons, List.map_nil, List.mem_cons,
      List.not_mem_nil, or_false] at hb
    rcases hb with rfl | rfl | rfl | rfl | rfl
    · trivial
    · trivial
    · trivial
    · exact Builtin.formed_printer "print" .print
    · exact Builtin.formed_printer "println" .println
  lists id v hv := absurd (Lists.lt_size_of_mem_elements hv) (Nat.not_lt_zero _)
  container handle c hc := by
    rcases startOn_get hc with ⟨rfl, rfl⟩ | ⟨rfl, rfl⟩ | ⟨rfl, rfl⟩
    · exact Builtin.formed_plainClass "Object" none
    · exact Builtin.formed_plainClass "Type" (some 0)
    · refine { Builtin.formed_plainClass "String" (some 0) with member := fun isStatic m hm => ?_ }
      cases isStatic <;> (rw [List.mem_singleton.mp hm]; trivial)
  kept := Value.formed_none

theorem collectGarbage (h : s.Formed) : s.collectGarbage.1.Formed where
  binding := h.binding
  lists := h.lists
  container handle c hc := h.container handle c (get_collectGarbage.mp hc).1
  kept := h.kept

end State.Formed

/-! ## Actions -/

/-- An action ends in a formed state, its result satisfies `Q`, and it does not fail for want of an
argument. -/
def Exec.EndsFormed {α : Type} (x : Exec α) (Q : α → Prop) (s : State) : Prop :=
  (x.final s).Formed ∧ (∀ a t, x s = .ok a t → Q a) ∧
    ∀ parameter function t, x s ≠ .error (.fault (.missingArgument parameter function)) t

/-- Formed functions, any accessors and any assignments, and no missing argument. -/
def Custody.forming : Custody where
  contents := .formed
  strict := True
  watches _ := False
  formed _ _ hf := hf
  spared _ hx := hx.elim
  accessor _ := ⟨fun _ _ hx => hx.elim, fun _ => trivial⟩
  add _ _ _ hf _ hadd := (hf.add_eq_ok_iff.mp hadd).2

namespace Custody

theorem holds_forming {s : State} (hs : s.Formed) : Custody.forming.Holds s :=
  ⟨State.formed_iff.mp hs, fun _ hx => hx.elim⟩

theorem spares_forming {scope : Scope} {assigns : String → Bool} :
    Custody.forming.Spares scope assigns :=
  fun _ hx => hx.elim

theorem free_forming {id : FrameId} : Custody.forming.Free id :=
  fun _ hx => hx.elim

end Custody

theorem Exec.Under.endsFormed {α : Type} {P Q : α → Prop} {x : Exec α} (hx : x.Under .forming P)
    (hPQ : ∀ a, P a → Q a) {s : State} (hs : s.Formed) : x.EndsFormed Q s := by
  have hrun := hx s (Custody.holds_forming hs)
  unfold EndsFormed Exec.final
  generalize x s = r at hrun
  cases hrun with
  | ok a t ht ha =>
      refine ⟨State.formed_iff.mpr ht.holds.only, fun b u heq => ?_, nofun⟩
      cases heq
      exact hPQ a ha
  | halt why t ht hwhy =>
      refine ⟨State.formed_iff.mpr ht.holds.only, nofun, fun parameter function u heq => ?_⟩
      cases heq
      cases hwhy trivial

/-- A program runs in the global frame. -/
theorem Evaluator.Under.program {ev : Evaluator} (hev : ev.Under .forming)
    (statements : List Stmt) :
    (ev.program statements).Under .forming fun r => ∀ v ∈ r, v.Formed := by
  refine .get_bind fun s _ => ?_
  refine .bind (hev.execAll Custody.free_forming Value.only_none Custody.spares_forming) ?_
  intro flow hflow
  cases flow with
  | normal value | returned value => exact .pure fun v hv => Value.formed_iff.mpr (hflow v hv)

/-! ## Sessions -/

namespace Session

variable {s : Session}

/-- An action as a step of a session. -/
theorem perform_under {α : Type} {Q : α → Prop} {x : Exec α} (hx : x.Under .forming Q)
    (hs : s.state.Formed) :
    (∃ cs : List Change, (∀ c ∈ cs, c.Only .formed) ∧ (s.perform x).2.state = s.state.after cs) ∧
      (∀ a, (s.perform x).1 = .ok a → Q a) ∧
      ∀ parameter function,
        (s.perform x).1 ≠ .error (.fault (.missingArgument parameter function)) := by
  have hrun := hx s.state (Custody.holds_forming hs)
  unfold perform
  generalize x s.state = r at hrun
  cases hrun with
  | ok a t ht ha => exact ⟨ht.changes trivial, fun _ heq => Except.ok.inj heq ▸ ha, nofun⟩
  | halt why t ht hwhy =>
      refine ⟨ht.changes trivial, nofun, fun parameter function heq => ?_⟩
      cases why with
      | outOfFuel => cases heq
      | fault f =>
          cases heq
          cases hwhy trivial

/-- A run makes formed changes, its result is formed, and no argument is missing. -/
theorem run_under {stale : Node → Prop} (hs : s.state.Intact stale) (hformed : s.state.Formed)
    (text file : String) :
    (∃ cs : List Change, (∀ c ∈ cs, c.Only .formed) ∧
        (s.run text file).2.state = s.state.after cs) ∧
      (∀ r, (s.run text file).1 = .ok r → ∀ v ∈ r, v.Formed) ∧
      ∀ parameter function,
        (s.run text file).1 ≠ .error (.fault (.missingArgument parameter function)) := by
  obtain ⟨hstate, hresult⟩ := run_unhosted hs text file
  rw [← hstate, ← hresult]
  unfold run performOn
  cases statements text file with
  | error d => exact ⟨⟨[], fun _ hc => absurd hc List.not_mem_nil, rfl⟩, nofun, nofun⟩
  | ok program =>
      have hev : s.unhosted.evaluator.Under .forming := under_evaluator Host.under_none s.fuel
      exact perform_under (s := s.unhosted) (hev.program program) hformed

theorem Reaches.formed {s t : Session} (h : s.Reaches t) {stale : Node → Prop}
    (hs : s.state.Intact stale) (hformed : s.state.Formed) : t.state.Formed := by
  induction h with
  | refl => exact hformed
  | run hreaches text file ih =>
      obtain ⟨⟨stale', ht⟩, _⟩ := hreaches.intact hs
      obtain ⟨⟨cs, hcs, hrun⟩, _⟩ := run_under ht ih text file
      rw [hrun]
      exact State.formed_iff.mpr ((State.formed_iff.mp ih).after hcs)
  | collect _ ih => exact ih.collectGarbage

theorem Reachable.formed (h : s.Reachable) : s.state.Formed := by
  obtain ⟨config, fuel, sink, hreaches⟩ := h
  exact hreaches.formed (State.intact_startOn sink) (State.Formed.startOn sink)

/-- Between any two steps of a session, and after each change that a run makes, all functions are
formed; so is the result of a run, and no run fails for want of an argument. The same holds of any
code that is run where all functions are formed. There, an overload that some arguments select has
one of them for each of its required parameters, and running it never finds one missing. -/
theorem formed_of_reachable (h : s.Reachable) :
    s.state.Formed ∧
      (∀ text file,
        (∀ parameter function,
          (s.run text file).1 ≠ .error (.fault (.missingArgument parameter function))) ∧
        (∀ v, (s.run text file).1 = .ok (some v) → v.Formed) ∧
        ∃ changes, (∀ c ∈ changes, c.Own) ∧
          (s.run text file).2.state = s.state.after changes ∧
          ∀ before, before <+: changes → (s.state.after before).Formed) ∧
      ∀ maxDepth fuel (t : State), t.Formed →
        (∀ scope e,
          ((ClassScript.evaluator { maxDepth } fuel).eval scope e).EndsFormed Value.Formed t) ∧
        (∀ scope stmt,
          ((ClassScript.evaluator { maxDepth } fuel).exec scope stmt).EndsFormed Flow.Formed t) ∧
        ∀ (f : Function) lineage types o args this, f.Formed →
          f.resolve lineage types = .ok o → args.length = types.length →
          (∀ v ∈ args, v.Formed) → (∀ v ∈ this, v.Formed) →
          Supplied o.params args.length ∧
            ((ClassScript.evaluator { maxDepth } fuel).invoke f.name o args this).EndsFormed
              Value.Formed t := by
  have hformed := h.formed
  refine ⟨hformed, fun text file => ?_, fun maxDepth fuel t ht => ?_⟩
  · obtain ⟨stale, hs⟩ := h.intact
    obtain ⟨⟨cs, hcs, hrun⟩, hresult, hmissing⟩ := run_under hs hformed text file
    refine ⟨hmissing, fun v hv => hresult _ hv v rfl, cs, fun c hc => (hcs c hc).own, hrun,
      fun before hbefore => ?_⟩
    have honly := (State.formed_iff.mp hformed).after fun c hc => hcs c (hbefore.subset hc)
    exact State.formed_iff.mpr honly
  · have hev : (ClassScript.evaluator { maxDepth } fuel).Under .forming :=
      under_evaluator Host.under_none fuel
    have hvalue : ∀ v : Value, v.Only .formed → v.Formed := fun _ => Value.formed_iff.mpr
    refine ⟨fun scope e => ?_, fun scope stmt => ?_, ?_⟩
    · exact (hev.eval Custody.spares_forming).endsFormed hvalue ht
    · have hadmits : Custody.forming.Admits scope stmt :=
        Custody.free_forming.admits Custody.spares_forming
      exact (hev.exec hadmits).endsFormed (fun _ => Flow.formed_iff.mpr) ht
    · intro f lineage types o args this hf ho hlength hargs hthis
      have hsupplied : Supplied o.params args.length := hlength ▸ hf.supplied_of_resolve ho
      have hready : Custody.forming.Readies o args.length :=
        ⟨fun _ => hsupplied, fun _ hx => hx.elim⟩
      have hinvoke := hev.invoke f.name hready (fun v hv => Value.formed_iff.mp (hargs v hv))
        fun v hv => Value.formed_iff.mp (hthis v hv)
      exact ⟨hsupplied, hinvoke.endsFormed hvalue ht⟩

/-- A session whose functions, constructors and operators have defaults, before a call that leaves a
required argument out. -/
theorem formed_after_declarations :
    let text := "function f(a: Number, b: Number = 1) = a + b; function f(s: String) = s;
      class V \x7b constructor(x: Number, y: Number = 2) \x7b \x7d; operator + (k: Number) = k \x7d;
      println(V(1) + f(2))"
    let s := ((fresh {} 100 {}).run text "a").2
    s.Reachable ∧ s.state.Formed ∧ ∀ parameter function,
      (s.run "f()" "b").1 ≠ .error (.fault (.missingArgument parameter function)) := by
  intro text s
  have hreachable : s.Reachable := ⟨{}, 100, {}, .run .refl text "a"⟩
  obtain ⟨hformed, hruns, _⟩ := formed_of_reachable hreachable
  exact ⟨hreachable, hformed, (hruns "f()" "b").1⟩

end Session

end ClassScript

import ClassScript.Proofs.ConductedCode
import ClassScript.Proofs.Sessions

/-!
# Where null cannot be

A slot whose type is one of numbers, strings, booleans, functions or lists, without a mark that
admits null, never holds null: no binding does, and no member of a class or an instance, at any
moment of a session. Values get into slots in many ways, and each of them checks the value against
the type of the slot or makes the value itself.

The function of a host could put null anywhere. But a session that declares none has none to call,
so that it runs as if it had no host.
-/

namespace ClassScript

namespace State.NullSafe

variable {s : State}

theorem startOn (sink : Sink) : (State.startOn sink).NullSafe where
  binding id frame hframe b hb := by
    have hid : id < 1 := (Array.getElem?_eq_some_iff.mp hframe).1
    obtain rfl := Nat.lt_one_iff.mp hid
    obtain rfl : Builtin.frame = frame := Option.some.inj hframe
    simp only [Builtin.frame, Assoc.values, List.map_cons, List.map_nil, List.mem_cons,
      List.not_mem_nil, or_false] at hb
    rcases hb with rfl | rfl | rfl | rfl | rfl <;> (intro _ hnull; cases hnull)
  member handle c hc isStatic m hm := by
    rcases startOn_get hc with ⟨rfl, rfl⟩ | ⟨rfl, rfl⟩ | ⟨rfl, rfl⟩
    · cases isStatic <;> exact absurd hm List.not_mem_nil
    · cases isStatic <;> exact absurd hm List.not_mem_nil
    · cases isStatic <;> (rw [List.mem_singleton.mp hm]; intro _ hnull; cases hnull)

theorem collectGarbage (h : s.NullSafe) : s.collectGarbage.1.NullSafe where
  binding := h.binding
  member handle c hc := h.member handle c (get_collectGarbage.mp hc).1

end State.NullSafe

def Terms.unbound : Terms True where
  base := 0
  free := fun _ => True

/-! ## Results of calls -/

namespace Evaluator

variable {ev : Evaluator} {function : String} {o : Overload} {args : List Value}
  {this : Option Value} {s t : State} {v : Value} {ty : Ty}

theorem admits_of_result {produced : Option Value} {scope : Scope}
    (h : result function o produced scope s = .ok v t) (hty : o.returnType = some ty) :
    ty.Admits v := by
  have hresult : Terms.unbound.Conducted (fun v => ∀ ty, o.returnType = some ty → ty.Admits v) s
      (result function o produced scope s) := Orderly.result function o produced scope
  rw [h] at hresult
  cases hresult with
  | ok _ _ _ hv => exact hv ty hty

theorem admits_of_runOverload (h : ev.runOverload function o args this s = .ok v t)
    (hty : o.returnType = some ty) : ty.Admits v := by
  unfold runOverload at h
  cases hcode : o.code with
  | native f =>
      rw [hcode] at h
      obtain ⟨produced, s₁, _, h⟩ := exists_of_bind_eq_ok h
      exact admits_of_result h hty
  | script body closure =>
      rw [hcode] at h
      obtain ⟨scope, s₁, _, h⟩ := exists_of_bind_eq_ok h
      cases this with
      | none =>
          obtain ⟨produced, s₂, _, h⟩ := exists_of_bind_eq_ok h
          exact admits_of_result h hty
      | some this =>
          obtain ⟨_, s₂, _, h⟩ := exists_of_bind_eq_ok h
          obtain ⟨produced, s₃, _, h⟩ := exists_of_bind_eq_ok h
          exact admits_of_result h hty

/-- What a call gives back is checked against the return type, or is what that type starts with. -/
theorem admits_of_invoke (h : ev.invoke function o args this s = .ok v t)
    (hty : o.returnType = some ty) : ty.Admits v := by
  obtain ⟨_, s₁, _, h⟩ := exists_of_bind_eq_ok h
  rw [Exec.roomy_eq, Exec.deeper, Exec.between] at h
  split at h
  · next hrun =>
      cases h
      exact admits_of_runOverload hrun hty
  · cases h

end Evaluator

/-! ## Sessions -/

namespace Session

variable {s : Session}

def unhosted (s : Session) : Session :=
  { s with config := { s.config with host := Host.none } }

theorem perform_state {α : Type} (s : Session) (x : Exec α) :
    (s.perform x).2.state = x.final s.state := by
  unfold perform Exec.final
  cases x s.state <;> rfl

theorem run_unhosted {stale : Node → Prop} (hs : s.state.Intact stale) (text file : String) :
    (s.unhosted.run text file).2.state = (s.run text file).2.state ∧
      (s.unhosted.run text file).1 = (s.run text file).1 := by
  unfold run performOn
  cases statements text file with
  | error d => exact ⟨rfl, rfl⟩
  | ok program =>
      -- no function of the host is within the horizon
      have hhosts : (Horizon.beyond stale).Hosts s.config.host s.unhosted.config.host :=
        fun _ _ _ _ _ _ _ name hname => absurd rfl (hname name)
      have hmatch : (Horizon.beyond stale).Matches s.evaluator s.unhosted.evaluator := by
        unfold evaluator
        exact Horizon.matches_evaluator hhosts nofun (Or.inl rfl) s.fuel
      have hcoupled : (Horizon.beyond stale).Coupled [] _ s.state s.unhosted.state _ _ :=
        hmatch.program program (.refl hs.closed)
      obtain ⟨cs, _, hrun, hrun', hsame, _⟩ := perform_coupled (fun _ h => h) hcoupled
      rw [hrun, hrun']
      exact ⟨rfl, hsame⟩

/-- A run makes changes that keep null out of where it may not be. -/
theorem run_permits {stale : Node → Prop} (hs : s.state.Intact stale) (hsafe : s.state.NullSafe)
    (text file : String) :
    ∃ cs, Terms.unbound.Permits s.state cs ∧ (s.run text file).2.state = s.state.after cs := by
  rw [← (run_unhosted hs text file).1]
  unfold run performOn
  cases statements text file with
  | error d => exact ⟨[], trivial, rfl⟩
  | ok program =>
      have hev : s.unhosted.evaluator.Orderly True :=
        orderly_evaluator (Host.conducted_none True) s.fuel
      have hfits : Terms.unbound.Fits s.unhosted.state := ⟨Nat.zero_le _, fun _ => hsafe⟩
      obtain ⟨cs, hcs, hfinal⟩ :=
        (hev.program program hfits (Or.inl (Nat.zero_le _))).exists_final
      exact ⟨cs, hcs, (perform_state _ _).trans hfinal⟩

theorem Reaches.nullSafe {s t : Session} (h : s.Reaches t) {stale : Node → Prop}
    (hs : s.state.Intact stale) (hsafe : s.state.NullSafe) : t.state.NullSafe := by
  induction h with
  | refl => exact hsafe
  | run hreaches text file ih =>
      obtain ⟨⟨stale', ht⟩, _⟩ := hreaches.intact hs
      obtain ⟨cs, hcs, hrun⟩ := run_permits ht ih text file
      rw [hrun]
      exact hcs.upholds.nullSafe trivial ih
  | collect _ ih => exact ih.collectGarbage

theorem Reachable.nullSafe (h : s.Reachable) : s.state.NullSafe := by
  obtain ⟨config, fuel, sink, hreaches⟩ := h
  exact hreaches.nullSafe (State.intact_startOn sink) (State.NullSafe.startOn sink)

/-- Between any two steps of a session, and after each change that a run makes, no slot holds null
that has a type which keeps it out. Whatever code is run where this holds, it holds after it; and no
call gives back null where its return type keeps it out. -/
theorem nullSafe_of_reachable (h : s.Reachable) :
    s.state.NullSafe ∧
      (∀ text file, ∃ changes, (∀ c ∈ changes, c.Own) ∧
        (s.run text file).2.state = s.state.after changes ∧
        ∀ before, before <+: changes → (s.state.after before).NullSafe) ∧
      (∀ maxDepth fuel scope (t : State), t.NullSafe →
        (∀ e, (((ClassScript.evaluator { maxDepth } fuel).eval scope e).final t).NullSafe) ∧
        ∀ stmt, (((ClassScript.evaluator { maxDepth } fuel).exec scope stmt).final t).NullSafe) ∧
      ∀ (ev : Evaluator) function o args this (t u : State) v,
        ev.invoke function o args this t = .ok v u →
        ∀ ty, o.returnType = some ty → ty.ExcludesNull → v ≠ .null := by
  have hsafe := h.nullSafe
  refine ⟨hsafe, fun text file => ?_, fun maxDepth fuel scope t ht => ?_, ?_⟩
  · obtain ⟨stale, hs⟩ := h.intact
    obtain ⟨cs, hcs, hrun⟩ := run_permits hs hsafe text file
    refine ⟨cs, hcs.own trivial, hrun, fun before hbefore => ?_⟩
    exact (hcs.of_isPrefix hbefore).upholds.nullSafe trivial hsafe
  · have hev : (ClassScript.evaluator { maxDepth } fuel).Orderly True :=
      orderly_evaluator (Host.conducted_none True) fuel
    have hfits : Terms.unbound.Fits t := ⟨Nat.zero_le _, fun _ => ht⟩
    refine ⟨fun e => ?_, fun stmt => ?_⟩
    · exact (hev.eval scope e hfits).upholds.nullSafe trivial ht
    · have hrun := hev.exec scope stmt hfits fun _ => Or.inl (Nat.zero_le _)
      exact hrun.upholds.nullSafe trivial ht
  · intro ev function o args this t u v hrun ty hty
    exact Evaluator.admits_of_invoke hrun hty

/-- A session after a program that tries to get null into a number in several ways. -/
theorem nullSafe_after_attempts :
    let text :=
      "var n: Number; class A \x7b prop p: Number \x7b get \x7b field = null \x7d \x7d \x7d; n = null"
    let s := ((fresh {} 100 {}).run text "a").2
    s.Reachable ∧ s.state.NullSafe := by
  intro text s
  have hreachable : s.Reachable := ⟨{}, 100, {}, .run .refl text "a"⟩
  exact ⟨hreachable, (nullSafe_of_reachable hreachable).1⟩

end Session

end ClassScript

import ClassScript.Proofs.Callers
import ClassScript.Proofs.Guidance
import ClassScript.Proofs.Sessions

/-!
# The depth of calls and the class of the running code

Every piece of code gives the depth of calls and the context back as it found them, whether it ends
well or not. While it runs, the depth is never over the limit. To say so, the evaluator is compared
with one that yields to another evaluator whenever it is given something to run at a depth over the
limit: whatever that other one does, no run can tell the difference. At the limit itself no call is
entered.
-/

namespace ClassScript

/-- Runs at depths up to a limit, which are never cut. -/
def Regime.upTo (limit : Nat) : Regime where
  depth depth := depth ≤ limit
  cut _ := False

/-- A host whose functions leave the depth of calls and the context as they are, and make calls only
at depths up to a limit, if the calls themselves keep to this. -/
def Host.Keeps (limit : Nat) (host : Host) : Prop :=
  (Regime.upTo limit).Hosts host host

/-- An action that is begun within the limit gives the control state back, and the second action
does the same. -/
def Exec.Balanced {α : Type} (limit : Nat) (x y : Exec α) : Prop :=
  ∀ s : State, s.callDepth ≤ limit → s.SameControl (x.final s) ∧ y s = x s

namespace Evaluator

/-- The same evaluator, except that another one runs what is to be run over the limit. -/
def yielding (ev other : Evaluator) : Evaluator where
  eval scope e s := if s.callDepth ≤ ev.maxDepth then ev.eval scope e s else other.eval scope e s
  exec scope stmt s :=
    if s.callDepth ≤ ev.maxDepth then ev.exec scope stmt s else other.exec scope stmt s
  call f args s := if s.callDepth ≤ ev.maxDepth then ev.call f args s else other.call f args s
  host call name args s :=
    if s.callDepth ≤ ev.maxDepth then ev.host call name args s else other.host call name args s
  maxDepth := ev.maxDepth
  rounds := ev.rounds

/-- What is known of the depth of calls and the context while an evaluator runs code. The second
evaluator is there to tell what the first one never needs. -/
structure Controlled (ev ev' : Evaluator) : Prop where
  eval : ∀ scope e, Exec.Balanced ev.maxDepth (ev.eval scope e) (ev'.eval scope e)
  exec : ∀ scope stmt, Exec.Balanced ev.maxDepth (ev.exec scope stmt) (ev'.exec scope stmt)
  callFunction : ∀ f args this,
    Exec.Balanced ev.maxDepth (ev.callFunction f args this) (ev'.callFunction f args this)
  construct : ∀ cls args,
    Exec.Balanced ev.maxDepth (ev.construct cls args) (ev'.construct cls args)
  memberGet : ∀ object name,
    Exec.Balanced ev.maxDepth (ev.memberGet object name) (ev'.memberGet object name)
  memberSet : ∀ object name value,
    Exec.Balanced ev.maxDepth (ev.memberSet object name value) (ev'.memberSet object name value)
  program : ∀ statements,
    Exec.Balanced ev.maxDepth (ev.program statements) (ev'.program statements)
  /-- At the limit no function is entered, in whatever language it is written. -/
  full : ∀ function o args this (s : State), ev.maxDepth ≤ s.callDepth →
    ev.invoke function o args this s = .error (.fault (.depthExceeded ev.maxDepth)) s
  /-- Nor is an accessor. -/
  fullAccessor : ∀ code this ty field value (s : State), ev.maxDepth ≤ s.callDepth →
    ev.runAccessor code this ty field value s = .error (.fault (.depthExceeded ev.maxDepth)) s

end Evaluator

def yieldingEvaluator (config : Config) (other : Evaluator) : (fuel : Nat) → Evaluator
  | 0 => (evaluator config 0).yielding other
  | fuel + 1 =>
    let inner := yieldingEvaluator config other fuel
    { evaluator config (fuel + 1) with
      eval := inner.evalStep
      exec := inner.execStep
      call := fun f args => inner.callFunction f args none : Evaluator }.yielding other

theorem Regime.Follows.balanced {α : Type} {limit : Nat} {x y : Exec α}
    (h : (Regime.upTo limit).Follows x y) : Exec.Balanced limit x y := by
  intro s hs
  have hends := h s hs
  unfold Exec.final
  generalize x s = r at hends
  generalize y s = r' at hends
  cases hends with
  | ok a t h => exact ⟨h, rfl⟩
  | halt why t h => exact ⟨h, rfl⟩
  | cut why hwhy => exact hwhy.elim

/-- Within the limit nothing is yielded. -/
theorem Regime.Follows.yield {α : Type} {limit : Nat} {x y z : Exec α}
    (h : (Regime.upTo limit).Follows x y) :
    (Regime.upTo limit).Follows x fun s => if s.callDepth ≤ limit then y s else z s := by
  intro s hs
  have hwithin : s.callDepth ≤ limit := hs
  simp only [if_pos hwithin]
  exact h s hs

theorem Host.Keeps.guides {config : Config} (hhost : config.host.Keeps config.maxDepth)
    (other : Evaluator) (fuel : Nat) :
    (Regime.upTo config.maxDepth).Guides (evaluator config fuel)
      (yieldingEvaluator config other fuel) := by
  have henter : ∀ depth, (Regime.upTo config.maxDepth).depth depth → depth < config.maxDepth →
      depth < config.maxDepth ∧ (Regime.upTo config.maxDepth).depth (depth + 1) :=
    fun _ _ hlow => ⟨hlow, hlow⟩
  induction fuel with
  | zero =>
      exact {
        eval := fun _ _ => .yield (.throw _)
        exec := fun _ _ => .yield (.throw _)
        host := fun name args => .yield (hhost _ _ (fun _ _ => .yield (.throw _)) name args)
        enter := henter
        refuse := Or.inr rfl
        rounds := Or.inl rfl }
  | succ fuel ih =>
      exact {
        eval := fun scope e => .yield (ih.evalStep scope e)
        exec := fun scope stmt => .yield (ih.execStep scope stmt)
        host := fun name args => .yield
          (hhost _ _ (fun f args => .yield (ih.callFunction f args Option.none)) name args)
        enter := henter
        refuse := Or.inr rfl
        rounds := Or.inl rfl }

theorem Regime.Guides.controlled {ev ev' : Evaluator}
    (h : (Regime.upTo ev.maxDepth).Guides ev ev') : ev.Controlled ev' where
  eval scope e := (h.eval scope e).balanced
  exec scope stmt := (h.exec scope stmt).balanced
  callFunction f args this := (h.callFunction f args this).balanced
  construct cls args := (h.construct cls args).balanced
  memberGet object name := (h.memberGet object name).balanced
  memberSet object name value := (h.memberSet object name value).balanced
  program statements := (h.program statements).balanced
  full function o args this s hfull := by
    unfold Evaluator.invoke
    rw [ev.checkDepth_bind_eq, if_pos hfull]
  fullAccessor code this ty field value s hfull := by
    unfold Evaluator.runAccessor
    rw [ev.checkDepth_bind_eq, if_pos hfull]

namespace Session

theorem run_sameControl {s : Session} (hhost : s.config.host.Keeps s.config.maxDepth)
    (hs : s.state.callDepth ≤ s.config.maxDepth) (text file : String) :
    s.state.SameControl (s.run text file).2.state := by
  unfold run performOn
  cases statements text file with
  | error d => exact .refl _
  | ok program =>
      have hguides := hhost.guides s.evaluator s.fuel
      have hbalanced := (hguides.program program).balanced s.state hs
      have hfinal : (s.perform (s.evaluator.program program)).2.state =
          (s.evaluator.program program).final s.state := by
        unfold perform Exec.final
        cases s.evaluator.program program s.state <;> rfl
      dsimp only
      rw [hfinal]
      exact hbalanced.1

/-- Between the runs of a session no call is running. -/
theorem Reachable.idle {s : Session} (h : s.Reachable) :
    s.state.callDepth = 0 ∧ s.state.context = [] := by
  obtain ⟨config, fuel, sink, hreaches⟩ := h
  induction hreaches with
  | refl => exact ⟨rfl, rfl⟩
  | run hreaches text file ih =>
      obtain ⟨stale, ht⟩ := (hreaches.intact (State.intact_startOn sink)).1
      obtain ⟨cs, _, hrun, _⟩ := run_intact ht text file
      rw [hrun]
      exact ⟨(State.after_callDepth _ cs).trans ih.1, (State.after_context _ cs).trans ih.2⟩
  | collect _ ih => exact ih

end Session

/-- All code is balanced: from a state within the limit, whatever it does and however it ends, it
gives back the depth of calls and the context. On its way it never runs anything over the limit, so
that an evaluator which yields there to any other one does the same. A run of a session, also a
failed one, leaves the next run to start without a call and without a class. -/
theorem controlled_evaluator {config : Config} (hhost : config.host.Keeps config.maxDepth)
    (fuel : Nat) (other : Evaluator) :
    (evaluator config fuel).Controlled (yieldingEvaluator config other fuel) ∧
      (∀ (s : Session) text file, s.config = config → s.state.callDepth ≤ config.maxDepth →
        s.state.SameControl (s.run text file).2.state) ∧
      ∀ s : Session, s.Reachable → s.state.callDepth = 0 ∧ s.state.context = [] := by
  refine ⟨?_, ?_, fun s hs => hs.idle⟩
  · have hguides := hhost.guides other fuel
    rw [← evaluator_maxDepth config fuel] at hguides
    exact hguides.controlled
  · rintro s text file rfl hs
    exact s.run_sameControl hhost hs text file

/-- A class whose body calls a function that calls itself without end. -/
def endlessClass : List Stmt :=
  let call : Expr := .call (.var "f") []
  let field : MemberDecl :=
    { access := .ownClass, isStatic := true, body := .field "x" false none (some call) }
  [.function { name := "f", params := [], returnType := none, body := .ret (some call) },
    .classDecl { name := "A", bases := [], members := [field] }]

/-- The overflow comes three calls deep in the body of the class, and nothing is left of that. -/
theorem controlled_endlessClass :
    let config : Config := { maxDepth := 3, host := .toolkit }
    let ev := evaluator config 30
    Host.toolkit.Keeps 3 ∧
      Exec.ending (ev.program endlessClass State.start) = .error (.fault (.depthExceeded 3)) ∧
      State.start.SameControl ((ev.program endlessClass).final State.start) := by
  intro config ev
  have hhost : Host.toolkit.Keeps 3 := Regime.hosts_toolkit _
  have hconfig : config.host.Keeps config.maxDepth := hhost
  have hcontrolled := (controlled_evaluator hconfig 30 ev).1
  exact ⟨hhost, rfl, (hcontrolled.program endlessClass State.start (Nat.zero_le 3)).1⟩

end ClassScript

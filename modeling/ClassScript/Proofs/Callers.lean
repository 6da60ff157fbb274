import ClassScript.Proofs.CoupledCode
import ClassScript.Run.Builtins
import ClassScript.Run.Toolkit

/-!
# Calls and their callers

What a call does should not depend on the code that makes it. The context of a state tells which
classes the running calls belong to; an action is blind when it does the same in every context.

The body of a function runs as code of the class that the function belongs to, so it cannot see who
called it. The defaults of parameters are evaluated before that, as code of the caller: a call is
blind exactly as far as they are.
-/

namespace ClassScript

def State.withContext (s : State) (context : List (Option String)) : State :=
  { s with context }

namespace Exec

variable {α β : Type}

def withContext (r : EStateM.Result Halt State α) (context : List (Option String)) :
    EStateM.Result Halt State α :=
  match r with
  | .ok a s => .ok a (s.withContext context)
  | .error why s => .error why (s.withContext context)

/-- How a run ends, without its state. -/
def ending (r : EStateM.Result Halt State α) : Except Halt α :=
  match r with
  | .ok a _ => .ok a
  | .error why _ => .error why

/-- An action does the same whichever classes the running code belongs to. -/
def Blind (x : Exec α) : Prop :=
  ∀ s context, x (s.withContext context) = withContext (x s) context

namespace Blind

theorem pure (a : α) : Blind (pure a : Exec α) :=
  fun _ _ => rfl

theorem bind {x : Exec α} {f : α → Exec β} (hx : Blind x) (hf : ∀ a, Blind (f a)) :
    Blind (x >>= f) := by
  intro s context
  change EStateM.bind x f (s.withContext context) = withContext (EStateM.bind x f s) context
  unfold EStateM.bind
  rw [hx s context]
  cases x s with
  | ok a t => exact hf a t context
  | error why t => rfl

theorem fault (f : Fault) : Blind (Exec.fault f : Exec α) :=
  fun _ _ => rfl

/-- A question that is not about the context. -/
theorem ask {question : State → Except Fault α}
    (h : ∀ s context, question (s.withContext context) = question s) :
    Blind (Exec.ask question) := by
  intro s context
  unfold Exec.ask
  rw [h]
  cases question s <;> rfl

theorem define (id : FrameId) (name : String) (b : Binding) : Blind (Exec.define id name b) :=
  fun _ _ => rfl

theorem newScope (scope : Scope) : Blind (Exec.newScope scope) :=
  fun _ _ => rfl

theorem newList (items : List Value) : Blind (Exec.newList items) :=
  fun _ _ => rfl

theorem write (text : String) : Blind (Exec.write text) := by
  intro s context
  have hsink : (s.withContext context).sink = s.sink := rfl
  simp only [Exec.write, hsink]
  cases s.sink.write text <;> rfl

theorem deeper {x : Exec α} (hx : Blind x) : Blind (Exec.deeper x) := by
  intro s context
  have henter := hx { s with callDepth := s.callDepth + 1 } context
  unfold Exec.deeper Exec.between
  change (match x (State.withContext { s with callDepth := s.callDepth + 1 } context) with
    | .ok a s => _
    | .error why s => _) = _
  rw [henter]
  cases x { s with callDepth := s.callDepth + 1 } <;> rfl

theorem get_bind {f : State → Exec α} (hf : ∀ s, Blind (f s))
    (h : ∀ s context, f (s.withContext context) = f s) : Blind (get >>= f) := by
  intro s context
  change f (s.withContext context) (s.withContext context) = withContext (f s s) context
  rw [h]
  exact hf s s context

theorem defaultValue (scope : Scope) (ty : Ty) : Blind (Exec.defaultValue scope ty) := by
  unfold Exec.defaultValue
  split
  · exact pure _
  · generalize ty.name = name
    split
    · exact pure _
    · exact pure _
    · exact pure _
    · exact newList []
    · exact pure _
    · refine get_bind (fun s => ?_) fun _ _ => rfl
      split
      · exact pure _
      · exact fault _

end Blind

end Exec

/-! ## Code of a class -/

/-- The horizon of arbitrary states, under a host that may do anything to the store. -/
def Horizon.boundless : Horizon where
  stale _ := False
  sound := False
  native _ := True
  cut _ := False
  foreign := True
  not_stale _ _ := id
  not_sound _ := id
  all_native _ _ := trivial

open Exec

variable {α : Type}

theorem Horizon.boundless_alike (s : State) {context : List (Option String)}
    (hclass : context.head?.join = s.currentClass) :
    Horizon.boundless.Alike s (s.withContext context) := by
  have hclosed : Horizon.boundless.Closed s := closed_of_foreign trivial s
  exact (Alike.refl hclosed).control s.callDepth hclass

/-- Coupled runs from states that differ in the context only. -/
theorem Horizon.Coupled.eq_withContext {Q : State → α → Prop} {s : State}
    {context : List (Option String)} {r r' : EStateM.Result Halt State α}
    (h : Horizon.boundless.Coupled [] Q s (s.withContext context) r r') :
    r' = withContext r context := by
  have hafter : ∀ cs, (s.withContext context).after cs = (s.after cs).withContext context := by
    intro cs
    calc (s.withContext context).after cs
        = (s.after cs).control s.callDepth context := s.after_control s.callDepth context cs
      _ = (s.after cs).withContext context := by rw [← s.after_callDepth cs]; rfl
  cases h with
  | ok cs _ _ a _ => rw [hafter]; rfl
  | halt cs _ why _ => rw [hafter]; rfl
  | cut why hwhy => exact hwhy.elim

/-- Code of a class does not see who called it. -/
theorem Exec.Blind.asCodeOf (owner : Option String) {x : Exec α} {Q : State → α → Prop}
    (hx : ∀ s s', Horizon.boundless.Alike s s' →
      Horizon.boundless.Coupled [] Q s s' (x s) (x s')) :
    Blind (Exec.asCodeOf owner x) := by
  intro s context
  have halike := Horizon.boundless_alike (s.withContext (owner :: s.context))
    (show (owner :: context).head?.join = owner from rfl)
  have hsame := (hx _ _ halike).eq_withContext
  unfold Exec.asCodeOf Exec.between
  change (match x ((s.withContext (owner :: s.context)).withContext (owner :: context)) with
    | .ok a s => _
    | .error why s => _) = _
  rw [hsame]
  change _ = withContext (match x (s.withContext (owner :: s.context)) with
    | .ok a s => _
    | .error why s => _) context
  cases x (s.withContext (owner :: s.context)) <;> rfl

namespace Evaluator

variable {ev : Evaluator}

/-! ## Calls -/

theorem blind_result (function : String) (o : Overload) (produced : Option Value)
    (scope : Scope) : Blind (result function o produced scope) := by
  unfold result
  split
  · exact .pure _
  · exact .defaultValue scope _
  · refine .bind (.ask fun _ _ => rfl) fun valueTy => ?_
    refine .bind (.ask fun _ _ => rfl) fun fits => ?_
    split
    · exact .pure _
    · exact .fault _

theorem blind_bindThis (scope : Scope) (this : Value) : Blind (bindThis scope this) :=
  .bind (.ask fun _ _ => rfl) fun _ => .define _ _ _

/-- Binding parameters is as blind as the defaults that are needed. -/
theorem blind_bindParams (function : String) (scope : Scope) (params : List Param)
    (args : List Value)
    (h : ∀ p ∈ params.drop args.length, ∀ e, p.default = some e → Blind (ev.eval scope e)) :
    Blind (ev.bindParams function scope params args) := by
  induction params generalizing args with
  | nil => exact .pure ()
  | cons p ps ih =>
      cases args with
      | cons value args => exact .bind (.define _ _ _) fun _ => ih args h
      | nil =>
          have hrest := ih [] fun q hq => h q (List.mem_cons_of_mem _ hq)
          have hdefault := h p List.mem_cons_self
          rw [bindParams]
          cases hp : p.default with
          | none => exact .fault _
          | some e =>
              refine .bind (hdefault e hp) fun value => ?_
              refine .bind (.ask fun _ _ => rfl) fun valueTy => ?_
              refine .bind (.ask fun _ _ => rfl) fun fits => ?_
              cases fits with
              | false => exact .bind (.fault _) fun _ => .bind (.define _ _ _) fun _ => hrest
              | true => exact .bind (.define _ _ _) fun _ => hrest

theorem blind_native (args : List Value) {f : Native}
    (h : ∀ name, f = .host name → Blind (ev.host ev.call name args)) :
    Blind (ev.native args f) := by
  have hprinted : Blind (native.printed args) := by
    unfold native.printed
    split
    · exact .ask fun _ _ => rfl
    · exact .pure ""
  cases f with
  | print => exact .bind hprinted fun _ => .bind (.write _) fun _ => .pure none
  | println => exact .bind hprinted fun _ => .bind (.write _) fun _ => .pure none
  | nothing => exact .pure none
  | host name => exact h name rfl

/-- What a call does outside of a body is blind: the defaults that it needs, or the function of the
host that it runs. -/
def Indifferent (ev : Evaluator) (o : Overload) (args : List Value) : Prop :=
  match o.code with
  | .native (.host name) => Blind (ev.host ev.call name args)
  | .native _ => True
  | .script _ _ => ∀ p ∈ o.params.drop args.length, ∀ e, p.default = some e →
      ∀ scope, Blind (ev.eval scope e)

/-- No default is needed when there is an argument for every parameter. -/
theorem indifferent_of_length_le {o : Overload} {args : List Value} {body : Stmt} {scope : Scope}
    (hcode : o.code = .script body scope) (h : o.params.length ≤ args.length) :
    ev.Indifferent o args := by
  unfold Indifferent
  rw [hcode, List.drop_of_length_le h]
  exact fun _ hp => absurd hp List.not_mem_nil

theorem blind_runBody (hev : Horizon.boundless.Matches ev ev) (function : String) {o : Overload}
    {args : List Value} (scope : Scope) (body : Stmt)
    (h : ∀ p ∈ o.params.drop args.length, ∀ e, p.default = some e → Blind (ev.eval scope e)) :
    Blind (ev.runBody function o args scope body) := by
  refine .bind (blind_bindParams function scope o.params args h) fun _ => ?_
  refine .bind (.asCodeOf o.owner fun s s' hs => hev.exec body hs ?_) fun flow => ?_
  · exact fun id _ => Node.within_of_foreign trivial s _
  · cases flow with
    | returned value => exact .pure _
    | normal value => exact .pure _

theorem blind_runOverload (hev : Horizon.boundless.Matches ev ev) (function : String)
    {o : Overload} {args : List Value} (this : Option Value) (h : ev.Indifferent o args) :
    Blind (ev.runOverload function o args this) := by
  unfold runOverload
  unfold Indifferent at h
  cases hcode : o.code with
  | native f =>
      rw [hcode] at h
      refine .bind (blind_native args fun name hname => ?_) fun produced => ?_
      · subst hname
        exact h
      · exact .get_bind (fun s => blind_result function o produced s.globals) fun _ _ => rfl
  | script body closure =>
      rw [hcode] at h
      refine .bind (.newScope closure) fun scope => ?_
      have hbody := blind_runBody hev function scope body fun p hp e he => h p hp e he scope
      cases this with
      | none => exact .bind hbody fun _ => blind_result function o _ closure
      | some this =>
          refine .bind (blind_bindThis scope this) fun _ => ?_
          exact .bind hbody fun _ => blind_result function o _ closure

theorem blind_invoke (hev : Horizon.boundless.Matches ev ev) (function : String) {o : Overload}
    {args : List Value} (this : Option Value) (h : ev.Indifferent o args) :
    Blind (ev.invoke function o args this) := by
  have hdepth : Blind ev.checkDepth := by
    refine .get_bind (fun s => ?_) fun _ _ => rfl
    split
    · exact .fault _
    · exact .pure ()
  refine .bind hdepth fun _ => ?_
  rw [roomy_eq]
  exact .deeper (blind_runOverload hev function this h)

/-- A call has the same outcome in two states that differ in the context only, if what it does
outside of a body is blind, or if its callers belong to the same class. -/
theorem invoke_withContext {config : Config}
    (hhost : Horizon.boundless.Hosts config.host config.host) (fuel : Nat) (function : String)
    (o : Overload) (args : List Value) (this : Option Value) (s : State)
    (context : List (Option String))
    (h : (evaluator config fuel).Indifferent o args ∨ context.head?.join = s.currentClass) :
    (evaluator config fuel).invoke function o args this (s.withContext context) =
      withContext ((evaluator config fuel).invoke function o args this s) context := by
  have hev := Horizon.matches_evaluator hhost trivial (Or.inl rfl) fuel
  rcases h with h | hclass
  · exact blind_invoke hev function this h s context
  · have hs := Horizon.boundless_alike s hclass
    exact Horizon.Coupled.eq_withContext
      (hev.invoke function (Code.within_of_foreign trivial s o.code) hs
        (fun v _ => Value.within_of_foreign trivial s v)
        fun v _ => Value.within_of_foreign trivial s v)

/-! ## A host -/

/-- Something that the host does without looking at the running calls. -/
theorem coupled_foreign {known : List (String × String)} {s s' : State}
    (hs : Horizon.boundless.Alike s s') (f : State → State) (g : State → α)
    (hf : ∀ t depth context, f (t.control depth context) = (f t).control depth context)
    (hg : ∀ t depth context, g (t.control depth context) = g t) :
    Horizon.boundless.Coupled known (fun _ _ => True) s s' (.ok (g s) (f s))
      (.ok (g s') (f s')) := by
  have hsame := hs.control_eq (fun _ => id) 0 []
  have hg' : g s' = g s := by rw [← hg s' 0 [], hsame, hg]
  have hbalanced : ∀ t : State, f t = t.apply (.foreign f) := by
    intro t
    calc f t = f ((t.control 0 []).control t.callDepth t.context) := rfl
      _ = (f (t.control 0 [])).control t.callDepth t.context := hf ..
  have hallowed : (Change.foreign f).Allowed .boundless known s := trivial
  rw [hg', hbalanced s, hbalanced s']
  exact .change (.foreign f) hallowed rfl trivial

/-- The functions of the toolkit do the same in states that differ in the context only. -/
theorem hosts_toolkit : Horizon.boundless.Hosts Host.toolkit Host.toolkit := by
  intro call call' hcall known s s' args name _ hs hargs
  have hany : ∀ (t : State) (r : Option Value), ∀ v, r = some v → v.Within .boundless t :=
    fun t _ v _ => Value.within_of_foreign trivial t v
  unfold Host.toolkit
  split
  · exact .pure (hany _ _)
  · exact .pure (hany _ _)
  · exact .pure (hany _ _)
  · exact .bind hs (.newList hs hargs) fun _ _ _ _ _ _ => .pure (hany _ _)
  · exact .fault nofun
  · exact .bind hs (coupled_foreign hs (·.collectGarbage.1) (·.collectGarbage.2)
      (fun _ _ _ => rfl) fun _ _ _ => rfl) fun _ _ _ _ _ _ => .pure (hany _ _)
  · refine .get_bind ?_
    have hheap : s'.heap = s.heap := congrArg (·.heap) (hs.control_eq (fun _ => id) 0 [])
    rw [hheap]
    exact .pure (hany _ _)
  · exact .ask_bind (hs.typeOf (hargs _ List.mem_cons_self)) fun _ _ => .pure (hany _ _)
  · next value _ _ =>
      exact .bind hs (coupled_foreign hs (fun t => { t with kept := some value }) (fun _ => ())
        (fun _ _ _ => rfl) fun _ _ _ => rfl) fun _ _ _ _ _ _ => .pure (hany _ _)
  · refine .get_bind ?_
    rw [hs.kept]
    exact .pure (hany _ _)
  · exact .map (hcall hs (hargs _ List.mem_cons_self) fun v hv =>
      hargs v (List.mem_cons_of_mem _ hv)) fun _ _ _ => hany _ _
  · exact .pure (hany _ _)

/-! ## A default that sees its caller -/

def secretive : ClassDecl where
  name := "A"
  bases := []
  members :=
    [{ access := .ownClass, isStatic := true,
       body := .field "secret" false none (some (.string "s")) }]

def secretiveState : State :=
  match (evaluator {} 10).program [.classDecl secretive] State.start with
  | .ok _ s | .error _ s => s

/-- A function of no class, with the private field as the default of its parameter. -/
def revealing : Overload where
  params := [{ name := "x", ty := .string, default := some (.member (.var "A") "secret") }]
  returnType := none
  code := .script (.ret (some (.var "x"))) secretiveState.globals
  owner := none

/-- With an argument, the call is the same for code of the class and for code of none. -/
theorem invoke_withContext_revealing :
    let ev := evaluator { host := .toolkit } 10
    ev.Indifferent revealing [.string "t"] ∧
      ev.invoke "f" revealing [.string "t"] none (secretiveState.withContext [some "A"]) =
        withContext (ev.invoke "f" revealing [.string "t"] none secretiveState) [some "A"] := by
  have hindifferent : (evaluator { host := .toolkit } 10).Indifferent revealing [.string "t"] :=
    indifferent_of_length_le rfl (by decide)
  exact ⟨hindifferent, invoke_withContext hosts_toolkit 10 "f" revealing [.string "t"] none
    secretiveState [some "A"] (Or.inl hindifferent)⟩

/-- Without one, code of the class gets the private field from a function of no class, which code of
none cannot. -/
theorem invoke_revealing :
    ending ((evaluator {} 10).invoke "f" revealing [] none
        (secretiveState.withContext [some "A"])) = .ok (.string "s") ∧
      ending ((evaluator {} 10).invoke "f" revealing [] none secretiveState) =
        .error (.fault (.inaccessible "A" "secret" .ownClass)) :=
  ⟨rfl, rfl⟩

end Evaluator

end ClassScript

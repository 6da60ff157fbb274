import ClassScript.Proofs.Stability

/-!
# Class declarations that fail

A class is put on the heap and bound to its name when its body is complete. So a declaration that
fails has made no class and bound no name. All that it can leave behind, beside what the first
values of its members did, is the name of the class in the registry, which knows the name while the
body runs. There a failed declaration leaves no trace only if it was refused before that, or if the
registry said the same of its name before.
-/

namespace ClassScript

theorem Assoc.insert_eq_self {κ α : Type} [DecidableEq κ] {t : Assoc κ α} {k : κ} {a : α}
    (h : t.get? k = some a) : t.insert k a = t := by
  have hentries : ∀ entries : List (κ × α), findEntry k entries = some a →
      insertEntry k a entries = entries := by
    intro entries hfind
    induction entries with
    | nil => cases hfind
    | cons entry entries ih =>
        obtain ⟨l, b⟩ := entry
        rw [findEntry] at hfind
        rw [insertEntry]
        split
        · next hl =>
            rw [if_pos hl] at hfind
            cases hfind
            rw [hl]
        · next hl =>
            rw [if_neg hl] at hfind
            rw [ih hfind]
  rw [insert, hentries t.entries h]

namespace Exec

variable {α β : Type} {x : Exec α} {s t : State}

theorem final_of_ok {a : α} (h : x s = .ok a t) : x.final s = t := by
  rw [final, h]

theorem final_of_error {why : Halt} (h : x s = .error why t) : x.final s = t := by
  rw [final, h]

theorem ask_eq_error {question : State → Except Fault α} {why : Halt}
    (h : ask question s = .error why t) : t = s ∧ ∃ f, question s = .error f := by
  unfold ask at h
  split at h
  · cases h
  · next f hf =>
      cases h
      exact ⟨rfl, f, hf⟩

/-- A sequence whose second part changes nothing ends where the first part does. -/
theorem final_bind {f : α → Exec β} (hf : ∀ a t, (f a).final t = t) :
    (x >>= f).final s = x.final s := by
  cases h : x s with
  | ok a t =>
      rw [final_of_ok h, ← hf a t, final, final, bind_eq_of_ok h]
  | error why t =>
      rw [final_of_error h, final_of_error (bind_eq_of_error h)]

theorem final_ask (question : State → Except Fault α) (s : State) :
    (ask question).final s = s := by
  unfold final ask
  cases question s <;> rfl

/-- Actions that end in the same state do so as code of a class, too. -/
theorem final_asCodeOf {y : Exec β} (owner : Option String)
    (h : x.final { s with context := owner :: s.context } =
      y.final { s with context := owner :: s.context }) :
    (asCodeOf owner x).final s = (asCodeOf owner y).final s := by
  unfold final asCodeOf between at *
  cases hx : x { s with context := owner :: s.context } <;>
    cases hy : y { s with context := owner :: s.context } <;>
    · rw [hx, hy] at h
      dsimp only at h
      rw [h]

theorem asCodeOf_eq_error {owner : Option String} {why : Halt}
    (h : asCodeOf owner x s = .error why t) :
    ∃ u, x { s with context := owner :: s.context } = .error why u := by
  unfold asCodeOf between at h
  cases hx : x { s with context := owner :: s.context } with
  | ok a u =>
      rw [hx] at h
      cases h
  | error why' u =>
      rw [hx] at h
      cases h
      exact ⟨u, rfl⟩

end Exec

namespace Evaluator

open Exec

/-! ## What the members of a class do to a state -/

def initialise (ev : Evaluator) (scope : Scope) (m : MemberDecl) : Exec Unit :=
  match m.body with
  | .field name _ ty value | .property name ty _ _ value =>
    (fun _ => ()) <$> ev.initialValue scope name ty value
  | .method _ | .constructor _ | .binary .. | .unary .. => return ()

def initialiseAll (ev : Evaluator) (scope : Scope) : List MemberDecl → Exec Unit
  | [] => return ()
  | m :: ms => do
    ev.initialise scope m
    initialiseAll ev scope ms

variable {ev : Evaluator} {scope : Scope} {s t : State}

/-- Beside finding the first value, a member does nothing to the state. -/
theorem final_addMember (d : Draft) (m : MemberDecl) :
    (ev.addMember scope d m).final s = (ev.initialise scope m).final s := by
  unfold addMember initialise
  cases m.body with
  | field name readonly ty value =>
      rw [final_map]
      exact final_bind fun r t => final_ask _ t
  | property name ty getter setter value =>
      rw [final_map]
      exact final_bind fun r t => final_ask _ t
  | method decl => exact final_ask _ s
  | constructor decl => exact final_ask _ s
  | binary op decl => exact final_ask _ s
  | unary op decl => exact final_ask _ s

theorem initialise_of_addMember {d d' : Draft} {m : MemberDecl}
    (h : ev.addMember scope d m s = .ok d' t) : ev.initialise scope m s = .ok () t := by
  have hfound : ∀ {name : String} {ty : Option Ty} {value : Option Expr} {r : Ty × Value},
      ev.initialValue scope name ty value s = .ok r t →
      ((fun _ => ()) <$> ev.initialValue scope name ty value) s = .ok () t := by
    intro name ty value r hvalue
    change EStateM.map _ _ s = _
    rw [EStateM.map, hvalue]
  unfold addMember at h
  unfold initialise
  cases hbody : m.body with
  | field name readonly ty value =>
      rw [hbody] at h
      obtain ⟨r, u, hvalue, h⟩ := exists_of_bind_eq_ok h
      obtain ⟨_, rfl⟩ := ask_eq_ok h
      exact hfound hvalue
  | property name ty getter setter value =>
      rw [hbody] at h
      obtain ⟨r, u, hvalue, h⟩ := exists_of_bind_eq_ok h
      obtain ⟨_, _, hget, h⟩ := exists_of_bind_eq_ok h
      cases hget
      obtain ⟨_, rfl⟩ := ask_eq_ok h
      exact hfound hvalue
  | method decl | constructor decl | binary op decl | unary op decl =>
      rw [hbody] at h
      obtain ⟨_, rfl⟩ := ask_eq_ok h
      rfl

/-- Members that cannot all be added leave what finding some of their first values does. -/
theorem exists_final_of_addMembers {d : Draft} {ms : List MemberDecl} {why : Halt}
    (h : ev.addMembers scope d ms s = .error why t) :
    ∃ n, (ev.initialiseAll scope (ms.take n)).final s = t := by
  induction ms generalizing d s with
  | nil => cases h
  | cons m ms ih =>
      rcases bind_eq_error h with h | ⟨d', u, hmember, h⟩
      · refine ⟨1, ?_⟩
        have hlast : (ev.initialiseAll scope [m]).final s = (ev.initialise scope m).final s :=
          final_bind fun _ _ => rfl
        rw [List.take_succ_cons, List.take_zero, hlast, ← final_addMember d m, final_of_error h]
      · obtain ⟨n, hn⟩ := ih h
        refine ⟨n + 1, ?_⟩
        rw [List.take_succ_cons, initialiseAll, final,
          bind_eq_of_ok (initialise_of_addMember hmember)]
        exact hn

/-! ## Declarations that fail -/

/-- The body of a class binds no name in the frame of the declaration, so that the name of the class
is still free there in the end. -/
theorem Orderly.local?_classBody (hev : ev.Orderly False) {decl : ClassDecl} {handle : Handle}
    {parent : Container} {d : Draft} {name : String} (hscope : scope.inner < s.frames.size)
    (hfree : s.frames.local? scope.inner name = none)
    (h : asCodeOf (some decl.name)
      (ev.addMembers scope (inherit decl.name handle parent) decl.members) s = .ok d t) :
    t.frames.local? scope.inner name = none := by
  have hparent : False → parent.NullSafe := False.elim
  have hbody := hev.classBody scope decl handle (s.fits_terms fun _ => False) hparent
  have hsame := (State.orderly_of_conducted hbody).names.bound scope.inner hscope name
  rw [final_of_ok h, hfree] at hsame
  exact Option.not_isSome_iff_eq_none.mp (by simp [hsame])

/-- A class is made and bound to its name without fail, once its body is complete. -/
theorem Orderly.defineClass_error (hev : ev.Orderly False) {decl : ClassDecl} {handle : Handle}
    {parent : Container} {why : Halt} (hscope : scope.inner < s.frames.size)
    (hfree : s.frames.local? scope.inner decl.name = none)
    (h : ev.defineClass scope decl handle parent s = .error why t) :
    ∃ n, t = (asCodeOf (some decl.name)
      (ev.initialiseAll scope (decl.members.take n))).final s := by
  rcases bind_eq_error h with h | ⟨d, u, hbody, h⟩
  · obtain ⟨u, hu⟩ := asCodeOf_eq_error h
    obtain ⟨n, hn⟩ := exists_final_of_addMembers hu
    refine ⟨n, ?_⟩
    rw [← final_of_error h]
    exact final_asCodeOf _ ((final_of_error hu).trans hn.symm)
  · -- the body is complete, and the name was free when it began
    have hfree' := hev.local?_classBody hscope hfree hbody
    rcases bind_eq_error h with h | ⟨cls, w, halloc, h⟩
    · cases h
    · cases halloc
      rcases bind_eq_error h with h | ⟨b, w, _, h⟩
      · obtain ⟨_, f, hf⟩ := ask_eq_error h
        unfold Frames.newConstant at hf
        rw [show Frames.local? _ scope.inner decl.name = none from hfree'] at hf
        cases hf
      · cases h

/-- A declaration fails before its body is run, and then nothing has changed; or the registry knows
the class, its body fails, and some first values have been found. -/
theorem Orderly.declareClass_error (hev : ev.Orderly False) {decl : ClassDecl} {why : Halt}
    (hscope : scope.inner < s.frames.size) (h : ev.declareClass scope decl s = .error why t) :
    t = s ∨ ∃ found parent, s.frames.local? scope.inner decl.name = none ∧
      s.parentOf scope decl.name none decl.bases = .ok found ∧
      s.heap.get (found.getD s.objectClass) = .ok parent ∧
      ∃ n, t = (asCodeOf (some decl.name) (ev.initialiseAll scope (decl.members.take n))).final
        { s with registry := s.registry.define decl.name (some parent.name) } := by
  unfold Evaluator.declareClass at h
  rcases bind_eq_error h with h | ⟨_, _, hget, h⟩
  · cases h
  cases hget
  cases hlocal : s.frames.local? scope.inner decl.name with
  | some b =>
      rw [hlocal] at h
      cases h
      exact Or.inl rfl
  | none =>
      rw [hlocal] at h
      rcases bind_eq_error h with h | ⟨found, _, hfound, h⟩
      · exact Or.inl (ask_eq_error h).1
      obtain ⟨hfound, rfl⟩ := ask_eq_ok hfound
      rcases bind_eq_error h with h | ⟨parent, _, hparent, h⟩
      · exact Or.inl (ask_eq_error h).1
      obtain ⟨hparent, rfl⟩ := ask_eq_ok hparent
      rcases bind_eq_error h with h | ⟨_, _, hregister, h⟩
      · cases h
      cases hregister
      exact Or.inr ⟨found, parent, rfl, hfound, hparent, hev.defineClass_error hscope hlocal h⟩

end Evaluator

/-- The registry says of the name of a class what a declaration makes it say, unless the declaration
is refused before that: because the name is taken, or for the sake of its bases. -/
def State.Registers (s : State) (scope : Scope) (decl : ClassDecl) : Prop :=
  ∀ found parent, s.frames.local? scope.inner decl.name = none →
    s.parentOf scope decl.name none decl.bases = .ok found →
    s.heap.get (found.getD s.objectClass) = .ok parent →
    s.registry.parents.get? decl.name = some (some parent.name)

/-- A class declaration that fails leaves the state that finding some first values of members
leaves, from a state in which at most the registry may know the class. So it does nothing itself to
the bindings and to the heap, and nothing to the registry if that said the same of its name. -/
theorem declareClass_leaves_no_trace {config : Config} (hhost : config.host.Orderly) (fuel : Nat)
    {scope : Scope} {decl : ClassDecl} {s t : State} {why : Halt}
    (hscope : scope.inner < s.frames.size)
    (h : (evaluator config fuel).declareClass scope decl s = .error why t) :
    ∃ registry n, t = (Exec.asCodeOf (some decl.name)
        ((evaluator config fuel).initialiseAll scope (decl.members.take n))).final
          { s with registry := registry } ∧
      (registry = s.registry ∨ ∃ parent, registry = s.registry.define decl.name (some parent)) ∧
      (s.Registers scope decl → registry = s.registry) := by
  have hev := hhost.evaluator fuel
  rcases hev.declareClass_error hscope h with rfl | ⟨found, parent, hfree, hfound, hparent, n, ht⟩
  · exact ⟨t.registry, 0, rfl, Or.inl rfl, fun _ => rfl⟩
  · refine ⟨_, n, ht, Or.inr ⟨parent.name, rfl⟩, ?_⟩
    intro hregisters
    rw [Registry.define, Assoc.insert_eq_self (hregisters found parent hfree hfound hparent)]

/-- A class with two fields, the second of which has no first value. -/
def brokenClass : ClassDecl where
  name := "A"
  bases := []
  members := [⟨.ownClass, false, .field "x" false none (some (.list []))⟩,
    ⟨.ownClass, false, .field "y" false none (some (.var "missing"))⟩]

def Exec.halts {α : Type} (x : Exec α) (s : State) : Bool :=
  match x s with
  | .ok .. => false
  | .error .. => true

theorem Exec.exists_of_halts {α : Type} {x : Exec α} {s : State} (h : x.halts s = true) :
    ∃ why, x s = .error why (x.final s) := by
  unfold halts at h
  cases hx : x s with
  | ok a t =>
      rw [hx] at h
      cases h
  | error why t => exact ⟨why, by rw [final, hx]⟩

/-- The second declaration of a class that fails twice. -/
theorem declareClass_leaves_no_trace_again :
    let ev := evaluator { host := Host.callback } 10
    let s := (ev.declareClass State.start.globals brokenClass).final State.start
    s.Registers s.globals brokenClass ∧
      ∃ why t n, ev.declareClass s.globals brokenClass s = .error why t ∧
        t = (Exec.asCodeOf (some "A")
          (ev.initialiseAll s.globals (brokenClass.members.take n))).final s := by
  intro ev s
  have hhost : Config.host { host := Host.callback } |>.Orderly := Host.orderly_callback
  have hobject : (s.heap.get s.objectClass).toOption.map Container.name = some "Object" := by
    decide +kernel
  have hname : s.registry.parents.get? "A" = some (some "Object") := by decide +kernel
  have hregisters : s.Registers s.globals brokenClass := by
    intro found parent _ hfound hparent
    obtain rfl : none = found := Except.ok.inj hfound
    rw [Option.getD_none] at hparent
    rw [hparent] at hobject
    rw [show parent.name = "Object" from Option.some.inj hobject]
    exact hname
  have hhalts : (ev.declareClass s.globals brokenClass).halts s = true := by decide +kernel
  obtain ⟨why, hrun⟩ := Exec.exists_of_halts hhalts
  obtain ⟨registry, n, ht, _, hsame⟩ :=
    declareClass_leaves_no_trace hhost 10 (by decide +kernel) hrun
  rw [hsame hregisters] at ht
  exact ⟨hregisters, why, _, n, hrun, ht⟩

/-- The name of a class whose declaration fails is in the registry from then on, although no first
value of its members puts it there. -/
theorem declareClass_leaves_name :
    let ev := evaluator {} 10
    let s := State.start
    let t := (ev.declareClass s.globals brokenClass).final s
    (ev.declareClass s.globals brokenClass).halts s = true ∧
      t.registry.contains "A" = true ∧ t.registry.parentOf? "A" = some "Object" ∧
      t.registry.isSubclass "A" "Object" = true ∧
      ∀ n, let u := (Exec.asCodeOf (some "A")
          (ev.initialiseAll s.globals (brokenClass.members.take n))).final s
        u.registry.contains "A" = false ∧ u.registry.parentOf? "A" = none ∧
          u.registry.isSubclass "A" "Object" = false := by
  intro ev s t
  refine ⟨by decide +kernel, by decide +kernel, by decide +kernel, by decide +kernel, ?_⟩
  intro n
  have htake : brokenClass.members.take n = brokenClass.members.take (min n 2) := by
    rw [List.take_eq_take_iff]
    simp [brokenClass]
  have hfew : ∀ k ≤ 2,
      let u := (Exec.asCodeOf (some "A")
        (ev.initialiseAll s.globals (brokenClass.members.take k))).final s
      u.registry.contains "A" = false ∧ u.registry.parentOf? "A" = none ∧
        u.registry.isSubclass "A" "Object" = false := by decide +kernel
  rw [htake]
  exact hfew (min n 2) (Nat.min_le_right n 2)

end ClassScript

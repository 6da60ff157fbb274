import ClassScript.Proofs.ConductedCode
import ClassScript.Run.Builtins

/-!
# What no code can change

Whatever a piece of code does and however it ends, no binding and no container goes away. A variable
keeps its type, and a constant its value as well. A container keeps all that its class made it:
members come with the same access, type and accessors as before, and a readonly field with the same
value.

Functions of the host are not written in the language, so they have to be trusted with this. They
may use calls of the language, which need no trust.
-/

namespace ClassScript

/-! ## States before and after -/

namespace State

/-- Every binding and every container is still there, and what cannot change has not changed. -/
structure Stable (s t : State) : Prop where
  binding : ∀ id name b, s.frames.local? id name = some b →
    ∃ b', t.frames.local? id name = some b' ∧ b.Stays b'
  container : ∀ handle c, s.heap.get handle = .ok c →
    ∃ c', t.heap.get handle = .ok c' ∧ c.Stays c'

/-- The frames that were there bind the same names as before. So a scope that is made of such frames
shows the same names. -/
structure SameNames (s t : State) : Prop where
  bound : ∀ id < s.frames.size, ∀ name,
    (t.frames.local? id name).isSome = (s.frames.local? id name).isSome
  visible : ∀ scope : Scope, (∀ id ∈ scope.frames, id < s.frames.size) → ∀ name,
    t.frames.contains scope name = s.frames.contains scope name

/-- What the function of a host may do to a state: no more than a call of the language does. -/
structure Orderly (s t : State) : Prop where
  stable : s.Stable t
  names : s.SameNames t
  size : s.frames.size ≤ t.frames.size
  callDepth : t.callDepth = s.callDepth
  context : t.context = s.context

end State

/-- A host whose functions keep to what calls of the language do, if the calls that they make do. -/
def Host.Orderly (host : Host) : Prop :=
  ∀ call : Function → List Value → Exec Value,
    (∀ f args (s : State), s.Orderly ((call f args).final s)) →
    ∀ name args (s : State), s.Orderly ((host call name args).final s)

/-! ## From changes to states -/

namespace State

variable {α : Type} {Q : α → Prop} {s t : State} {x : Exec α}

def terms (s : State) (free : FrameId → Prop) : Terms False where
  base := s.frames.size
  free := free

theorem fits_terms (s : State) (free : FrameId → Prop) : (s.terms free).Fits s :=
  ⟨Nat.le_refl _, False.elim⟩

theorem stable_of_upholds {free : FrameId → Prop} (h : (s.terms free).Upholds s t) :
    s.Stable t where
  binding id name b hb := h.binding id (Frames.lt_size_of_local? hb) name b hb
  container := h.container

theorem SameNames.of_bound (h : ∀ id < s.frames.size, ∀ name,
    (t.frames.local? id name).isSome = (s.frames.local? id name).isSome) : s.SameNames t where
  bound := h
  visible scope hscope name := by
    unfold Frames.contains
    rw [Bool.eq_iff_iff, List.any_eq_true, List.any_eq_true]
    constructor
    · rintro ⟨id, hid, hbound⟩
      exact ⟨id, hid, h id (hscope id hid) name ▸ hbound⟩
    · rintro ⟨id, hid, hbound⟩
      exact ⟨id, hid, (h id (hscope id hid) name).symm ▸ hbound⟩

/-- A frame that is not open to new names keeps its names. -/
theorem isSome_eq_of_upholds {free : FrameId → Prop} (h : (s.terms free).Upholds s t)
    {id : FrameId} (hid : id < s.frames.size) (hfree : ¬ free id) (name : String) :
    (t.frames.local? id name).isSome = (s.frames.local? id name).isSome := by
  cases hlocal : s.frames.local? id name with
  | some b =>
      obtain ⟨b', hb', _⟩ := h.binding id hid name b hlocal
      rw [hb']
      rfl
  | none =>
      have hclosed : ¬ (s.terms free).Opens id := by
        rintro (hbase | hopen)
        · exact Nat.not_lt.mpr hbase hid
        · exact hfree hopen
      rw [h.names id hclosed name hlocal]

theorem sameNames_of_upholds (h : (s.terms fun _ => False).Upholds s t) : s.SameNames t :=
  .of_bound fun _ hid name => isSome_eq_of_upholds h hid id name

/-- A run that opens no frame of the start to new names is orderly. -/
theorem orderly_of_conducted (h : (s.terms fun _ => False).Conducted Q s (x s)) :
    s.Orderly (x.final s) := by
  have hupholds := h.upholds
  obtain ⟨cs, _, hfinal⟩ := h.exists_final
  refine ⟨stable_of_upholds hupholds, sameNames_of_upholds hupholds, hupholds.size, ?_, ?_⟩
  · rw [hfinal, after_callDepth]
  · rw [hfinal, after_context]

/-- What is orderly respects all terms. -/
theorem Orderly.upholds (h : s.Orderly t) {T : Terms False} (hs : T.Fits s) : T.Upholds s t where
  size := h.size
  binding id _ name b hb := h.stable.binding id name b hb
  names id hid name hnone := by
    have hlt : id < s.frames.size := by
      refine Nat.lt_of_lt_of_le ?_ hs.base
      exact Nat.not_le.mp fun hbase => hid (Or.inl hbase)
    have hsame := h.names.bound id hlt name
    rw [hnone] at hsame
    exact Option.not_isSome_iff_eq_none.mp (by simp [hsame])
  container := h.stable.container
  template hstrict := hstrict.elim
  nullSafe hstrict := hstrict.elim

/-- Something orderly that happens in one step counts as one change. -/
theorem Orderly.conducted (h : s.Orderly (x.final s)) {T : Terms False} (hs : T.Fits s) :
    T.Conducted (fun _ => True) s (x s) := by
  have happly : s.apply (.foreign fun _ => x.final s) = x.final s :=
    control_self h.callDepth h.context
  have hproper : (Change.foreign fun _ => x.final s).Proper T s :=
    ⟨id, happly.symm ▸ h.upholds hs⟩
  have hresult : ∀ r, x s = r → T.Conducted (fun _ => True) s r := by
    intro r hr
    cases r with
    | ok a t =>
        have ht : t = s.apply (.foreign fun _ => x.final s) := by
          rw [happly, Exec.final, hr]
        rw [ht]
        exact .change _ hproper trivial
    | error why t =>
        have ht : t = s.apply (.foreign fun _ => x.final s) := by
          rw [happly, Exec.final, hr]
        rw [ht]
        exact .halt [_] ⟨hproper, trivial⟩ why
  exact hresult _ rfl

end State

theorem Host.Orderly.conducted {host : Host} (h : host.Orderly) : host.Conducted False := by
  intro call hcall T s name args hs
  refine (h call (fun f args s => ?_) name args s).conducted hs
  exact State.orderly_of_conducted (hcall f args (s.fits_terms _))

/-- With an orderly host the evaluator conducts code on all terms. -/
theorem Host.Orderly.evaluator {config : Config} (h : config.host.Orderly) (fuel : Nat) :
    (evaluator config fuel).Orderly False :=
  orderly_evaluator h.conducted fuel

/-! ## Stability -/

/-- No expression and no statement, run in any scope from any state, takes away a binding or a
container, or changes what cannot change, whether it ends well or not. -/
theorem stable_of_run {config : Config} (hhost : config.host.Orderly) (fuel : Nat) (scope : Scope)
    (s : State) :
    (∀ e, s.Stable (((evaluator config fuel).eval scope e).final s)) ∧
      ∀ stmt, s.Stable (((evaluator config fuel).exec scope stmt).final s) := by
  have hev := hhost.evaluator fuel
  constructor
  · intro e
    have hrun := hev.eval scope e (s.fits_terms fun _ => False)
    exact State.stable_of_upholds hrun.upholds
  · intro stmt
    have hrun := hev.exec scope stmt (s.fits_terms fun id => id = scope.inner) fun _ => Or.inr rfl
    exact State.stable_of_upholds hrun.upholds

/-- A host with one kind of function: it calls its first argument with the others. -/
def Host.callback : Host := fun call _ args =>
  match args with
  | .function f :: args => some <$> call f args
  | _ => return Option.none

theorem State.Orderly.refl (s : State) : s.Orderly s where
  stable := ⟨fun _ _ b hb => ⟨b, hb, .refl b⟩, fun _ c hc => ⟨c, hc, .refl c⟩⟩
  names := .of_bound fun _ _ _ => rfl
  size := Nat.le_refl _
  callDepth := rfl
  context := rfl

theorem Host.orderly_callback : Host.callback.Orderly := by
  intro call hcall name args s
  cases args with
  | nil => exact .refl s
  | cons v args =>
      cases v with
      | function f =>
          have hfinal : (Host.callback call name (.function f :: args)).final s =
              (call f args).final s := Exec.final_map some (call f args) s
          rw [hfinal]
          exact hcall f args s
      | number _ | string _ | boolean _ | list _ | object _ | null => exact .refl s

/-- A program that hands a function to a function of the host, which then calls it. -/
theorem stable_of_callback :
    let o := Overload.native [{ name := "f", ty := .function }] none (.host "apply")
    let apply : Binding := ⟨.function, .function { name := "apply", overloads := [o] }, true⟩
    let s := State.start.apply (.bind State.start.globals.inner "apply" apply)
    let stmt : Stmt := .expr (.call (.var "apply") [.var "println"])
    Host.callback.Orderly ∧
      s.Stable (((evaluator { host := Host.callback } 20).exec s.globals stmt).final s) := by
  intro o apply s stmt
  have hhost : Config.host { host := Host.callback } |>.Orderly := Host.orderly_callback
  exact ⟨hhost, (stable_of_run hhost 20 s.globals s).2 stmt⟩

end ClassScript

import ClassScript.Proofs.Conducted

/-!
# Runs under one regime

Two actions are compared from one and the same state. The second follows the first when it ends in
the same way and in the same state, and when the depth of calls and the context are then what they
were at the start. A regime says at which depths the actions are compared, and after which halts of
the first one nothing is said about the second.

The rules below take an action apart as it is put together. Since every action gives the depth back,
the second part of a sequence starts at a depth that the regime knows.
-/

namespace ClassScript

structure Regime where
  /-- The depths of calls at which code runs. -/
  depth : Nat → Prop
  /-- A run that halts like this is followed no further. -/
  cut : Halt → Prop

/-- Two states in which the same calls are running. -/
structure State.SameControl (s t : State) : Prop where
  callDepth : t.callDepth = s.callDepth
  context : t.context = s.context

namespace State.SameControl

variable {s t u : State}

theorem refl (s : State) : s.SameControl s :=
  ⟨rfl, rfl⟩

theorem trans (hst : s.SameControl t) (htu : t.SameControl u) : s.SameControl u :=
  ⟨htu.callDepth.trans hst.callDepth, htu.context.trans hst.context⟩

end State.SameControl

namespace Regime

variable {α β : Type}

/-- How two runs from `s` end, where the second follows the first. -/
inductive Ends (R : Regime) (s : State) :
    EStateM.Result Halt State α → EStateM.Result Halt State α → Prop
  | ok (a : α) (t : State) (h : s.SameControl t) : R.Ends s (.ok a t) (.ok a t)
  | halt (why : Halt) (t : State) (h : s.SameControl t) : R.Ends s (.error why t) (.error why t)
  | cut (why : Halt) (hwhy : R.cut why) (t : State) (r : EStateM.Result Halt State α) :
      R.Ends s (.error why t) r

def Follows (R : Regime) (x y : Exec α) : Prop :=
  ∀ s : State, R.depth s.callDepth → R.Ends s (x s) (y s)

variable {R : Regime} {s t : State}

theorem Ends.of_sameControl {r r' : EStateM.Result Halt State α} (hst : s.SameControl t)
    (h : R.Ends t r r') : R.Ends s r r' := by
  cases h with
  | ok a u h => exact .ok a u (hst.trans h)
  | halt why u h => exact .halt why u (hst.trans h)
  | cut why hwhy u => exact .cut why hwhy u _

/-- The second parts of two sequences start in a state where the same calls are running. -/
theorem Ends.bind {x y : Exec α} {f g : α → Exec β} (hx : R.Ends s (x s) (y s))
    (hf : ∀ a t, s.SameControl t → R.Ends t (f a t) (g a t)) :
    R.Ends s ((x >>= f) s) ((y >>= g) s) := by
  change R.Ends s (EStateM.bind x f s) (EStateM.bind y g s)
  unfold EStateM.bind
  generalize x s = r at hx
  generalize y s = r' at hx
  cases hx with
  | ok a t h => exact .of_sameControl h (hf a t h)
  | halt why t h => exact .halt why t h
  | cut why hwhy t => exact .cut why hwhy t _

/-- A run between two changes of the control state that cancel each other. -/
theorem Ends.between {enter leave : State → State} {x y : Exec α}
    (hleave : ∀ t, (enter s).SameControl t → s.SameControl (leave t))
    (h : R.Ends (enter s) (x (enter s)) (y (enter s))) :
    R.Ends s (Exec.between enter leave x s) (Exec.between enter leave y s) := by
  unfold Exec.between
  generalize x (enter s) = r at h
  generalize y (enter s) = r' at h
  cases h with
  | ok a t h => exact .ok a _ (hleave t h)
  | halt why t h => exact .halt why _ (hleave t h)
  | cut why hwhy t => exact .cut why hwhy _ _

namespace Follows

/-! ## Sequences -/

theorem bind {x y : Exec α} {f g : α → Exec β} (hx : R.Follows x y)
    (hf : ∀ a, R.Follows (f a) (g a)) : R.Follows (x >>= f) (y >>= g) := by
  intro s hs
  refine (hx s hs).bind fun a t ht => hf a t ?_
  rw [ht.callDepth]
  exact hs

theorem map {x y : Exec α} (f : α → β) (hx : R.Follows x y) : R.Follows (f <$> x) (f <$> y) := by
  intro s hs
  have hxs := hx s hs
  change R.Ends s (EStateM.map f x s) (EStateM.map f y s)
  unfold EStateM.map
  generalize x s = r at hxs
  generalize y s = r' at hxs
  cases hxs with
  | ok a t h => exact .ok (f a) t h
  | halt why t h => exact .halt why t h
  | cut why hwhy t => exact .cut why hwhy t _

/-- An action that looks at the whole state. -/
theorem get_bind {f g : State → Exec α} (h : ∀ s, R.Follows (f s) (g s)) :
    R.Follows (get >>= f) (get >>= g) :=
  fun s hs => h s s hs

/-! ## Actions that leave the control state alone -/

/-- Such an action follows itself. -/
theorem refl {x : Exec α} (h : ∀ s : State, s.SameControl (x.final s)) : R.Follows x x := by
  intro s _
  have hs := h s
  unfold Exec.final at hs
  cases hx : x s with
  | ok a t =>
      rw [hx] at hs
      exact .ok a t hs
  | error why t =>
      rw [hx] at hs
      exact .halt why t hs

theorem pure (a : α) : R.Follows (pure a) (pure a) :=
  fun s _ => .ok a s (.refl s)

theorem throw (why : Halt) : R.Follows (throw why : Exec α) (throw why) :=
  fun s _ => .halt why s (.refl s)

theorem fault (f : Fault) : R.Follows (Exec.fault f : Exec α) (Exec.fault f) :=
  .throw (.fault f)

theorem ask (question : State → Except Fault α) :
    R.Follows (Exec.ask question) (Exec.ask question) := by
  refine .refl fun s => ?_
  unfold Exec.final Exec.ask
  cases question s <;> exact .refl s

theorem modify {f : State → State} (h : ∀ s : State, s.SameControl (f s)) :
    R.Follows (modify f : Exec PUnit) (modify f) :=
  fun s _ => .ok () (f s) (h s)

theorem newScope (scope : Scope) : R.Follows (Exec.newScope scope) (Exec.newScope scope) :=
  .refl fun _ => ⟨rfl, rfl⟩

theorem newList (items : List Value) : R.Follows (Exec.newList items) (Exec.newList items) :=
  .refl fun _ => ⟨rfl, rfl⟩

theorem alloc (c : Container) : R.Follows (Exec.alloc c) (Exec.alloc c) :=
  .refl fun _ => ⟨rfl, rfl⟩

theorem define (id : FrameId) (name : String) (b : Binding) :
    R.Follows (Exec.define id name b) (Exec.define id name b) :=
  .modify fun _ => ⟨rfl, rfl⟩

theorem rebind (id : FrameId) (name : String) (rule : State → Except Fault Binding) :
    R.Follows (Exec.rebind id name rule) (Exec.rebind id name rule) :=
  .bind (.ask rule) fun b => .define id name b

theorem write (text : String) : R.Follows (Exec.write text) (Exec.write text) := by
  refine .refl fun s => ?_
  unfold Exec.final Exec.write
  cases s.sink.write text <;> exact ⟨rfl, rfl⟩

theorem defaultValue (scope : Scope) (ty : Ty) :
    R.Follows (Exec.defaultValue scope ty) (Exec.defaultValue scope ty) := by
  unfold Exec.defaultValue
  split
  · exact .pure _
  · generalize ty.name = name
    split
    · exact .pure _
    · exact .pure _
    · exact .pure _
    · exact .newList []
    · exact .pure _
    · refine .get_bind fun s => ?_
      split
      · exact .pure _
      · exact .fault _

/-! ## Calls and the classes of running code -/

theorem asCodeOf (owner : Option String) {x y : Exec α} (h : R.Follows x y) :
    R.Follows (Exec.asCodeOf owner x) (Exec.asCodeOf owner y) := by
  intro s hs
  refine .between (fun t ht => ⟨ht.callDepth, ?_⟩) (h _ hs)
  change t.context.tail = s.context
  rw [ht.context]
  rfl

/-- One call deeper, if the regime knows that depth. -/
theorem deeper {x y : Exec α} (h : R.Follows x y) {s : State}
    (hs : R.depth (s.callDepth + 1)) : R.Ends s (Exec.deeper x s) (Exec.deeper y s) := by
  refine .between (fun t ht => ⟨?_, ht.context⟩) (h _ hs)
  change t.callDepth - 1 = s.callDepth
  rw [ht.callDepth]
  rfl

end Follows

end Regime

end ClassScript

import ClassScript.Proofs.Answers

/-!
# Two runs side by side

An action is run from two states that are alike. The runs are coupled when they end in the same way,
with the same result or for the same reason, and have made the same changes on the way. The first
run may also be cut short; then nothing is said about the second.

The rules below take an action apart as it is put together. The rule for sequences hands the result
of the first part on to the second, with alike states that have everything the first ones had.
-/

namespace ClassScript

def Halt.Tolerated (H : Horizon) : Halt → Prop
  | .fault f => H.Tolerates f
  | .outOfFuel => True

namespace Horizon

/-- Two runs from `s` and `s'` end in the same way after the same changes, and a result satisfies
`Q` in the state in which it came. `known` and `left` are the class declarations that are under way
before the runs and after them, if they have a result. -/
inductive Tandem (H : Horizon) (known left : List (String × String)) {α : Type}
    (Q : State → α → Prop) (s s' : State) :
    EStateM.Result Halt State α → EStateM.Result Halt State α → Prop
  | ok (cs : List Change) (hcs : H.Allows known s cs) (hleft : Change.pendingAfter known cs = left)
      (a : α) (ha : Q (s.after cs) a) :
      H.Tandem known left Q s s' (.ok a (s.after cs)) (.ok a (s'.after cs))
  | halt (cs : List Change) (hcs : H.Allows known s cs) (why : Halt) (hwhy : why.Tolerated H) :
      H.Tandem known left Q s s' (.error why (s.after cs)) (.error why (s'.after cs))
  | cut (why : Halt) (hwhy : H.cut why) (t : State) (r : EStateM.Result Halt State α) :
      H.Tandem known left Q s s' (.error why t) r

/-- Runs in tandem that end every class declaration that they begin. -/
abbrev Coupled (H : Horizon) (known : List (String × String)) {α : Type}
    (Q : State → α → Prop) (s s' : State) :
    EStateM.Result Halt State α → EStateM.Result Halt State α → Prop :=
  H.Tandem known known Q s s'

variable {H : Horizon} {known left : List (String × String)} {s s' : State} {α β : Type}
  {P : State → β → Prop} {Q R : State → α → Prop}

/-- Changes that were made before count as changes of the whole. -/
theorem Tandem.prepend {cs : List Change} (hcs : H.Allows known s cs)
    {r r' : EStateM.Result Halt State α}
    (h : H.Tandem (Change.pendingAfter known cs) left Q (s.after cs) (s'.after cs) r r') :
    H.Tandem known left Q s s' r r' := by
  cases h with
  | ok ds hds hleft a ha =>
      rw [← State.after_append, ← State.after_append]
      rw [← State.after_append] at ha
      rw [← Change.pendingAfter_append] at hleft
      exact .ok _ (hcs.append hds) hleft a ha
  | halt ds hds why hwhy =>
      rw [← State.after_append, ← State.after_append]
      exact .halt _ (hcs.append hds) why hwhy
  | cut why hwhy t => exact .cut why hwhy t _

theorem Tandem.bind {between : List (String × String)} {x x' : Exec α} {f f' : α → Exec β}
    (hs : H.Alike s s') (hx : H.Tandem known between Q s s' (x s) (x' s'))
    (hf : ∀ t t' a, H.Alike t t' → H.Keeps s t → Q t a →
      H.Tandem between left P t t' (f a t) (f' a t')) :
    H.Tandem known left P s s' ((x >>= f) s) ((x' >>= f') s') := by
  change H.Tandem known left P s s' (EStateM.bind x f s) (EStateM.bind x' f' s')
  unfold EStateM.bind
  generalize x s = r at hx
  generalize x' s' = r' at hx
  cases hx with
  | ok cs hcs hbetween a ha =>
      subst hbetween
      exact (hf _ _ a (hs.after hcs) hcs.keeps ha).prepend hcs
  | halt cs hcs why hwhy => exact .halt cs hcs why hwhy
  | cut why hwhy t => exact .cut why hwhy t _

namespace Coupled

/-- A result comes after changes of the state at the start. -/
theorem traced {r r' : EStateM.Result Halt State α} (h : H.Coupled known Q s s' r r') :
    H.Coupled known (fun t a => Q t a ∧ ∃ cs, H.Allows known s cs ∧ t = s.after cs) s s' r r' := by
  cases h with
  | ok cs hcs hleft a ha => exact .ok cs hcs hleft a ⟨ha, cs, hcs, rfl⟩
  | halt cs hcs why hwhy => exact .halt cs hcs why hwhy
  | cut why hwhy t => exact .cut why hwhy t _

/-! ## Sequences -/

theorem bind {x x' : Exec α} {f f' : α → Exec β} (hs : H.Alike s s')
    (hx : H.Coupled known Q s s' (x s) (x' s'))
    (hf : ∀ t t' a, H.Alike t t' → H.Keeps s t → Q t a →
      H.Coupled known P t t' (f a t) (f' a t')) :
    H.Coupled known P s s' ((x >>= f) s) ((x' >>= f') s') :=
  Tandem.bind hs hx hf

theorem map {x x' : Exec α} {f : α → β} (hx : H.Coupled known Q s s' (x s) (x' s'))
    (hf : ∀ t a, Q t a → P t (f a)) :
    H.Coupled known P s s' ((f <$> x) s) ((f <$> x') s') := by
  change H.Coupled known P s s' (EStateM.map f x s) (EStateM.map f x' s')
  unfold EStateM.map
  generalize x s = r at hx
  generalize x' s' = r' at hx
  cases hx with
  | ok cs hcs hleft a ha => exact .ok cs hcs hleft (f a) (hf _ a ha)
  | halt cs hcs why hwhy => exact .halt cs hcs why hwhy
  | cut why hwhy t => exact .cut why hwhy t _

theorem pure {a : α} (ha : Q s a) :
    H.Coupled known Q s s' ((pure a : Exec α) s) ((pure a : Exec α) s') :=
  .ok [] trivial rfl a ha

/-- An action that looks at the whole state. -/
theorem get_bind {f f' : State → Exec α} (h : H.Coupled known Q s s' (f s s) (f' s' s')) :
    H.Coupled known Q s s' ((get >>= f) s) ((get >>= f') s') :=
  h

theorem ask {question question' : State → Except Fault α}
    (h : H.Agree (Q s) (question s) (question' s')) :
    H.Coupled known Q s s' (Exec.ask question s) (Exec.ask question' s') := by
  unfold Exec.ask
  generalize question s = x at h
  generalize question' s' = x' at h
  cases h with
  | ok a ha => exact .ok [] trivial rfl a ha
  | error f hf => exact .halt [] trivial (.fault f) hf

/-- A question first: nothing changes before the rest. -/
theorem ask_bind {P : α → Prop} {R : State → β → Prop} {question question' : State → Except Fault α}
    {f f' : α → Exec β} (h : H.Agree P (question s) (question' s'))
    (hf : ∀ a, P a → H.Coupled known R s s' (f a s) (f' a s')) :
    H.Coupled known R s s' ((Exec.ask question >>= f) s) ((Exec.ask question' >>= f') s') := by
  change H.Coupled known R s s' (EStateM.bind (Exec.ask question) f s)
    (EStateM.bind (Exec.ask question') f' s')
  unfold EStateM.bind Exec.ask
  generalize question s = x at h
  generalize question' s' = x' at h
  cases h with
  | ok a ha => exact hf a ha
  | error f hf => exact .halt [] trivial (.fault f) hf

theorem ofExcept {x : Except Fault α} (h : H.Agree (Q s) x x) :
    H.Coupled known Q s s' (Exec.ofExcept x s) (Exec.ofExcept x s') :=
  ask h

theorem fault {f : Fault} (hf : ∀ handle, f ≠ .missingObject handle) :
    H.Coupled known Q s s' ((Exec.fault f : Exec α) s) ((Exec.fault f : Exec α) s') :=
  .halt [] trivial (.fault f) (tolerates_of_ne hf)

theorem outOfFuel :
    H.Coupled known Q s s' ((throw .outOfFuel : Exec α) s) ((throw .outOfFuel : Exec α) s') :=
  .halt [] trivial .outOfFuel trivial

/-- An action that makes one change, and neither begins nor ends a class declaration. -/
theorem change (c : Change) (hc : c.Allowed H known s) (hpending : c.pending known = known)
    {a : α} (ha : Q (s.apply c) a) :
    H.Coupled known Q s s' (.ok a (s.apply c)) (.ok a (s'.apply c)) :=
  .ok [c] ⟨hc, trivial⟩ hpending a ha

/-- The declaration of a class begins when its name is registered. -/
theorem register (name parent : String) {r r' : EStateM.Result Halt State α}
    (h : H.Tandem ((name, parent) :: known) known Q (s.apply (.register name parent))
      (s'.apply (.register name parent)) r r') : H.Coupled known Q s s' r r' := by
  have hbegun : H.Allows known s [.register name parent] := ⟨trivial, trivial⟩
  exact Tandem.prepend hbegun h

end Coupled

/-! ## Calls and the classes of running code -/

/-- A condition on results that the depth of calls and the context do not matter for. -/
def Steady (Q : State → α → Prop) : Prop :=
  ∀ (t : State) (depth : Nat) (context : List (Option String)) (a : α),
    Q (t.control depth context) a → Q t a

namespace Coupled

/-- A run that only differs in the depth of calls and in the context, which it gives back. -/
theorem between {enter leave : State → State} {x x' : Exec α} (hQ : Steady Q)
    {depth depth' : Nat} {context context' : List (Option String)}
    (henter : enter s = s.control depth context) (henter' : enter s' = s'.control depth' context')
    (hleave : ∀ t : State, leave (t.control depth context) = t.control s.callDepth s.context)
    (hleave' : ∀ t : State, leave (t.control depth' context') = t.control s'.callDepth s'.context)
    (h : H.Coupled known Q (s.control depth context) (s'.control depth' context')
      (x (s.control depth context)) (x' (s'.control depth' context'))) :
    H.Coupled known Q s s' (Exec.between enter leave x s) (Exec.between enter leave x' s') := by
  unfold Exec.between
  rw [henter, henter']
  generalize x (s.control depth context) = r at h
  generalize x' (s'.control depth' context') = r' at h
  have hback : ∀ (t : State) (cs : List Change),
      (t.after cs).control t.callDepth t.context = t.after cs := fun t cs =>
    State.control_self (State.after_callDepth t cs) (State.after_context t cs)
  cases h with
  | ok cs hcs hleft a ha =>
      rw [State.after_control] at ha
      simp only [State.after_control, hleave, hleave', hback]
      exact .ok cs hcs.of_control hleft a (hQ _ _ _ a ha)
  | halt cs hcs why hwhy =>
      simp only [State.after_control, hleave, hleave', hback]
      exact .halt cs hcs.of_control why hwhy
  | cut why hwhy t => exact .cut why hwhy _ _

theorem deeper {x x' : Exec α} (hQ : Steady Q) (hs : H.Alike s s')
    (hx : ∀ t t', H.Alike t t' → H.Keeps s t → H.Coupled known Q t t' (x t) (x' t')) :
    H.Coupled known Q s s' (Exec.deeper x s) (Exec.deeper x' s') := by
  have hentered : H.Alike (s.control (s.callDepth + 1) s.context)
      (s'.control (s'.callDepth + 1) s'.context) := by
    rw [hs.callDepth]
    exact hs.control _ hs.currentClass
  exact between hQ rfl rfl (fun _ => rfl) (fun _ => rfl)
    (hx _ _ hentered fun _ => s.keeps_control _ _)

theorem asCodeOf (owner : Option String) {x x' : Exec α} (hQ : Steady Q) (hs : H.Alike s s')
    (hx : ∀ t t', H.Alike t t' → H.Keeps s t → H.Coupled known Q t t' (x t) (x' t')) :
    H.Coupled known Q s s' (Exec.asCodeOf owner x s) (Exec.asCodeOf owner x' s') := by
  have hentered : H.Alike (s.control s.callDepth (owner :: s.context))
      (s'.control s'.callDepth (owner :: s'.context)) := by
    rw [hs.callDepth]
    exact hs.control _ rfl
  exact between hQ rfl rfl (fun _ => rfl) (fun _ => rfl)
    (hx _ _ hentered fun _ => s.keeps_control _ _)

/-! ## Actions that change the state -/

/-- A scope with a frame of its own. -/
theorem newScope {scope : Scope} (hs : H.Alike s s') (hscope : scope.Within H s) :
    H.Coupled known (fun t inner => inner.Within H t) s s' (Exec.newScope scope s)
      (Exec.newScope scope s') := by
  have hfresh : (Node.frame s.frames.size).Within H (s.apply .frame) :=
    ⟨fun hstale => Nat.lt_irrefl _ (hs.closed.past _ hstale), fun _ => by
      simp only [Node.Present, State.apply, Array.size_push]
      exact Nat.lt_succ_self _⟩
  have hresult : Exec.newScope scope s' = .ok (scope.child s.frames.size) (s'.apply .frame) := by
    rw [← hs.frames]
    rfl
  rw [hresult]
  have hkeeps : H.Keeps s (s.apply .frame) := fun _ => s.keeps_apply trivial
  exact change .frame trivial rfl ((hscope.mono hkeeps).child hfresh)

theorem newList {items : List Value} (hs : H.Alike s s') (hitems : ∀ v ∈ items, v.Within H s) :
    H.Coupled known (fun t v => v.Within H t) s s' (Exec.newList items s)
      (Exec.newList items s') := by
  have hfresh : (Node.list s.lists.size).Within H (s.apply (.list items)) :=
    ⟨fun hstale => Nat.lt_irrefl _ (hs.closed.past _ hstale), fun _ => by
      simp only [Node.Present, State.apply, Array.size_push]
      exact Nat.lt_succ_self _⟩
  have hresult : Exec.newList items s' = .ok (.list s.lists.size) (s'.apply (.list items)) := by
    rw [← hs.lists]
    rfl
  rw [hresult]
  exact change (.list items) hitems rfl hfresh

theorem define (id : FrameId) (name : String) {b : Binding} (hb : b.value.Within H s) :
    H.Coupled known (fun _ _ => True) s s' (Exec.define id name b s)
      (Exec.define id name b s') :=
  change (a := ()) (.bind id name b) hb rfl trivial

theorem rebind (id : FrameId) (name : String) {rule rule' : State → Except Fault Binding}
    (hs : H.Alike s s') (h : H.Agree (fun b => b.value.Within H s) (rule s) (rule' s')) :
    H.Coupled known (fun _ _ => True) s s' (Exec.rebind id name rule s)
      (Exec.rebind id name rule' s') := by
  refine bind hs (Q := fun t b => b.value.Within H t) (ask h) ?_
  intro t t' b _ _ hb
  exact define id name hb

theorem write (text : String) (hs : H.Alike s s') :
    H.Coupled known (fun _ _ => True) s s' (Exec.write text s) (Exec.write text s') := by
  unfold Exec.write
  rw [hs.sink]
  cases hsink : s.sink.write text with
  | error f =>
      refine .halt [] trivial (.fault f) (tolerates_of_ne ?_)
      unfold Sink.write at hsink
      dsimp only at hsink
      split at hsink
      · cases hsink
        nofun
      · cases hsink
  | ok sink =>
      have happly : ∀ t : State, t.sink = s.sink →
          ({ t with sink } : State) = t.apply (.print text) := by
        intro t ht
        simp only [State.apply, ht, hsink]
        rfl
      simp only [happly s rfl, happly s' hs.sink]
      exact change (.print text) trivial rfl trivial

theorem defaultValue {scope : Scope} (ty : Ty) (hs : H.Alike s s') :
    H.Coupled known (fun t v => v.Within H t) s s' (Exec.defaultValue scope ty s)
      (Exec.defaultValue scope ty s') := by
  unfold Exec.defaultValue
  by_cases hnull : ty.nullable
  · rw [if_pos hnull]
    exact pure trivial
  · rw [if_neg hnull]
    generalize ty.name = name
    split
    · exact pure trivial
    · exact pure trivial
    · exact pure trivial
    · exact newList hs nofun
    · exact pure (Function.Within.empty _)
    · refine get_bind ?_
      rw [hs.frames, hs.registry, hs.undefinedName]
      split
      · exact pure trivial
      · exact fault nofun

end Coupled

end Horizon

end ClassScript

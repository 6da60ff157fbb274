import ClassScript.Proofs.Resolution

/-!
# Runs on terms

A run from a state is conducted on some terms when it makes only changes that respect them, whether
it ends with a result or halts. The rules below take an action apart as it is put together. The rule
for sequences tells the second part that the state it starts from upholds the terms.
-/

namespace ClassScript

def Exec.final {α : Type} (action : Exec α) (s : State) : State :=
  match action s with
  | .ok _ t => t
  | .error _ t => t

theorem Exec.final_map {α β : Type} (f : α → β) (action : Exec α) (s : State) :
    (f <$> action).final s = action.final s := by
  have hmap : (f <$> action) s = EStateM.map f action s := rfl
  unfold Exec.final
  rw [hmap, EStateM.map]
  cases action s <;> rfl

theorem State.currentClass_after (s : State) (cs : List Change) :
    (s.after cs).currentClass = s.currentClass := by
  rw [currentClass, after_context, currentClass]

namespace Terms

variable {strict : Prop} {α β : Type}

/-- A state that a run on these terms can start from: the older frames are there, and in a strict
run null stands nowhere that it may not. -/
structure Fits (T : Terms strict) (s : State) : Prop where
  base : T.base ≤ s.frames.size
  nullSafe : strict → s.NullSafe

/-- A run from `s` makes changes on the terms `T`, and a result satisfies `Q`. -/
inductive Conducted (T : Terms strict) (Q : α → Prop) (s : State) :
    EStateM.Result Halt State α → Prop
  | ok (cs : List Change) (hcs : T.Permits s cs) (a : α) (ha : Q a) :
      T.Conducted Q s (.ok a (s.after cs))
  | halt (cs : List Change) (hcs : T.Permits s cs) (why : Halt) :
      T.Conducted Q s (.error why (s.after cs))

variable {T : Terms strict} {s t : State} {P : β → Prop} {Q R : α → Prop}

theorem Fits.trans (hs : T.Fits s) (hst : T.Upholds s t) : T.Fits t where
  base := Nat.le_trans hs.base hst.size
  nullSafe hstrict := hst.nullSafe hstrict (hs.nullSafe hstrict)

theorem Fits.control (hs : T.Fits s) (depth : Nat) (context : List (Option String)) :
    T.Fits (s.control depth context) :=
  ⟨hs.base, fun hstrict => (hs.nullSafe hstrict).control depth context⟩

namespace Conducted

/-- A run ends in a state that it came to by changes on the terms. -/
theorem exists_final {x : Exec α} (h : T.Conducted Q s (x s)) :
    ∃ cs, T.Permits s cs ∧ x.final s = s.after cs := by
  unfold Exec.final
  generalize x s = r at h
  cases h with
  | ok cs hcs a ha => exact ⟨cs, hcs, rfl⟩
  | halt cs hcs why => exact ⟨cs, hcs, rfl⟩

theorem upholds {x : Exec α} (h : T.Conducted Q s (x s)) : T.Upholds s (x.final s) := by
  obtain ⟨cs, hcs, hfinal⟩ := h.exists_final
  rw [hfinal]
  exact hcs.upholds

theorem exists_of_ok {x : Exec α} (h : T.Conducted Q s (x s)) {a : α} (hx : x s = .ok a t) :
    ∃ cs, T.Permits s cs ∧ t = s.after cs ∧ Q a := by
  rw [hx] at h
  cases h with
  | ok cs hcs _ ha => exact ⟨cs, hcs, rfl, ha⟩

theorem mono {r : EStateM.Result Halt State α} (h : T.Conducted Q s r) (hQR : ∀ a, Q a → R a) :
    T.Conducted R s r := by
  cases h with
  | ok cs hcs a ha => exact .ok cs hcs a (hQR a ha)
  | halt cs hcs why => exact .halt cs hcs why

/-! ## Sequences -/

/-- Changes that were made before count as changes of the whole. -/
theorem prepend {cs : List Change} (hcs : T.Permits s cs) {r : EStateM.Result Halt State α}
    (h : T.Conducted Q (s.after cs) r) : T.Conducted Q s r := by
  cases h with
  | ok ds hds a ha =>
      rw [← State.after_append]
      exact .ok _ (hcs.append hds) a ha
  | halt ds hds why =>
      rw [← State.after_append]
      exact .halt _ (hcs.append hds) why

/-- The first part may be conducted on other terms as well, which tell more about it. -/
theorem bind_also {T' : Terms strict} {x : Exec α} {f : α → Exec β} (hs : T.Fits s)
    (hx : T.Conducted Q s (x s)) (hx' : T'.Conducted R s (x s))
    (hf : ∀ t a, T.Fits t → T.Upholds s t → T'.Upholds s t → Q a → T.Conducted P t (f a t)) :
    T.Conducted P s ((x >>= f) s) := by
  have hupholds := hx'.upholds
  unfold Exec.final at hupholds
  change T.Conducted P s (EStateM.bind x f s)
  unfold EStateM.bind
  generalize x s = r at hx hupholds
  cases hx with
  | ok cs hcs a ha => exact (hf _ a (hs.trans hcs.upholds) hcs.upholds hupholds ha).prepend hcs
  | halt cs hcs why => exact .halt cs hcs why

theorem bind {x : Exec α} {f : α → Exec β} (hs : T.Fits s) (hx : T.Conducted Q s (x s))
    (hf : ∀ t a, T.Fits t → T.Upholds s t → Q a → T.Conducted P t (f a t)) :
    T.Conducted P s ((x >>= f) s) :=
  bind_also hs hx hx fun t a ht hst _ ha => hf t a ht hst ha

/-- The second part may know all about the run of the first. -/
theorem bind_run {x : Exec α} {f : α → Exec β} (hs : T.Fits s) (hx : T.Conducted Q s (x s))
    (hf : ∀ cs a, T.Permits s cs → x s = .ok a (s.after cs) → T.Fits (s.after cs) → Q a →
      T.Conducted P (s.after cs) (f a (s.after cs))) : T.Conducted P s ((x >>= f) s) := by
  change T.Conducted P s (EStateM.bind x f s)
  unfold EStateM.bind
  generalize hr : x s = r at hx
  cases hx with
  | ok cs hcs a ha => exact (hf cs a hcs hr (hs.trans hcs.upholds) ha).prepend hcs
  | halt cs hcs why => exact .halt cs hcs why

theorem map {x : Exec α} {f : α → β} (hx : T.Conducted Q s (x s)) (hf : ∀ a, Q a → P (f a)) :
    T.Conducted P s ((f <$> x) s) := by
  change T.Conducted P s (EStateM.map f x s)
  unfold EStateM.map
  generalize x s = r at hx
  cases hx with
  | ok cs hcs a ha => exact .ok cs hcs (f a) (hf a ha)
  | halt cs hcs why => exact .halt cs hcs why

theorem pure {a : α} (ha : Q a) : T.Conducted Q s ((pure a : Exec α) s) :=
  .ok [] trivial a ha

/-- An action that looks at the whole state. -/
theorem get_bind {f : State → Exec α} (h : T.Conducted Q s (f s s)) :
    T.Conducted Q s ((get >>= f) s) :=
  h

theorem ask {question : State → Except Fault α} (h : ∀ a, question s = .ok a → Q a) :
    T.Conducted Q s (Exec.ask question s) := by
  unfold Exec.ask
  cases hanswer : question s with
  | ok a => exact .ok [] trivial a (h a hanswer)
  | error f => exact .halt [] trivial (.fault f)

/-- A question first: nothing changes before the rest. -/
theorem ask_bind {question : State → Except Fault α} {f : α → Exec β}
    (hf : ∀ a, question s = .ok a → T.Conducted P s (f a s)) :
    T.Conducted P s ((Exec.ask question >>= f) s) := by
  change T.Conducted P s (EStateM.bind (Exec.ask question) f s)
  unfold EStateM.bind Exec.ask
  cases hanswer : question s with
  | ok a => exact hf a hanswer
  | error f => exact .halt [] trivial (.fault f)

theorem fault {f : Fault} : T.Conducted Q s ((Exec.fault f : Exec α) s) :=
  .halt [] trivial (.fault f)

theorem outOfFuel : T.Conducted Q s ((throw .outOfFuel : Exec α) s) :=
  .halt [] trivial .outOfFuel

/-- An action that makes one change. -/
theorem change (c : Change) (hc : c.Proper T s) {a : α} (ha : Q a) :
    T.Conducted Q s (.ok a (s.apply c)) :=
  .ok [c] ⟨hc, trivial⟩ a ha

/-- One change first: the state before the rest is known. -/
theorem change_bind {x : Exec α} {f : α → Exec β} (c : Change) {a : α} (hs : T.Fits s)
    (hx : x s = .ok a (s.apply c)) (hc : c.Proper T s)
    (hf : T.Fits (s.apply c) → T.Conducted P (s.apply c) (f a (s.apply c))) :
    T.Conducted P s ((x >>= f) s) := by
  change T.Conducted P s (EStateM.bind x f s)
  unfold EStateM.bind
  rw [hx]
  have hcs : T.Permits s [c] := ⟨hc, trivial⟩
  exact prepend hcs (hf (hs.trans hc.upholds))

/-! ## Calls and the classes of running code -/

/-- A run that only differs in the depth of calls and in the context, which it gives back. -/
theorem between {enter leave : State → State} {x : Exec α} {depth : Nat}
    {context : List (Option String)} (henter : enter s = s.control depth context)
    (hleave : ∀ t : State, leave (t.control depth context) = t.control s.callDepth s.context)
    (h : T.Conducted Q (s.control depth context) (x (s.control depth context))) :
    T.Conducted Q s (Exec.between enter leave x s) := by
  unfold Exec.between
  rw [henter]
  generalize x (s.control depth context) = r at h
  have hback : ∀ cs : List Change, (s.after cs).control s.callDepth s.context = s.after cs :=
    fun cs => State.control_self (State.after_callDepth s cs) (State.after_context s cs)
  cases h with
  | ok cs hcs a ha =>
      simp only [State.after_control, hleave, hback]
      exact .ok cs hcs.of_control a ha
  | halt cs hcs why =>
      simp only [State.after_control, hleave, hback]
      exact .halt cs hcs.of_control why

theorem deeper {x : Exec α} (hs : T.Fits s) (hx : ∀ t, T.Fits t → T.Conducted Q t (x t)) :
    T.Conducted Q s (Exec.deeper x s) := by
  have hinside := hs.control (s.callDepth + 1) s.context
  exact between rfl (fun _ => rfl) (hx _ hinside)

theorem asCodeOf (owner : Option String) {x : Exec α} (hs : T.Fits s)
    (hx : ∀ t, T.Fits t → T.Conducted Q t (x t)) : T.Conducted Q s (Exec.asCodeOf owner x s) := by
  have hinside := hs.control s.callDepth (owner :: s.context)
  exact between rfl (fun _ => rfl) (hx _ hinside)

/-! ## Actions that change the state -/

/-- The frame of a new scope is none of the older ones. -/
theorem newScope (scope : Scope) (hs : T.Fits s) :
    T.Conducted (fun inner => T.base ≤ inner.inner) s (Exec.newScope scope s) :=
  change .frame trivial hs.base

theorem newList (items : List Value) :
    T.Conducted (fun v => v ≠ .null) s (Exec.newList items s) :=
  change (.list items) trivial nofun

/-- In a frame of its own, code can bind anything. -/
theorem define {id : FrameId} (name : String) {b : Binding} (hid : T.base ≤ id)
    (hb : strict → b.ty.Admits b.value) :
    T.Conducted (fun _ => True) s (Exec.define id name b s) := by
  refine change (a := ()) (.bind id name b) ⟨fun old hlt => ?_, fun _ => Or.inl hid, hb⟩ trivial
  exact absurd hlt (Nat.not_lt.mpr hid)

theorem rebind {id : FrameId} {name : String} {rule : State → Except Fault Binding}
    (h : ∀ b, rule s = .ok b → (Change.bind id name b).Proper T s) :
    T.Conducted (fun _ => True) s (Exec.rebind id name rule s) := by
  refine ask_bind fun b hb => ?_
  exact change (a := ()) (.bind id name b) (h b hb) trivial

theorem write (text : String) : T.Conducted (fun _ => True) s (Exec.write text s) := by
  unfold Exec.write
  cases hsink : s.sink.write text with
  | error f => exact fault
  | ok sink =>
      have happly : ({ s with sink } : State) = s.apply (.print text) := by
        simp only [State.apply, hsink]
        rfl
      simp only [happly]
      exact change (.print text) trivial trivial

/-- The value that a slot starts with is null only where the type of the slot admits that. -/
theorem defaultValue (scope : Scope) (ty : Ty) :
    T.Conducted (fun v => ty.Admits v) s (Exec.defaultValue scope ty s) := by
  unfold Exec.defaultValue
  by_cases hnullable : ty.nullable = true
  · rw [if_pos hnullable]
    refine pure fun hexcludes => ?_
    rw [hexcludes.1] at hnullable
    cases hnullable
  · rw [if_neg hnullable]
    generalize hname : ty.name = name
    split
    · exact pure fun _ => nofun
    · exact pure fun _ => nofun
    · exact pure fun _ => nofun
    · exact (newList []).mono fun v hv _ => hv
    · exact pure fun _ => nofun
    · next hnumber hstring hboolean hlist hfunction =>
        refine get_bind ?_
        split
        · -- null is what a reference starts with, and no reference type excludes it
          refine pure fun hexcludes => ?_
          have hprimitive := hexcludes.2
          simp only [hname, List.mem_cons, List.not_mem_nil, or_false] at hprimitive
          rcases hprimitive with h | h | h | h | h
          · exact (hnumber h).elim
          · exact (hstring h).elim
          · exact (hboolean h).elim
          · exact (hfunction h).elim
          · exact (hlist h).elim
        · exact fault

end Conducted

/-! ## Rules for bindings -/

theorem proper_newVariable {id : FrameId} {name : String} {ty : Ty} {v : Value} (hid : T.Opens id)
    (hv : strict → ty.Admits v) {b : Binding}
    (h : s.frames.newVariable id name ty v = .ok b) : (Change.bind id name b).Proper T s := by
  unfold Frames.newVariable at h
  cases hlocal : s.frames.local? id name with
  | none =>
      rw [hlocal] at h
      cases h
      refine ⟨fun old _ hold => ?_, fun _ => hid, hv⟩
      rw [hlocal] at hold
      cases hold
  | some existing =>
      simp only [hlocal] at h
      split at h
      · cases h
      · next himmutable =>
          split at h
          · cases h
          · next hty =>
              cases h
              refine ⟨fun old _ hold => ?_, fun _ => hid, hv⟩
              rw [hlocal] at hold
              cases hold
              exact ⟨Bool.eq_false_iff.mpr himmutable, (Decidable.not_not.mp hty).symm, rfl⟩

theorem proper_newConstant {id : FrameId} {name : String} {ty : Ty} {v : Value} (hid : T.Opens id)
    (hv : strict → ty.Admits v) {b : Binding}
    (h : s.frames.newConstant id name ty v = .ok b) : (Change.bind id name b).Proper T s := by
  unfold Frames.newConstant at h
  cases hlocal : s.frames.local? id name with
  | some existing =>
      rw [hlocal] at h
      cases h
  | none =>
      rw [hlocal] at h
      cases h
      refine ⟨fun old _ hold => ?_, fun _ => hid, hv⟩
      rw [hlocal] at hold
      cases hold

/-- An assignment needs no leave: the name is there. -/
theorem proper_assigned {lineage : Lineage} {id : FrameId} {name : String} {ty : Ty} {v : Value}
    (hty : s.typeOf v = .ok ty) {b : Binding}
    (h : s.frames.assigned lineage id name ty v = .ok b) : (Change.bind id name b).Proper T s := by
  unfold Frames.assigned at h
  cases hlocal : s.frames.local? id name with
  | none =>
      rw [hlocal] at h
      cases h
  | some existing =>
      simp only [hlocal] at h
      split at h
      · cases h
      · next himmutable =>
          split at h
          · next hfits =>
              cases h
              refine ⟨fun old _ hold => ?_, fun hnone => ?_,
                fun _ => State.admits_of_assignable hty hfits⟩
              · rw [hlocal] at hold
                cases hold
                exact ⟨Bool.eq_false_iff.mpr himmutable, rfl, Bool.eq_false_iff.mpr himmutable⟩
              · rw [hlocal] at hnone
                cases hnone
          · cases h

end Terms

end ClassScript

import ClassScript.Proofs.Change

/-!
# States that look the same

Two states are alike when code that stays within the horizon cannot tell them apart: they differ at
most in stale containers, and in the classes of the code that waits for the running one. The same
change makes alike states from alike states.

`Agree` is the judgement about questions. Both states give the same answer, the answer satisfies a
condition, and a fault is not about a container that is gone, if the horizon is sound.
-/

namespace ClassScript

namespace Horizon

/-- Code that stays within the horizon cannot tell two states apart. -/
structure Alike (H : Horizon) (s s' : State) : Prop where
  closed : H.Closed s
  frames : s'.frames = s.frames
  lists : s'.lists = s.lists
  size : s'.heap.slots.size = s.heap.slots.size
  slots : ∀ handle, ¬ H.stale (.container handle) →
    s'.heap.slots[handle]? = s.heap.slots[handle]?
  registry : s'.registry = s.registry
  globals : s'.globals = s.globals
  objectClass : s'.objectClass = s.objectClass
  typeClass : s'.typeClass = s.typeClass
  callDepth : s'.callDepth = s.callDepth
  currentClass : s'.currentClass = s.currentClass
  sink : s'.sink = s.sink
  kept : s'.kept = s.kept

variable {H : Horizon} {s s' : State}

theorem Alike.refl (h : H.Closed s) : H.Alike s s where
  closed := h
  frames := rfl
  lists := rfl
  size := rfl
  slots _ _ := rfl
  registry := rfl
  globals := rfl
  objectClass := rfl
  typeClass := rfl
  callDepth := rfl
  currentClass := rfl
  sink := rfl
  kept := rfl

theorem Closed.control (h : H.Closed s) (depth : Nat) (context : List (Option String)) :
    H.Closed (s.control depth context) := by
  have hkeeps : H.Keeps s (s.control depth context) := fun _ => s.keeps_control depth context
  refine h.grow hkeeps rfl rfl rfl (fun _ hn => hn) ?_ ?_ ?_
  · intro _ frame hframe _ hb
    exact .inr ⟨frame, hframe, hb⟩
  · intro _ _ hv
    exact .inr hv
  · intro _ _ _ hc
    exact .inr hc

/-- Alike states stay alike when code of the same class runs at the same depth in both. -/
theorem Alike.control (h : H.Alike s s') (depth : Nat) {context context' : List (Option String)}
    (hclass : context'.head?.join = context.head?.join) :
    H.Alike (s.control depth context) (s'.control depth context') :=
  { h with
    closed := h.closed.control depth context
    callDepth := rfl
    currentClass := hclass }

/-- Where nothing is stale, alike states differ in the context only. -/
theorem Alike.control_eq (h : H.Alike s s') (hfresh : ∀ n, ¬ H.stale n) (depth : Nat)
    (context : List (Option String)) : s'.control depth context = s.control depth context := by
  have hheap : s'.heap = s.heap := by
    have hslots : s'.heap.slots = s.heap.slots :=
      Array.ext_getElem? fun handle => h.slots handle (hfresh _)
    cases hs : s.heap
    cases hs' : s'.heap
    simp_all
  have hstore : s'.toStore = s.toStore := by
    calc s'.toStore = ⟨s'.frames, s'.lists, s'.heap⟩ := rfl
      _ = ⟨s.frames, s.lists, s.heap⟩ := by rw [h.frames, h.lists, hheap]
      _ = s.toStore := rfl
  simp only [State.control, hstore, h.registry, h.globals, h.objectClass, h.typeClass, h.sink,
    h.kept]

theorem Alike.apply (h : H.Alike s s') {known : List (String × String)} {c : Change}
    (hc : c.Allowed H known s) : H.Alike (s.apply c) (s'.apply c) := by
  have hclosed := h.closed.apply hc
  have halloc : ∀ new : Container, ∀ handle, ¬ H.stale (.container handle) →
      (s'.heap.alloc new).2.slots[handle]? = (s.heap.alloc new).2.slots[handle]? := by
    intro new handle hfresh
    simp only [Heap.alloc, Array.getElem?_push, h.size, h.slots handle hfresh]
  cases c with
  | foreign f =>
      -- the host sees neither the depth nor the context, and nothing is stale to it
      have hsame : s'.control 0 [] = s.control 0 [] := h.control_eq (H.not_stale hc) 0 []
      simp only [State.apply, hsame, h.callDepth] at hclosed ⊢
      exact (Alike.refl hclosed).control _ h.currentClass
  | frame =>
      refine { h with closed := hclosed, frames := ?_ }
      simp only [State.apply, h.frames]
  | list items =>
      refine { h with closed := hclosed, lists := ?_ }
      simp only [State.apply, h.lists]
  | bind id name b =>
      refine { h with closed := hclosed, frames := ?_ }
      simp only [State.apply, h.frames]
  | setItem id position v =>
      refine { h with closed := hclosed, lists := ?_ }
      simp only [State.apply, h.lists]
  | setMember slot name v =>
      refine { h with closed := hclosed, size := ?_, slots := fun handle hfresh => ?_ }
      · simp only [State.apply, Heap.size_slots_modify, h.size]
      · simp only [State.apply, Heap.modify, Array.getElem?_modify, h.slots handle hfresh]
  | addClass new =>
      refine { h with closed := hclosed, size := ?_, slots := halloc new }
      simp only [State.apply, Heap.alloc, Array.size_push, h.size]
  | addInstance cls i =>
      refine { h with closed := hclosed, lists := ?_, size := ?_, slots := ?_ }
      · simp only [State.apply, h.lists]
      · simp only [State.apply, Heap.alloc, Array.size_push, h.size]
      · simp only [State.apply, h.lists]
        exact halloc _
  | register name parent =>
      refine { h with closed := hclosed, registry := ?_ }
      simp only [State.apply, h.registry]
  | print text =>
      refine { h with closed := hclosed, sink := ?_ }
      simp only [State.apply, h.sink]

theorem Alike.after (h : H.Alike s s') {known : List (String × String)} {cs : List Change}
    (hcs : H.Allows known s cs) : H.Alike (s.after cs) (s'.after cs) := by
  induction cs generalizing s s' known with
  | nil => exact h
  | cons c cs ih => exact ih (h.apply hcs.1) hcs.2

/-! ## Questions -/

/-- In a sound horizon no container is missed. -/
def Tolerates (H : Horizon) (f : Fault) : Prop :=
  H.sound → ∀ handle, f ≠ .missingObject handle

/-- Two states give the same answer to a question. -/
inductive Agree (H : Horizon) {α : Type} (Q : α → Prop) :
    Except Fault α → Except Fault α → Prop
  | ok (a : α) (h : Q a) : H.Agree Q (.ok a) (.ok a)
  | error (f : Fault) (h : H.Tolerates f) : H.Agree Q (.error f) (.error f)

namespace Agree

variable {α β : Type} {P : β → Prop} {Q R : α → Prop} {x x' : Except Fault α}

/-- A question whose answer is the same anyway. -/
theorem of_tolerated (hQ : ∀ a, x = .ok a → Q a) (hf : ∀ f, x = .error f → H.Tolerates f) :
    H.Agree Q x x := by
  cases x with
  | ok a => exact .ok a (hQ a rfl)
  | error f => exact .error f (hf f rfl)

theorem mono (h : H.Agree Q x x') (hQR : ∀ a, Q a → R a) : H.Agree R x x' := by
  cases h with
  | ok a ha => exact .ok a (hQR a ha)
  | error f hf => exact .error f hf

theorem bind (h : H.Agree Q x x') {f f' : α → Except Fault β}
    (hf : ∀ a, Q a → H.Agree P (f a) (f' a)) : H.Agree P (x >>= f) (x' >>= f') := by
  cases h with
  | ok a ha => exact hf a ha
  | error f hf => exact .error f hf

theorem map (h : H.Agree Q x x') {f : α → β} (hf : ∀ a, Q a → P (f a)) :
    H.Agree P (f <$> x) (f <$> x') := by
  cases h with
  | ok a ha => exact .ok (f a) (hf a ha)
  | error f hf => exact .error f hf

theorem mapM {f f' : α → Except Fault β} {as : List α}
    (h : ∀ a ∈ as, H.Agree P (f a) (f' a)) :
    H.Agree (fun bs => ∀ b ∈ bs, P b) (as.mapM f) (as.mapM f') := by
  induction as with
  | nil => exact .ok [] fun _ hb => absurd hb List.not_mem_nil
  | cons a as ih =>
      rw [List.mapM_cons, List.mapM_cons]
      refine (h a List.mem_cons_self).bind fun b hb => ?_
      refine (ih fun a' ha' => h a' (List.mem_cons_of_mem _ ha')).bind fun bs hbs => ?_
      exact .ok _ fun b' hb' => by
        rcases List.mem_cons.mp hb' with rfl | hb'
        · exact hb
        · exact hbs b' hb'

theorem filterMapM {f f' : α → Except Fault (Option β)} {as : List α}
    (h : ∀ a ∈ as, H.Agree (fun _ => True) (f a) (f' a)) :
    H.Agree (fun _ => True) (as.filterMapM f) (as.filterMapM f') := by
  induction as with
  | nil => exact .ok [] trivial
  | cons a as ih =>
      rw [List.filterMapM_cons, List.filterMapM_cons]
      refine (h a List.mem_cons_self).bind fun b _ => ?_
      have hrest := ih fun a' ha' => h a' (List.mem_cons_of_mem _ ha')
      cases b with
      | none => exact hrest
      | some b => exact hrest.bind fun bs _ => .ok _ trivial

end Agree

/-- Faults of every other kind are tolerated. -/
theorem tolerates_of_ne {f : Fault} (h : ∀ handle, f ≠ .missingObject handle) : H.Tolerates f :=
  fun _ => h

end Horizon

end ClassScript

import ClassScript.Proofs.Alike
import ClassScript.Proofs.Tracing
import ClassScript.Proofs.WellFormed

/-!
# What a collection takes away

A point of the store is garbage when no path leads to it from the global scope or from one of the
two classes that are always kept. A collection takes away exactly the containers that are garbage.
Code cannot tell the difference, and what is left is as sound as before.
-/

namespace ClassScript

/-- The horizon of code that cannot get to some points, that misses nothing else, and that holds no
function of the host. -/
def Horizon.beyond (stale : Node → Prop) : Horizon where
  stale := stale
  sound := True
  native f := ∀ name, f ≠ .host name
  cut _ := False
  foreign := False
  not_stale := False.elim
  not_sound := False.elim
  all_native := False.elim

/-! ## Another horizon -/

section Rebase

variable {H H' : Horizon} {s t : State} (hnative : ∀ f, H.native f → H'.native f)

include hnative

theorem Function.Within.rebase {f : Function} (h : f.Within H s)
    (hnodes : ∀ n ∈ f.nodes, n.Within H' t) : f.Within H' t := by
  intro o ho
  have hcode := h o ho
  cases hc : o.code with
  | native g =>
      rw [hc] at hcode
      exact hnative g hcode
  | script body scope =>
      refine fun id hid => hnodes _ (List.mem_flatMap.mpr ⟨o, ho, ?_⟩)
      rw [hc]
      exact List.mem_map.mpr ⟨id, hid, rfl⟩

/-- A value is within another horizon if everything it refers to is. -/
theorem Value.Within.rebase {v : Value} (h : v.Within H s)
    (hnodes : ∀ n ∈ v.nodes, n.Within H' t) : v.Within H' t := by
  cases v with
  | object handle | list id => exact hnodes _ (List.mem_singleton_self _)
  | function f => exact Function.Within.rebase hnative h hnodes
  | number _ | string _ | boolean _ | null => trivial

theorem Member.Within.rebase {m : Member} (h : m.Within H s)
    (hnodes : ∀ n ∈ m.nodes, n.Within H' t) : m.Within H' t where
  value := h.value.rebase hnative fun n hn => hnodes n (List.mem_append_left _ hn)
  accessors code hcode := by
    refine fun id hid => hnodes _ (List.mem_append_right _ ?_)
    cases hform : m.form with
    | field readonly =>
        rw [hform] at hcode
        exact absurd hcode List.not_mem_nil
    | property getter setter =>
        rw [hform] at hcode
        exact List.mem_flatMap.mpr ⟨code, hcode, List.mem_map.mpr ⟨id, hid, rfl⟩⟩

omit hnative in
theorem Container.mem_nodes_of_above? {c : Container} {handle : Handle}
    (h : c.kind.above? = some handle) : .container handle ∈ c.nodes := by
  simp only [Container.nodes, List.mem_append]
  refine Or.inl (Or.inl (Or.inl ?_))
  cases hkind : c.kind with
  | classOf parent =>
      rw [hkind] at h
      exact List.mem_map.mpr ⟨handle, Option.mem_toList.mpr h, rfl⟩
  | instanceOf cls =>
      rw [hkind] at h
      cases h
      exact List.mem_singleton_self _

theorem Container.Within.rebase {c : Container} (h : c.Within H s)
    (hnodes : ∀ n ∈ c.nodes, n.Within H' t) : c.Within H' t := by
  have hmember : ∀ m, m ∈ c.members.values ∨ m ∈ c.statics.values →
      ∀ n ∈ m.nodes, n.Within H' t := fun m hm n hn =>
    hnodes n (List.mem_append_left _ (List.mem_append_right _
      (List.mem_flatMap.mpr ⟨m, List.mem_append.mpr hm, hn⟩)))
  have hoperator : ∀ f, f ∈ c.binaryOps.values ∨ f ∈ c.unaryOps.values →
      ∀ n ∈ f.nodes, n.Within H' t := fun f hf n hn =>
    hnodes n (List.mem_append_right _ (List.mem_flatMap.mpr ⟨f, List.mem_append.mpr hf, hn⟩))
  exact {
    above := fun handle hh => hnodes _ (Container.mem_nodes_of_above? hh)
    constructors := h.constructors.rebase hnative fun n hn =>
      hnodes n (List.mem_append_left _ (List.mem_append_left _ (List.mem_append_right _ hn)))
    members := fun m hm => (h.members m hm).rebase hnative (hmember m (Or.inl hm))
    statics := fun m hm => (h.statics m hm).rebase hnative (hmember m (Or.inr hm))
    binaryOps := fun f hf => (h.binaryOps f hf).rebase hnative (hoperator f (Or.inl hf))
    unaryOps := fun f hf => (h.unaryOps f hf).rebase hnative (hoperator f (Or.inr hf)) }

end Rebase

/-! ## Garbage -/

namespace State

/-- What a collection starts from. -/
def anchors (s : State) : List Node :=
  s.globals.frames.map .frame ++ [s.objectClass, s.typeClass].map .container

/-- Points that a program can get to when no code of it runs. -/
def Live (s : State) (n : Node) : Prop :=
  Reach.Reachable s.toStore.arrows s.anchors n

def Garbage (s : State) (n : Node) : Prop :=
  n.InRange s ∧ ¬ s.Live n

theorem mem_marks_iff {s : State} {handle : Handle} :
    handle ∈ s.toStore.marks s.globals [s.objectClass, s.typeClass] ↔ s.Live (.container handle) :=
  Store.mem_marks_iff.trans Store.mem_live

/-- A collection takes away the containers that are not live. -/
theorem get_collectGarbage {s : State} {handle : Handle} {c : Container} :
    s.collectGarbage.1.heap.get handle = .ok c ↔
      s.heap.get handle = .ok c ∧ s.Live (.container handle) := by
  have hget : s.collectGarbage.1.heap.get handle = _ := Heap.get_sweep ..
  rw [hget, ← mem_marks_iff]
  split
  · next hkeep => simp [of_decide_eq_true hkeep]
  · next hdrop => simp [mt decide_eq_true hdrop]

/-- A program cannot get out of the horizon. -/
theorem within_of_live {H : Horizon} {s : State} (h : H.Closed s) {n : Node} (hn : s.Live n) :
    n.Within H s := by
  refine hn.mem_of_closed (fun n hn => ?_) fun a ha => h.arrows ha
  rcases List.mem_append.mp hn with hn | hn
  · exact h.globals.nodes n hn
  · simp only [List.map_cons, List.map_nil, List.mem_cons, List.not_mem_nil, or_false] at hn
    rcases hn with rfl | rfl
    · exact h.objectClass
    · exact h.typeClass

/-! ## Intact states -/

/-- Everything outside of some stale points is there and leads nowhere else, containers are not
stale, and classes are grounded. -/
structure Intact (s : State) (stale : Node → Prop) : Prop where
  closed : (Horizon.beyond stale).Closed s
  fresh : ∀ handle c, s.heap.get handle = .ok c → ¬ stale (.container handle)
  grounded : s.heap.Grounded s.objectClass

namespace Intact

variable {s : State} {stale : Node → Prop}

theorem wellFormed (h : s.Intact stale) : s.WellFormed :=
  .of_closed trivial h.closed h.fresh h.grounded

/-- A point is within the horizon of the garbage exactly if it is live. -/
theorem within_garbage_iff (h : s.Intact stale) {n : Node} :
    n.Within (Horizon.beyond s.Garbage) s ↔ s.Live n := by
  constructor
  · rintro ⟨hfresh, hpresent⟩
    have hrange := (hpresent trivial).inRange
    exact Classical.byContradiction fun hdead => hfresh ⟨hrange, hdead⟩
  · exact fun hlive => ⟨fun hdead => hdead.2 hlive, (within_of_live h.closed hlive).2⟩

/-- Garbage is stale: nothing leads there from what is live. -/
theorem closed_garbage (h : s.Intact stale) : (Horizon.beyond s.Garbage).Closed s := by
  have hnative : ∀ f, (Horizon.beyond stale).native f → (Horizon.beyond s.Garbage).native f :=
    fun _ hf => hf
  have harrows : ∀ {a : Node}, s.Live a → ∀ b ∈ s.toStore.arrows a,
      b.Within (Horizon.beyond s.Garbage) s := fun ha b hb =>
    h.within_garbage_iff.mpr (.step ha hb)
  exact {
    frame := fun id frame hid hframe b hb => by
      have hlive := h.within_garbage_iff.mp hid
      have hold := h.closed.frame id frame (within_of_live h.closed hlive) hframe b hb
      refine hold.rebase hnative fun n hn => harrows hlive n ?_
      simp only [Store.arrows, hframe]
      exact List.mem_flatMap.mpr ⟨b, hb, hn⟩
    list := fun id hid v hv => by
      have hlive := h.within_garbage_iff.mp hid
      have hold := h.closed.list id (within_of_live h.closed hlive) v hv
      exact hold.rebase hnative fun n hn =>
        harrows hlive n (List.mem_flatMap.mpr ⟨v, Array.mem_toList_iff.mpr hv, hn⟩)
    container := fun handle c hhandle hc => by
      have hlive := h.within_garbage_iff.mp hhandle
      have hold := h.closed.container handle c (within_of_live h.closed hlive) hc
      refine hold.rebase hnative fun n hn => harrows hlive n ?_
      simp only [Store.arrows, hc]
      exact hn
    globals := fun id hid => h.within_garbage_iff.mpr
      (.base (List.mem_append_left _ (List.mem_map.mpr ⟨id, hid, rfl⟩)))
    objectClass := h.within_garbage_iff.mpr
      (.base (List.mem_append_right _ List.mem_cons_self))
    typeClass := h.within_garbage_iff.mpr
      (.base (List.mem_append_right _ (List.mem_cons_of_mem _ List.mem_cons_self)))
    past := fun n hn => hn.1 }

/-- Code cannot tell a state from what a collection makes of it. -/
theorem alike_collectGarbage (h : s.Intact stale) :
    (Horizon.beyond s.Garbage).Alike s s.collectGarbage.1 where
  closed := h.closed_garbage
  frames := rfl
  lists := rfl
  size := by simp [collectGarbage, Store.collect, Heap.sweep]
  slots handle hfresh := by
    by_cases hrange : handle < s.heap.slots.size
    · have hlive : s.Live (.container handle) :=
        Classical.byContradiction fun hdead => hfresh ⟨hrange, hdead⟩
      have hkeep := decide_eq_true (mem_marks_iff.mpr hlive)
      simp only [collectGarbage, Store.collect, Heap.sweep, Array.getElem?_mapIdx, hkeep]
      cases s.heap.slots[handle]? <;> rfl
    · have hnone := Array.getElem?_eq_none (Nat.le_of_not_lt hrange)
      simp [collectGarbage, Store.collect, Heap.sweep, Array.getElem?_mapIdx, hnone]
  registry := rfl
  globals := rfl
  objectClass := rfl
  typeClass := rfl
  callDepth := rfl
  currentClass := rfl
  sink := rfl
  kept := rfl

/-- What is within the horizon of the garbage is still within it after a collection. -/
theorem within_collectGarbage (h : s.Intact stale) {n : Node}
    (hn : n.Within (Horizon.beyond s.Garbage) s) :
    n.Within (Horizon.beyond s.Garbage) s.collectGarbage.1 := by
  refine ⟨hn.1, fun _ => ?_⟩
  have hpresent := hn.2 trivial
  cases n with
  | container handle =>
      obtain ⟨c, hc⟩ := hpresent
      exact ⟨c, get_collectGarbage.mpr ⟨hc, h.within_garbage_iff.mp hn⟩⟩
  | list id => exact hpresent
  | frame id => exact hpresent

theorem collectGarbage (h : s.Intact stale) : s.collectGarbage.1.Intact s.Garbage := by
  have hclosed := h.closed_garbage
  have halike := h.alike_collectGarbage
  have hback : ∀ {n : Node}, n.Within (Horizon.beyond s.Garbage) s.collectGarbage.1 →
      n.Within (Horizon.beyond s.Garbage) s := by
    intro n hn
    refine ⟨hn.1, fun _ => ?_⟩
    have hpresent := hn.2 trivial
    cases n with
    | container handle =>
        obtain ⟨c, hc⟩ := hpresent
        exact ⟨c, (get_collectGarbage.mp hc).1⟩
    | list id => exact hpresent
    | frame id => exact hpresent
  have hvalue : ∀ {v : Value}, v.Within (Horizon.beyond s.Garbage) s →
      v.Within (Horizon.beyond s.Garbage) s.collectGarbage.1 := fun hv =>
    hv.rebase (fun _ hf => hf) fun n hn => h.within_collectGarbage (hv.nodes n hn)
  have hgrounded : s.collectGarbage.1.heap.Grounded s.objectClass := by
    refine ⟨fun handle c hc up hup => ?_, ?_, fun handle c hc hkind => ?_⟩
    · obtain ⟨hc, hlive⟩ := get_collectGarbage.mp hc
      obtain ⟨hlt, cls, hcls, hclass⟩ := h.grounded.above handle c hc up hup
      refine ⟨hlt, cls, get_collectGarbage.mpr ⟨hcls, .step hlive ?_⟩, hclass⟩
      simp only [Store.arrows, hc]
      exact Container.mem_nodes_of_above? hup
    · obtain ⟨c, hc, hkind, hname⟩ := h.grounded.object
      refine ⟨c, get_collectGarbage.mpr ⟨hc, .base ?_⟩, hkind, hname⟩
      exact List.mem_append_right _ List.mem_cons_self
    · exact h.grounded.only handle c (get_collectGarbage.mp hc).1 hkind
  refine ⟨?_, fun handle c hc hdead => hdead.2 (get_collectGarbage.mp hc).2, hgrounded⟩
  exact {
    frame := fun id frame hid hframe b hb => hvalue (hclosed.frame id frame (hback hid) hframe b hb)
    list := fun id hid v hv => hvalue (hclosed.list id (hback hid) v hv)
    container := fun handle c hhandle hc => by
      have hwithin := hclosed.container handle c (hback hhandle) (get_collectGarbage.mp hc).1
      exact hwithin.rebase (fun _ hf => hf) fun n hn => h.within_collectGarbage (hwithin.nodes n hn)
    globals := fun id hid => h.within_collectGarbage (hclosed.globals id hid)
    objectClass := h.within_collectGarbage hclosed.objectClass
    typeClass := h.within_collectGarbage hclosed.typeClass
    past := fun n hn => by
      have hrange := hn.1
      cases n with
      | container handle => exact Nat.lt_of_lt_of_eq hrange halike.size.symm
      | list id => exact hrange
      | frame id => exact hrange }

/-- What code does leaves a state intact. -/
theorem after (h : s.Intact stale) {known : List (String × String)} {cs : List Change}
    (hcs : (Horizon.beyond stale).Allows known s cs) : (s.after cs).Intact stale where
  closed := h.closed.after hcs
  fresh handle c hc := by
    intro hstale
    -- a stale handle is an old one, and its container would have been there all the time
    obtain ⟨old, hold, _⟩ :=
      (s.persists_after (hcs.own id)).same handle c (h.closed.past _ hstale) hc
    exact h.fresh handle old hold hstale
  grounded := by
    rw [after_objectClass s (hcs.own id)]
    exact grounded_after id h.grounded hcs

theorem apply (h : s.Intact stale) {known : List (String × String)} {c : Change}
    (hc : c.Allowed (.beyond stale) known s) : (s.apply c).Intact stale := by
  have hcs : (Horizon.beyond stale).Allows known s [c] := ⟨hc, trivial⟩
  exact h.after hcs

end Intact

end State

end ClassScript

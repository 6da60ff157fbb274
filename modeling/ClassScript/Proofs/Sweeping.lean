import ClassScript.Proofs.Collection
import Mathlib.Data.Finset.Card
import Mathlib.Data.Finset.Range

/-!
# A collection is exact

What keeps a container on the heap is said here once more, without the lists of nodes that a
collection works with: one clause for each way in which a value, a container, a frame or a list can
refer to something else. The store may be any store. Handles can be empty, classes can be missing,
and everything can refer to everything in circles.

A collection keeps the containers that can be reached in this sense, and no others. It does not
touch what it keeps, it gives no handle back, and it tells how many containers it took away.
-/

namespace ClassScript

/-! ## What refers to what -/

/-- Some overload of a function was written in a scope that has the frame. The frames around the
innermost one belong to the scope, too. -/
def Function.ClosesOver (f : Function) (id : FrameId) : Prop :=
  ∃ o ∈ f.overloads, ∃ body scope, o.code = .script body scope ∧ id ∈ scope.frames

inductive Value.Refers : Value → Node → Prop
  | object (handle : Handle) : Refers (.object handle) (.container handle)
  | list (id : ListId) : Refers (.list id) (.list id)
  | closure {f : Function} {id : FrameId} (h : f.ClosesOver id) : Refers (.function f) (.frame id)

inductive Container.Refers (c : Container) : Node → Prop
  | parent {handle : Handle} (h : c.kind = .classOf (some handle)) : c.Refers (.container handle)
  | ofClass {handle : Handle} (h : c.kind = .instanceOf handle) : c.Refers (.container handle)
  | constructors {id : FrameId} (h : c.constructors.ClosesOver id) : c.Refers (.frame id)
  | member {m : Member} {n : Node} (hm : m ∈ c.members.values) (h : m.value.Refers n) : c.Refers n
  | static {m : Member} {n : Node} (hm : m ∈ c.statics.values) (h : m.value.Refers n) : c.Refers n
  | accessor {m : Member} {getter setter : Option AccessorCode} {code : AccessorCode} {id : FrameId}
      (hm : m ∈ c.members.values ∨ m ∈ c.statics.values) (hform : m.form = .property getter setter)
      (hcode : getter = some code ∨ setter = some code) (h : id ∈ code.scope.frames) :
      c.Refers (.frame id)
  | binary {f : Function} {id : FrameId} (hf : f ∈ c.binaryOps.values) (h : f.ClosesOver id) :
      c.Refers (.frame id)
  | unary {f : Function} {id : FrameId} (hf : f ∈ c.unaryOps.values) (h : f.ClosesOver id) :
      c.Refers (.frame id)

namespace Store

/-- What can be reached from the frames of a scope and from some handles. -/
inductive Reached (s : Store) (scope : Scope) (handles : List Handle) : Node → Prop
  | scope {id : FrameId} (h : id ∈ scope.frames) : s.Reached scope handles (.frame id)
  | root {handle : Handle} (h : handle ∈ handles) : s.Reached scope handles (.container handle)
  | binding {id : FrameId} {frame : Frame} {b : Binding} {n : Node}
      (hid : s.Reached scope handles (.frame id)) (hframe : s.frames[id]? = some frame)
      (hb : b ∈ frame.values) (h : b.value.Refers n) : s.Reached scope handles n
  | element {id : ListId} {v : Value} {n : Node} (hid : s.Reached scope handles (.list id))
      (hv : v ∈ s.lists.elements id) (h : v.Refers n) : s.Reached scope handles n
  | container {handle : Handle} {c : Container} {n : Node}
      (hhandle : s.Reached scope handles (.container handle)) (hc : s.heap.get handle = .ok c)
      (h : c.Refers n) : s.Reached scope handles n

end Store

/-! ## The nodes of values and containers -/

theorem mem_map_frame {ids : List FrameId} {n : Node} :
    n ∈ ids.map Node.frame ↔ ∃ id ∈ ids, n = .frame id := by
  simp only [List.mem_map, eq_comm]

theorem Function.mem_nodes_iff {f : Function} {n : Node} :
    n ∈ f.nodes ↔ ∃ id, f.ClosesOver id ∧ n = .frame id := by
  constructor
  · intro h
    obtain ⟨o, ho, hn⟩ := List.mem_flatMap.mp h
    cases hcode : o.code with
    | native g =>
        rw [hcode] at hn
        exact absurd hn List.not_mem_nil
    | script body scope =>
        rw [hcode] at hn
        obtain ⟨id, hid, rfl⟩ := mem_map_frame.mp hn
        exact ⟨id, ⟨o, ho, body, scope, hcode, hid⟩, rfl⟩
  · rintro ⟨id, ⟨o, ho, body, scope, hcode, hid⟩, rfl⟩
    refine List.mem_flatMap.mpr ⟨o, ho, ?_⟩
    rw [hcode]
    exact mem_map_frame.mpr ⟨id, hid, rfl⟩

theorem Value.mem_nodes_iff {v : Value} {n : Node} : n ∈ v.nodes ↔ v.Refers n := by
  constructor
  · intro h
    cases v with
    | object handle =>
        rw [List.mem_singleton.mp h]
        exact .object handle
    | list id =>
        rw [List.mem_singleton.mp h]
        exact .list id
    | function f =>
        obtain ⟨id, hid, rfl⟩ := Function.mem_nodes_iff.mp h
        exact .closure hid
    | number _ | string _ | boolean _ | null => exact absurd h List.not_mem_nil
  · intro h
    cases h with
    | object handle => exact List.mem_singleton_self _
    | list id => exact List.mem_singleton_self _
    | closure hid => exact Function.mem_nodes_iff.mpr ⟨_, hid, rfl⟩

theorem Member.mem_nodes_iff {m : Member} {n : Node} :
    n ∈ m.nodes ↔ m.value.Refers n ∨ ∃ getter setter code id, m.form = .property getter setter ∧
      (getter = some code ∨ setter = some code) ∧ id ∈ code.scope.frames ∧ n = .frame id := by
  rw [Member.nodes, List.mem_append, Value.mem_nodes_iff]
  refine or_congr_right ?_
  cases hform : m.form with
  | field readonly => simp
  | property getter setter =>
      simp only [List.mem_flatMap, List.mem_append, Option.mem_toList, mem_map_frame]
      constructor
      · rintro ⟨code, hcode, id, hid, rfl⟩
        exact ⟨getter, setter, code, id, rfl, hcode, hid, rfl⟩
      · rintro ⟨_, _, code, id, hsame, hcode, hid, rfl⟩
        cases hsame
        exact ⟨code, hcode, id, hid, rfl⟩

theorem Container.refers_of_mem_nodes {c : Container} {n : Node} (h : n ∈ c.nodes) :
    c.Refers n := by
  simp only [Container.nodes, List.mem_append, List.mem_flatMap] at h
  rcases h with ((h | h) | ⟨m, hm, h⟩) | ⟨f, hf, h⟩
  · cases hkind : c.kind with
    | classOf parent =>
        rw [hkind] at h
        obtain ⟨handle, hhandle, rfl⟩ := List.mem_map.mp h
        rw [Option.mem_toList.mp hhandle] at hkind
        exact .parent hkind
    | instanceOf cls =>
        rw [hkind] at h
        rw [List.mem_singleton.mp h]
        exact .ofClass hkind
  · obtain ⟨id, hid, rfl⟩ := Function.mem_nodes_iff.mp h
    exact .constructors hid
  · rcases Member.mem_nodes_iff.mp h with h | ⟨getter, setter, code, id, hform, hcode, hid, rfl⟩
    · exact hm.elim (fun hm => .member hm h) fun hm => .static hm h
    · exact .accessor hm hform hcode hid
  · obtain ⟨id, hid, rfl⟩ := Function.mem_nodes_iff.mp h
    exact hf.elim (fun hf => .binary hf hid) fun hf => .unary hf hid

theorem Container.mem_nodes_of_refers {c : Container} {n : Node} (h : c.Refers n) :
    n ∈ c.nodes := by
  have hmember : ∀ {m : Member}, m ∈ c.members.values ∨ m ∈ c.statics.values → ∀ {n : Node},
      n ∈ m.nodes → n ∈ c.nodes := fun hm _ hn =>
    List.mem_append_left _ (List.mem_append_right _
      (List.mem_flatMap.mpr ⟨_, List.mem_append.mpr hm, hn⟩))
  have hoperator : ∀ {f : Function}, f ∈ c.binaryOps.values ∨ f ∈ c.unaryOps.values →
      ∀ {id : FrameId}, f.ClosesOver id → .frame id ∈ c.nodes := fun hf _ hid =>
    List.mem_append_right _ (List.mem_flatMap.mpr
      ⟨_, List.mem_append.mpr hf, Function.mem_nodes_iff.mpr ⟨_, hid, rfl⟩⟩)
  cases h with
  | parent hkind => exact mem_nodes_of_above? (by rw [hkind]; rfl)
  | ofClass hkind => exact mem_nodes_of_above? (by rw [hkind]; rfl)
  | constructors hid =>
      exact List.mem_append_left _ (List.mem_append_left _ (List.mem_append_right _
        (Function.mem_nodes_iff.mpr ⟨_, hid, rfl⟩)))
  | member hm hn => exact hmember (Or.inl hm) (Member.mem_nodes_iff.mpr (Or.inl hn))
  | static hm hn => exact hmember (Or.inr hm) (Member.mem_nodes_iff.mpr (Or.inl hn))
  | accessor hm hform hcode hid =>
      exact hmember hm (Member.mem_nodes_iff.mpr (Or.inr ⟨_, _, _, _, hform, hcode, hid, rfl⟩))
  | binary hf hid => exact hoperator (Or.inl hf) hid
  | unary hf hid => exact hoperator (Or.inr hf) hid

/-! ## What a collection finds -/

namespace Store

variable {s : Store} {scope : Scope} {handles : List Handle}

/-- One arrow of the graph is one reference. -/
theorem Reached.arrow {a b : Node} (ha : s.Reached scope handles a) (hb : b ∈ s.arrows a) :
    s.Reached scope handles b := by
  cases a with
  | container handle =>
      simp only [arrows] at hb
      split at hb
      · next c hc => exact .container ha hc (Container.refers_of_mem_nodes hb)
      · exact absurd hb List.not_mem_nil
  | list id =>
      obtain ⟨v, hv, hb⟩ := List.mem_flatMap.mp hb
      exact .element ha (Array.mem_toList_iff.mp hv) (Value.mem_nodes_iff.mp hb)
  | frame id =>
      simp only [arrows] at hb
      split at hb
      · next frame hframe =>
          obtain ⟨binding, hbinding, hb⟩ := List.mem_flatMap.mp hb
          exact .binding ha hframe hbinding (Value.mem_nodes_iff.mp hb)
      · exact absurd hb List.not_mem_nil

/-- The points that a collection finds are those that can be reached. -/
theorem mem_live_iff {n : Node} : n ∈ s.live scope handles ↔ s.Reached scope handles n := by
  refine mem_live.trans ⟨fun h => ?_, fun h => ?_⟩
  · refine h.mem_of_closed (fun a ha => ?_) fun a ha b hb => ha.arrow hb
    rcases List.mem_append.mp ha with ha | ha
    · obtain ⟨id, hid, rfl⟩ := mem_map_frame.mp ha
      exact .scope hid
    · obtain ⟨handle, hhandle, rfl⟩ := List.mem_map.mp ha
      exact .root hhandle
  · induction h with
    | scope hid => exact .base (List.mem_append_left _ (mem_map_frame.mpr ⟨_, hid, rfl⟩))
    | root hhandle => exact .base (List.mem_append_right _ (List.mem_map.mpr ⟨_, hhandle, rfl⟩))
    | binding _ hframe hb hn ih =>
        refine .step ih ?_
        simp only [arrows, hframe]
        exact List.mem_flatMap.mpr ⟨_, hb, Value.mem_nodes_iff.mpr hn⟩
    | element _ hv hn ih =>
        exact .step ih (List.mem_flatMap.mpr
          ⟨_, Array.mem_toList_iff.mpr hv, Value.mem_nodes_iff.mpr hn⟩)
    | container _ hc hn ih =>
        refine .step ih ?_
        simp only [arrows, hc]
        exact Container.mem_nodes_of_refers hn

end Store

/-! ## Counting -/

namespace Heap

def handles (h : Heap) : Finset Handle :=
  (Finset.range h.slots.size).filter fun handle => (h.get handle).isOk

theorem mem_handles {h : Heap} {handle : Handle} :
    handle ∈ h.handles ↔ ∃ c, h.get handle = .ok c := by
  rw [handles, Finset.mem_filter, Finset.mem_range]
  constructor
  · rintro ⟨_, hok⟩
    cases hc : h.get handle with
    | ok c => exact ⟨c, rfl⟩
    | error f =>
        rw [hc] at hok
        cases hok
  · rintro ⟨c, hc⟩
    exact ⟨lt_size_of_get hc, by rw [hc]; rfl⟩

theorem handles_push_none (h : Heap) : (Heap.mk (h.slots.push none)).handles = h.handles := by
  ext handle
  simp only [mem_handles, get_eq_ok_iff, Array.getElem?_push]
  split
  · next hlast => simp [hlast]
  · rfl

theorem handles_push_some (h : Heap) (c : Container) :
    (Heap.mk (h.slots.push (some c))).handles = insert h.slots.size h.handles := by
  ext handle
  simp only [mem_handles, Finset.mem_insert, get_eq_ok_iff, Array.getElem?_push]
  split
  · next hlast => simp [hlast]
  · next hlast => simp [hlast]

/-- The slots one after the other, each that is not empty counts once. -/
theorem size_eq_card (h : Heap) : h.size = h.handles.card := by
  obtain ⟨⟨slots⟩⟩ := h
  induction slots using List.reverseRecOn with
  | nil => rfl
  | append_singleton slots slot ih =>
      have hpush : (⟨slots ++ [slot]⟩ : Array (Option Container)) = Array.push ⟨slots⟩ slot := by
        simp
      have hfresh : (Heap.mk ⟨slots⟩).slots.size ∉ (Heap.mk ⟨slots⟩).handles := by
        simp [handles]
      rw [hpush, size, Array.foldl_push]
      cases slot with
      | none => rw [handles_push_none ⟨⟨slots⟩⟩, ← ih]; rfl
      | some c =>
          rw [handles_push_some ⟨⟨slots⟩⟩, Finset.card_insert_of_notMem hfresh, ← ih]
          rfl

end Heap

/-! ## Collections -/

namespace Store

/-- A collection from any scope and any handles keeps a container exactly if it can be reached. It
changes none of those that it keeps, neither frames nor lists, and no handle is free again after it.
It counts what it removed. -/
theorem collect_exact (s : Store) (scope : Scope) (handles : List Handle) :
    let t := (s.collect scope handles).1
    (∀ handle, handle ∈ s.marks scope handles ↔ s.Reached scope handles (.container handle)) ∧
      (∀ handle c, t.heap.get handle = .ok c ↔
        s.heap.get handle = .ok c ∧ s.Reached scope handles (.container handle)) ∧
      t.heap.slots.size = s.heap.slots.size ∧ t.frames = s.frames ∧ t.lists = s.lists ∧
      ∃ removed : Finset Handle,
        (∀ handle, handle ∈ removed ↔ (∃ c, s.heap.get handle = .ok c) ∧
          ¬ s.Reached scope handles (.container handle)) ∧
        (s.collect scope handles).2 = removed.card := by
  intro t
  have hmarks : ∀ handle, handle ∈ s.marks scope handles ↔
      s.Reached scope handles (.container handle) := fun _ => mem_marks_iff.trans mem_live_iff
  have hget : ∀ handle c, t.heap.get handle = .ok c ↔
      s.heap.get handle = .ok c ∧ s.Reached scope handles (.container handle) := by
    intro handle c
    have hsweep : t.heap.get handle = _ := Heap.get_sweep ..
    rw [hsweep, ← hmarks]
    split
    · next hkeep => simp [of_decide_eq_true hkeep]
    · next hdrop => simp [mt decide_eq_true hdrop]
  have hsize : t.heap.slots.size = s.heap.slots.size := by simp [t, collect, Heap.sweep]
  refine ⟨hmarks, hget, hsize, rfl, rfl, s.heap.handles \ t.heap.handles, ?_, ?_⟩
  · intro handle
    rw [Finset.mem_sdiff, Heap.mem_handles, Heap.mem_handles]
    refine and_congr_right ?_
    rintro ⟨c, hc⟩
    refine not_congr ⟨?_, ?_⟩
    · rintro ⟨c', hc'⟩
      exact ((hget handle c').mp hc').2
    · exact fun hreached => ⟨c, (hget handle c).mpr ⟨hc, hreached⟩⟩
  · have hsub : t.heap.handles ⊆ s.heap.handles := by
      intro handle hhandle
      obtain ⟨c, hc⟩ := Heap.mem_handles.mp hhandle
      exact Heap.mem_handles.mpr ⟨c, ((hget handle c).mp hc).1⟩
    rw [Finset.card_sdiff_of_subset hsub, ← Heap.size_eq_card, ← Heap.size_eq_card]
    rfl

end Store

end ClassScript

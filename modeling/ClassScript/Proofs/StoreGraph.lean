import ClassScript.Proofs.Reachability
import ClassScript.Store.Collect

/-!
# The store as a graph

Containers, lists and frames are the points of a graph. An arrow leads from one to whatever the
values in it refer to: code refers to all frames of its scope at once. What a program can still use
is what can be reached in this graph from the places where it starts.
-/

namespace ClassScript

inductive Node where
  | container (handle : Handle)
  | list (id : ListId)
  | frame (id : FrameId)
deriving Repr, DecidableEq

namespace Code

def nodes : Code → List Node
  | .script _ scope => scope.frames.map .frame
  | .native _ => []

end Code

namespace Function

def nodes (f : Function) : List Node :=
  f.overloads.flatMap fun o => o.code.nodes

end Function

namespace Value

def nodes : Value → List Node
  | .object handle => [.container handle]
  | .list id => [.list id]
  | .function f => f.nodes
  | .number _ | .string _ | .boolean _ | .null => []

end Value

namespace Member

def nodes (m : Member) : List Node :=
  m.value.nodes ++
    match m.form with
    | .field _ => []
    | .property getter setter =>
      (getter.toList ++ setter.toList).flatMap fun accessor => accessor.scope.frames.map .frame

end Member

/-- The class that a container needs: the parent of a class, or the class of an instance. -/
def ContainerKind.above? : ContainerKind → Option Handle
  | .classOf parent => parent
  | .instanceOf cls => some cls

namespace Container

def nodes (c : Container) : List Node :=
  (match c.kind with
    | .classOf parent => parent.toList.map .container
    | .instanceOf cls => [.container cls]) ++
  c.constructors.nodes ++
  (c.members.values ++ c.statics.values).flatMap Member.nodes ++
  (c.binaryOps.values ++ c.unaryOps.values).flatMap Function.nodes

end Container

def Lists.cell? : Value → Option ListId
  | .list id => some id
  | _ => none

theorem Lists.lt_size_of_mem_elements {ls : Lists} {id : ListId} {v : Value}
    (h : v ∈ ls.elements id) : id < ls.size := by
  unfold Lists.elements at h
  rw [Array.getD_eq_getD_getElem?] at h
  by_cases hid : id < ls.size
  · exact hid
  · rw [Array.getElem?_eq_none (Nat.le_of_not_lt hid)] at h
    simp at h

namespace Store

def arrows (s : Store) : Node → List Node
  | .container handle =>
    match s.heap.get handle with
    | .ok c => c.nodes
    | .error _ => []
  | .list id => (s.lists.elements id).toList.flatMap Value.nodes
  | .frame id =>
    match s.frames[id]? with
    | some frame => frame.values.flatMap fun b => b.value.nodes
    | none => []

def size (s : Store) : Nat :=
  s.heap.slots.size + s.lists.size + s.frames.size

def live (s : Store) (scope : Scope) (handles : List Handle) : List Node :=
  Reach.closure s.arrows s.size (scope.frames.map .frame ++ handles.map .container)

def points (s : Store) : List Node :=
  (List.range s.heap.slots.size).map .container ++ (List.range s.lists.size).map .list ++
    (List.range s.frames.size).map .frame

theorem length_points (s : Store) : s.points.length = s.size := by
  simp [points, size, Nat.add_assoc]

theorem mem_points_of_mem_arrows {s : Store} {a b : Node} (h : b ∈ s.arrows a) :
    a ∈ s.points := by
  simp only [points, List.mem_append, List.mem_map, List.mem_range]
  cases a with
  | container handle =>
      simp only [arrows] at h
      split at h
      · next c hc => exact Or.inl (Or.inl ⟨handle, Heap.lt_size_of_get hc, rfl⟩)
      · exact absurd h List.not_mem_nil
  | list id =>
      obtain ⟨v, hv, _⟩ := List.mem_flatMap.mp h
      exact Or.inl (Or.inr ⟨id, Lists.lt_size_of_mem_elements (Array.mem_toList_iff.mp hv), rfl⟩)
  | frame id =>
      simp only [arrows] at h
      split at h
      · next frame hframe =>
          exact Or.inr ⟨id, (Array.getElem?_eq_some_iff.mp hframe).1, rfl⟩
      · exact absurd h List.not_mem_nil

theorem mem_live {s : Store} {scope : Scope} {handles : List Handle} {n : Node} :
    n ∈ s.live scope handles ↔
      Reach.Reachable s.arrows (scope.frames.map .frame ++ handles.map .container) n :=
  Reach.mem_closure_iff (fun _ _ => mem_points_of_mem_arrows) (Nat.le_of_eq s.length_points)

end Store

end ClassScript

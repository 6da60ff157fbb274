import ClassScript.Store.Frames
import ClassScript.Store.Heap

/-!
# Garbage collection

A collection keeps the containers that can be reached from a scope and from some more handles, and
sweeps the others away. A tracer goes through scopes and lists as deep as they go, each of them
once, and leaves the handles that it comes across for later. These are marked one after the other,
and a marked container is traced in its turn.
-/

namespace ClassScript

structure Store where
  frames : Frames := #[]
  lists : Lists := #[]
  heap : Heap := {}

/-! ## The scopes in a store -/

namespace Code

def scope? : Code → Option Scope
  | .script _ scope => some scope
  | .native _ => none

end Code

namespace Function

def scopes (f : Function) : List Scope :=
  f.overloads.filterMap fun o => o.code.scope?

end Function

namespace Value

def scopes : Value → List Scope
  | .function f => f.scopes
  | _ => []

end Value

namespace Member

def scopes (m : Member) : List Scope :=
  m.value.scopes ++ m.form.accessors.map AccessorCode.scope

end Member

namespace Container

def allMembers (c : Container) : List Member :=
  c.members.values ++ c.statics.values

def operators (c : Container) : List Function :=
  c.binaryOps.values ++ c.unaryOps.values

def scopes (c : Container) : List Scope :=
  c.constructors.scopes ++ c.allMembers.flatMap Member.scopes ++
    c.operators.flatMap Function.scopes

end Container

namespace Store

def bindings (s : Store) (id : FrameId) : List Binding :=
  match s.frames[id]? with
  | some frame => frame.values
  | none => []

def scopes (s : Store) : List Scope :=
  s.frames.toList.flatMap (fun frame => frame.values.flatMap fun b => b.value.scopes) ++
    s.lists.toList.flatMap (fun items => items.toList.flatMap Value.scopes) ++
    s.heap.toList.flatMap fun entry => entry.2.scopes

/-- How deep a trace from a scope can go. It enters every list at most once, and every scope with
those around it; a scope takes two steps, one to the function that has it and one into it. -/
def depth (s : Store) (scope : Scope) : Nat :=
  2 * (s.lists.size + ((scope :: s.scopes).flatMap Scope.frames).length) + 1

end Store

/-! ## Tracing -/

structure Tracer where
  /-- Handles that were come across, the last one first. -/
  handles : List Handle := []
  seenScopes : List Scope := []
  seenLists : List ListId := []

namespace Tracer

def push (t : Tracer) (handle : Handle) : Tracer :=
  { t with handles := handle :: t.handles }

def callable (scope : Scope → Tracer → Tracer) : Code → Tracer → Tracer
  | .script _ e, t => scope e t
  | .native _, t => t

def function (scope : Scope → Tracer → Tracer) (f : Function) (t : Tracer) : Tracer :=
  f.overloads.foldl (fun t o => callable scope o.code t) t

mutual

def value (s : Store) : (depth : Nat) → Value → Tracer → Tracer
  | 0, _, t => t
  | depth + 1, v, t =>
    match v with
    | .object handle => t.push handle
    | .list id =>
      if id ∈ t.seenLists then t
      else (s.lists.elements id).toList.foldl (fun t v => value s depth v t)
        { t with seenLists := id :: t.seenLists }
    | .function f => function (scope s depth) f t
    | .number _ | .string _ | .boolean _ | .null => t

def scope (s : Store) : (depth : Nat) → Scope → Tracer → Tracer
  | 0, _, t => t
  | depth + 1, e, t =>
    if e ∈ t.seenScopes then t
    else
      let t := (s.bindings e.inner).foldl (fun t b => value s depth b.value t)
        { t with seenScopes := e :: t.seenScopes }
      match e.parent? with
      | some parent => scope s depth parent t
      | none => t

end

def member (s : Store) (depth : Nat) (t : Tracer) (m : Member) : Tracer :=
  m.form.accessors.foldl (fun t a => scope s depth a.scope t) (value s depth m.value t)

def above : ContainerKind → Tracer → Tracer
  | .classOf (some parent), t => t.push parent
  | .classOf none, t => t
  | .instanceOf cls, t => t.push cls

def container (s : Store) (depth : Nat) (c : Container) (t : Tracer) : Tracer :=
  let t := function (scope s depth) c.constructors (above c.kind t)
  let t := c.allMembers.foldl (member s depth) t
  c.operators.foldl (fun t f => function (scope s depth) f t) t

def start (s : Store) (e : Scope) (handles : List Handle) : Tracer :=
  handles.foldl push (scope s (s.depth e) e {})

end Tracer

/-! ## Marking and sweeping -/

namespace Heap

def unmarked (h : Heap) (marked : List Handle) : Nat :=
  (h.toList.filter fun entry => decide (entry.1 ∉ marked)).length

theorem unmarked_cons (h : Heap) (handle : Handle) (marked : List Handle) :
    h.unmarked (handle :: marked) =
      ((h.toList.filter fun entry => decide (entry.1 ∉ marked)).filter
        fun entry => decide (entry.1 ≠ handle)).length := by
  rw [unmarked, List.filter_filter]
  congr 2
  funext entry
  simp [not_or]

theorem unmarked_cons_lt {h : Heap} {handle : Handle} {c : Container} {marked : List Handle}
    (hc : h.get handle = .ok c) (hnew : handle ∉ marked) :
    h.unmarked (handle :: marked) < h.unmarked marked := by
  rw [unmarked_cons]
  refine List.length_filter_lt_length_iff_exists.mpr ⟨(handle, c), ?_, by simp⟩
  exact List.mem_filter.mpr ⟨mem_toList.mpr hc, by simpa using hnew⟩

theorem unmarked_cons_of_missing {h : Heap} {handle : Handle} {f : Fault}
    (hmissing : h.get handle = .error f) (marked : List Handle) :
    h.unmarked (handle :: marked) = h.unmarked marked := by
  rw [unmarked_cons, List.filter_eq_self.mpr]
  · rfl
  · rintro ⟨other, c⟩ hentry
    have hc := mem_toList.mp (List.mem_filter.mp hentry).1
    simp only [ne_eq, decide_eq_true_eq]
    rintro rfl
    rw [hmissing] at hc
    cases hc

end Heap

namespace Store

/-- Mark the handles that a tracer has come across, and those that their containers lead to. -/
def mark (s : Store) (depth : Nat) (t : Tracer) (marked : List Handle) : List Handle :=
  match _ht : t.handles with
  | [] => marked
  | handle :: handles =>
    if handle ∈ marked then s.mark depth { t with handles } marked
    else
      match _hc : s.heap.get handle with
      | .ok c => s.mark depth (Tracer.container s depth c { t with handles }) (handle :: marked)
      | .error _ => s.mark depth { t with handles } (handle :: marked)
termination_by (s.heap.unmarked marked, t.handles.length)
decreasing_by
  · exact Prod.Lex.right _ (by simp [_ht])
  · exact Prod.Lex.left _ _ (Heap.unmarked_cons_lt _hc ‹_›)
  · rw [Heap.unmarked_cons_of_missing _hc]
    exact Prod.Lex.right _ (by simp [_ht])

def marks (s : Store) (scope : Scope) (handles : List Handle) : List Handle :=
  s.mark (s.depth scope) (Tracer.start s scope handles) []

/-- Sweep away the containers that cannot be reached. The second part is their number. -/
def collect (s : Store) (scope : Scope) (handles : List Handle) : Store × Nat :=
  let marked := s.marks scope handles
  let heap := s.heap.sweep fun handle => decide (handle ∈ marked)
  ({ s with heap }, s.heap.size - heap.size)

end Store

end ClassScript

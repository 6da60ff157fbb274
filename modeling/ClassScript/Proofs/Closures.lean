import ClassScript.Proofs.Contents
import ClassScript.Proofs.Declarations

/-!
# The code in a state

Functions and accessors are closures: code together with the scope that it was written in. A
property of closures is one of all that a state holds, as long as each change puts only such
closures into it.

The first of these properties is that a scope names only frames that are there. It holds in every
state that arises, so that a new frame is one that no older code can see.
-/

namespace ClassScript

/-- Code that can be run, and the scope that it was written in. -/
structure Closure where
  params : List Param
  body : Stmt
  scope : Scope

def Overload.closure? (o : Overload) : Option Closure :=
  match o.code with
  | .native _ => none
  | .script body scope => some ⟨o.params, body, scope⟩

def AccessorCode.closure (a : AccessorCode) : Closure :=
  ⟨[], a.body, a.scope⟩

variable {P Q : Closure → Prop}

/-- An overload that is native, or has such a closure. -/
def Overload.Only (P : Closure → Prop) (o : Overload) : Prop :=
  ∀ c ∈ o.closure?, P c

def Function.Only (P : Closure → Prop) (f : Function) : Prop :=
  ∀ o ∈ f.overloads, o.Only P

theorem Function.only_empty (name : String) : Function.Only P { name } :=
  fun _ ho => absurd ho List.not_mem_nil

theorem Function.Only.push {f : Function} (hf : f.Only P) {o : Overload} (ho : o.Only P) :
    (f.push o).Only P := by
  intro o' ho'
  rcases List.mem_append.mp ho' with ho' | ho'
  · exact hf o' ho'
  · rw [List.mem_singleton.mp ho']
    exact ho

def Contents.closures (P : Closure → Prop) : Contents where
  function := Function.Only P
  accessor a := P a.closure
  empty := Function.only_empty

theorem Contents.closures_mono (h : ∀ c, P c → Q c) : (closures P).Le (closures Q) where
  function _ hf o ho c hc := h c (hf o ho c hc)
  accessor _ ha := h _ ha

/-! ## Scopes of frames that are there -/

def Closure.Framed (s : State) (c : Closure) : Prop :=
  ∀ id ∈ c.scope.frames, id < s.frames.size

def State.Framed (s : State) : Prop :=
  s.Only (.closures (Closure.Framed s))

section Framed

variable {s t : State}

theorem Closure.Framed.mono {c : Closure} (hsize : s.frames.size ≤ t.frames.size)
    (h : c.Framed s) : c.Framed t :=
  fun id hid => Nat.lt_of_lt_of_le (h id hid) hsize

variable {H : Horizon} (hsound : H.sound)

include hsound

theorem Scope.Within.framed {scope : Scope} (h : scope.Within H s) :
    ∀ id ∈ scope.frames, id < s.frames.size :=
  fun id hid => (h id hid).2 hsound

theorem Function.Within.framed {f : Function} (h : f.Within H s) : f.Only (Closure.Framed s) := by
  intro o ho c hc
  have hcode := h o ho
  unfold Overload.closure? at hc
  cases hscript : o.code with
  | native f =>
      rw [hscript] at hc
      cases hc
  | script body scope =>
      rw [hscript] at hc hcode
      cases hc
      exact Scope.Within.framed hsound hcode

theorem Value.Within.framed {v : Value} (h : v.Within H s) :
    v.Only (.closures (Closure.Framed s)) := by
  cases v with
  | function f => exact Function.Within.framed hsound h
  | number _ | string _ | boolean _ | list _ | object _ | null => trivial

theorem Container.Within.framed {c : Container} (h : c.Within H s) :
    c.Only (.closures (Closure.Framed s)) where
  constructors := h.constructors.framed hsound
  member isStatic m hm := by
    have hwithin := h.table isStatic m hm
    exact ⟨hwithin.value.framed hsound,
      fun a ha => Scope.Within.framed hsound (hwithin.accessors a ha)⟩
  binaryOps f hf := (h.binaryOps f hf).framed hsound
  unaryOps f hf := (h.unaryOps f hf).framed hsound

/-- What code puts into a state is what it can get to. -/
theorem Change.Allowed.framed {known : List (String × String)} {change : Change}
    (h : change.Allowed H known s) (hs : s.Framed) :
    change.Only (.closures (Closure.Framed s)) := by
  cases change with
  | list items => exact fun v hv => (h v hv).framed hsound
  | bind _ _ b => exact Value.Within.framed hsound h
  | setItem _ _ v => exact Value.Within.framed hsound h
  | setMember _ _ v => exact Value.Within.framed hsound h
  | addClass c => exact h.1.framed hsound
  | addInstance cls handle => exact hs.container handle cls h.1
  | foreign f => exact H.not_sound h hsound
  | frame | register _ _ | print _ => trivial

theorem State.Framed.apply (hs : s.Framed) {known : List (String × String)} {change : Change}
    (h : change.Allowed H known s) : (s.apply change).Framed := by
  have hnew := h.framed hsound hs
  refine State.Only.mono (State.Only.apply hs hnew) (Contents.closures_mono fun c hc => ?_)
  exact hc.mono (s.frames_size_apply hnew.own)

end Framed

namespace State

/-- At the start everything is within reach, and so is what it refers to. -/
theorem framed_startOn (sink : Sink) : (startOn sink).Framed where
  binding id frame hframe b hb := by
    have hid : id < (startOn sink).frames.size := (Array.getElem?_eq_some_iff.mp hframe).1
    exact ((intact_startOn sink).closed.frame id frame ⟨not_false, fun _ => hid⟩ hframe b
      hb).framed trivial
  lists id v hv := absurd (Lists.lt_size_of_mem_elements hv) (Nat.not_lt_zero _)
  container handle c hc :=
    ((intact_startOn sink).closed.container handle c ⟨not_false, fun _ => ⟨c, hc⟩⟩ hc).framed
      trivial
  kept _ hv := nomatch hv

theorem Framed.collectGarbage {s : State} (h : s.Framed) : s.collectGarbage.1.Framed where
  binding := h.binding
  lists := h.lists
  container handle c hc := h.container handle c (get_collectGarbage.mp hc).1
  kept := h.kept

/-- Wherever a session is, its scopes are of frames that are there. -/
theorem Arises.framed {declared pending : List (String × String)} {s : State}
    (h : Arises declared pending s) : s.Framed := by
  induction h with
  | start sink => exact framed_startOn sink
  | change _ _ hc ih => exact ih.apply trivial hc
  | control _ depth context ih => exact Only.control ih depth context
  | idle _ ih => exact ih
  | collect _ ih => exact ih.collectGarbage

end State

end ClassScript

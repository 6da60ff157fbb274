import ClassScript.Proofs.Contents
import ClassScript.Proofs.Resolution

/-!
# Overloads that can be told apart

A function is formed when each of its overloads asks for its required parameters first, and no two
of them have the same parameter types or the same required ones. A state is formed when every
function in it is: those that are values, in bindings, lists and members, and those that are the
constructors and operators of classes.

An overload joins a function exactly when the function stays formed.

What the order of parameters is good for: an overload that accepts the number of some arguments has
one of them for each of its required parameters.
-/

namespace ClassScript

/-! ## Parameters -/

def RequiredFirst (params : List Param) : Prop :=
  params.Pairwise fun p q => q.required = true → p.required = true

/-- Each parameter without a default is among the first so many. -/
def Supplied (params : List Param) (count : Nat) : Prop :=
  ∀ i p, params[i]? = some p → p.required = true → i < count

theorem misplaced?_eq_none_iff (seenDefault : Bool) (params : List Param) :
    misplaced? seenDefault params = none ↔
      (seenDefault = true → ∀ p ∈ params, p.required = false) ∧ RequiredFirst params := by
  induction params generalizing seenDefault with
  | nil => simp [misplaced?, RequiredFirst]
  | cons p ps ih =>
      have hcons : RequiredFirst (p :: ps) ↔
          (∀ q ∈ ps, q.required = true → p.required = true) ∧ RequiredFirst ps :=
        List.pairwise_cons
      rw [misplaced?, hcons]
      cases hp : p.required <;> cases seenDefault <;> simp [ih, hp]

theorem checkOrder_eq_ok_iff {function : String} {params : List Param} :
    checkOrder function params = .ok () ↔ RequiredFirst params := by
  have hnone := misplaced?_eq_none_iff false params
  unfold checkOrder
  cases hmisplaced : misplaced? false params with
  | none => simpa [hmisplaced] using hnone
  | some p => simpa [hmisplaced] using hnone

/-- Before a required parameter there are only required ones. -/
theorem RequiredFirst.lt_length_filter {params : List Param} (h : RequiredFirst params) {i : Nat}
    {p : Param} (hp : params[i]? = some p) (hrequired : p.required = true) :
    i < (params.filter Param.required).length := by
  induction params generalizing i with
  | nil => cases hp
  | cons q qs ih =>
      obtain ⟨hq, hqs⟩ := List.pairwise_cons.mp h
      cases i with
      | zero =>
          obtain rfl : q = p := Option.some.inj hp
          rw [List.filter_cons_of_pos hrequired]
          exact Nat.succ_pos _
      | succ i =>
          have hfirst : q.required = true := hq p (List.mem_of_getElem? hp) hrequired
          rw [List.filter_cons_of_pos hfirst]
          exact Nat.succ_lt_succ (ih hqs hp)

theorem RequiredFirst.supplied {o : Overload} (h : RequiredFirst o.params) {count : Nat}
    (hcount : o.acceptsCount count = true) : Supplied o.params count := by
  intro i p hp hrequired
  simp only [Overload.acceptsCount, Bool.and_eq_true, decide_eq_true_eq] at hcount
  exact Nat.lt_of_lt_of_le (h.lt_length_filter hp hrequired) hcount.1

/-! ## Functions -/

namespace Function

/-- The overloads of a function ask for required parameters first, and can be told apart by their
parameter types, with or without those that have a default. -/
structure Formed (f : Function) : Prop where
  ordered : ∀ o ∈ f.overloads, RequiredFirst o.params
  types : f.overloads.Pairwise fun a b => a.types ≠ b.types
  requiredTypes : f.overloads.Pairwise fun a b => a.requiredTypes ≠ b.requiredTypes

variable {f g : Function} {o : Overload}

theorem formed_empty (name : String) : Formed { name } :=
  ⟨fun _ ho => absurd ho List.not_mem_nil, .nil, .nil⟩

theorem formed_push_iff : (f.push o).Formed ↔
    f.Formed ∧ RequiredFirst o.params ∧ (∀ a ∈ f.overloads, a.types ≠ o.types) ∧
      ∀ a ∈ f.overloads, a.requiredTypes ≠ o.requiredTypes := by
  constructor
  · rintro ⟨hordered, htypes, hrequired⟩
    obtain ⟨htypes, _, hothers⟩ := List.pairwise_append.mp htypes
    obtain ⟨hrequired, _, hothers'⟩ := List.pairwise_append.mp hrequired
    have hself : o ∈ f.overloads ++ [o] := List.mem_append_right _ (List.mem_singleton_self o)
    refine ⟨⟨fun a ha => hordered a (List.mem_append_left _ ha), htypes, hrequired⟩,
      hordered o hself, fun a ha => ?_, fun a ha => ?_⟩
    · exact hothers a ha o (List.mem_singleton_self o)
    · exact hothers' a ha o (List.mem_singleton_self o)
  · rintro ⟨hf, horder, htypes, hrequired⟩
    have hlast : ∀ {R : Overload → Overload → Prop}, f.overloads.Pairwise R →
        (∀ a ∈ f.overloads, R a o) → (f.overloads ++ [o]).Pairwise R := fun hpairwise hall =>
      List.pairwise_append.mpr ⟨hpairwise, List.pairwise_singleton _ _,
        fun a ha b hb => List.mem_singleton.mp hb ▸ hall a ha⟩
    refine ⟨fun a ha => ?_, hlast hf.types htypes, hlast hf.requiredTypes hrequired⟩
    rcases List.mem_append.mp ha with ha | ha
    · exact hf.ordered a ha
    · exact List.mem_singleton.mp ha ▸ horder

theorem add_eq_ok_iff : f.add o = .ok g ↔
    g = f.push o ∧ RequiredFirst o.params ∧ (∀ a ∈ f.overloads, a.types ≠ o.types) ∧
      ∀ a ∈ f.overloads, a.requiredTypes ≠ o.requiredTypes := by
  constructor
  · intro h
    obtain ⟨_, horder, h⟩ := exists_answer_of_bind_eq_ok h
    dsimp only at h
    split at h
    · cases h
    · next htypes =>
        split at h
        · cases h
        · next hrequired =>
            cases h
            simp only [List.any_eq_true, decide_eq_true_eq, not_exists, not_and] at htypes hrequired
            exact ⟨rfl, checkOrder_eq_ok_iff.mp horder, htypes, hrequired⟩
  · rintro ⟨rfl, horder, htypes, hrequired⟩
    have hsame : f.overloads.any (fun other => other.types = o.types) = false := by
      simpa using htypes
    have hindistinct :
        f.overloads.any (fun other => other.requiredTypes = o.requiredTypes) = false := by
      simpa using hrequired
    unfold add
    rw [checkOrder_eq_ok_iff.mpr horder, hsame, hindistinct]
    rfl

/-- An overload joins a function exactly when the function stays formed. -/
theorem Formed.add_eq_ok_iff (hf : f.Formed) : f.add o = .ok g ↔ g = f.push o ∧ g.Formed := by
  rw [Function.add_eq_ok_iff]
  refine and_congr_right fun hg => ?_
  rw [hg, formed_push_iff]
  exact (and_iff_right hf).symm

/-- A selected overload is one of the function's, and accepts as many arguments as there are. -/
theorem mem_and_acceptsCount_of_resolve {lineage : Lineage} {args : List Ty}
    (h : f.resolve lineage args = .ok o) : o ∈ f.overloads ∧ o.acceptsCount args.length = true := by
  have hmem := Overload.mem_choices_of_choose h
  simp only [Overload.choices] at hmem
  split at hmem
  · next found hfound =>
      rw [List.mem_singleton.mp hmem]
      exact List.mem_filter.mp (List.mem_of_find?_eq_some hfound)
  · exact List.mem_filter.mp (List.mem_filter.mp hmem).1

/-- A call that selects an overload has an argument for each of its required parameters. -/
theorem Formed.supplied_of_resolve (hf : f.Formed) {lineage : Lineage} {args : List Ty}
    (h : f.resolve lineage args = .ok o) : Supplied o.params args.length := by
  obtain ⟨hmem, hcount⟩ := mem_and_acceptsCount_of_resolve h
  exact (hf.ordered o hmem).supplied hcount

end Function

/-! ## Values, containers and states -/

def Value.Formed : Value → Prop
  | .function f => f.Formed
  | .number _ | .string _ | .boolean _ | .list _ | .object _ | .null => True

theorem Value.formed_none : ∀ v ∈ (none : Option Value), v.Formed :=
  nofun

structure Container.Formed (c : Container) : Prop where
  constructors : c.constructors.Formed
  member : ∀ isStatic, ∀ m ∈ (c.table isStatic).values, m.value.Formed
  binaryOps : ∀ f ∈ c.binaryOps.values, f.Formed
  unaryOps : ∀ f ∈ c.unaryOps.values, f.Formed

def Lists.Formed (ls : Lists) : Prop :=
  ∀ id, ∀ v ∈ ls.elements id, v.Formed

structure State.Formed (s : State) : Prop where
  binding : ∀ (id : FrameId) (frame : Frame), s.frames[id]? = some frame →
    ∀ b ∈ frame.values, b.value.Formed
  lists : s.lists.Formed
  container : ∀ handle c, s.heap.get handle = .ok c → c.Formed
  kept : ∀ v ∈ s.kept, v.Formed

def Flow.Formed : Flow → Prop
  | .normal value | .returned value => ∀ v ∈ value, v.Formed

def Contents.formed : Contents where
  function := Function.Formed
  accessor _ := True
  empty := Function.formed_empty

theorem Value.formed_iff {v : Value} : v.Formed ↔ v.Only .formed := by
  cases v <;> exact Iff.rfl

theorem Flow.formed_iff {flow : Flow} : flow.Formed ↔ flow.Only .formed := by
  cases flow with
  | normal value | returned value =>
      exact forall_congr' fun _ => imp_congr_right fun _ => Value.formed_iff

theorem Container.formed_iff {c : Container} : c.Formed ↔ c.Only .formed := by
  constructor
  · intro h
    have hmember : ∀ isStatic, ∀ m ∈ (c.table isStatic).values, m.Only .formed :=
      fun isStatic m hm => ⟨Value.formed_iff.mp (h.member isStatic m hm), fun _ _ => trivial⟩
    exact ⟨h.constructors, hmember, h.binaryOps, h.unaryOps⟩
  · intro h
    have hmember : ∀ isStatic, ∀ m ∈ (c.table isStatic).values, m.value.Formed :=
      fun isStatic m hm => Value.formed_iff.mpr (h.member isStatic m hm).value
    exact ⟨h.constructors, hmember, h.binaryOps, h.unaryOps⟩

theorem State.formed_iff {s : State} : s.Formed ↔ s.Only .formed := by
  constructor
  · intro h
    exact {
      binding := fun id frame hframe b hb => Value.formed_iff.mp (h.binding id frame hframe b hb)
      lists := fun id v hv => Value.formed_iff.mp (h.lists id v hv)
      container := fun handle c hc => Container.formed_iff.mp (h.container handle c hc)
      kept := fun v hv => Value.formed_iff.mp (h.kept v hv) }
  · intro h
    exact {
      binding := fun id frame hframe b hb => Value.formed_iff.mpr (h.binding id frame hframe b hb)
      lists := fun id v hv => Value.formed_iff.mpr (h.lists id v hv)
      container := fun handle c hc => Container.formed_iff.mpr (h.container handle c hc)
      kept := fun v hv => Value.formed_iff.mpr (h.kept v hv) }

/-- A class without members and operators, whatever its constructors. -/
theorem Container.Formed.bare {name : String} {kind : ContainerKind} {constructors : Function}
    (h : constructors.Formed) : Formed { name, kind, constructors } where
  constructors := h
  member isStatic _ hm := by cases isStatic <;> exact absurd hm List.not_mem_nil
  binaryOps _ hf := absurd hf List.not_mem_nil
  unaryOps _ hf := absurd hf List.not_mem_nil

end ClassScript

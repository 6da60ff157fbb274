import ClassScript.Proofs.Conduct
import ClassScript.Proofs.FailedClasses

/-!
# The owner of a name

A name belongs to the nearest frame of a scope that binds it. Every way to look up a name goes out
from frame to frame, and all of them come to that frame. An assignment writes there and nowhere
else; it shows in the scopes for which the name belongs to the same frame, and in no others.
-/

namespace ClassScript

theorem Assoc.isSome_findEntry_iff {κ α : Type} [DecidableEq κ] {k : κ} {entries : List (κ × α)} :
    (findEntry k entries).isSome = true ↔ k ∈ entries.map Prod.fst := by
  induction entries with
  | nil => simp [findEntry]
  | cons entry entries ih =>
      obtain ⟨l, a⟩ := entry
      by_cases hl : l = k
      · simp [findEntry, hl]
      · simp only [findEntry, if_neg hl, ih, List.map_cons, List.mem_cons, Ne.symm hl, false_or]

namespace Frames

variable {fs fs' : Frames} {name : String} {ids : List FrameId} {id owner : FrameId} {b : Binding}
  {value : Value}

/-- The walk from the inside out that ends at the first frame that binds a name. -/
inductive Nearest (fs : Frames) (name : String) : List FrameId → FrameId → Binding → Prop
  | here {id : FrameId} {outer : List FrameId} {b : Binding}
      (hlocal : fs.local? id name = some b) : Nearest fs name (id :: outer) id b
  | further {inner id : FrameId} {outer : List FrameId} {b : Binding}
      (hnone : fs.local? inner name = none) (h : Nearest fs name outer id b) :
      Nearest fs name (inner :: outer) id b

/-! ## Looking up -/

namespace Nearest

theorem local?_eq (h : Nearest fs name ids id b) : fs.local? id name = some b := by
  induction h with
  | here hlocal => exact hlocal
  | further _ _ ih => exact ih

theorem mem (h : Nearest fs name ids id b) : id ∈ ids := by
  induction h with
  | here => exact List.mem_cons_self
  | further _ _ ih => exact List.mem_cons_of_mem _ ih

theorem find?_eq (h : Nearest fs name ids id b) :
    ids.find? (fun i => (fs.local? i name).isSome) = some id := by
  induction h with
  | here hlocal => exact List.find?_cons_of_pos (by simp [hlocal])
  | further hnone _ ih => rwa [List.find?_cons_of_neg (by simp [hnone])]

theorem findSome?_eq (h : Nearest fs name ids id b) :
    ids.findSome? (fun i => fs.local? i name) = some b := by
  induction h with
  | here hlocal => exact List.findSome?_cons_of_isSome (by simp [hlocal]) |>.trans hlocal
  | further hnone _ ih => rwa [List.findSome?_cons_of_isNone (by simp [hnone])]

end Nearest

/-- The walk ends somewhere if any of the frames binds the name. -/
theorem exists_nearest_iff :
    (∃ id b, Nearest fs name ids id b) ↔ ∃ i ∈ ids, (fs.local? i name).isSome := by
  constructor
  · rintro ⟨id, b, h⟩
    exact ⟨id, h.mem, by simp [h.local?_eq]⟩
  · induction ids with
    | nil => simp
    | cons inner outer ih =>
        intro hbinds
        cases hlocal : fs.local? inner name with
        | some b => exact ⟨inner, b, .here hlocal⟩
        | none =>
            obtain ⟨id, b, h⟩ := ih (by simpa [hlocal] using hbinds)
            exact ⟨id, b, .further hlocal h⟩

theorem mem_sorted_iff : name ∈ (fs.sorted id).map Prod.fst ↔ (fs.local? id name).isSome := by
  unfold sorted local?
  cases fs[id]? with
  | none => simp
  | some frame =>
      have hperm := (List.mergeSort_perm frame.entries fun a b => decide (a.1 ≤ b.1)).map Prod.fst
      exact hperm.mem_iff.trans Assoc.isSome_findEntry_iff.symm

/-- All ways to look up a name in a scope come to the same frame. -/
structure LooksUp (fs : Frames) (scope : Scope) (name : String) : Prop where
  /-- The name belongs to the nearest frame. -/
  owner : ∀ id, fs.owner? scope name = some id ↔ ∃ b, Nearest fs name scope.frames id b
  /-- Its value is the one that the nearest frame holds. -/
  value : ∀ v, fs.get? scope name = some v ↔ ∃ id b, Nearest fs name scope.frames id b ∧ b.value = v
  contains : fs.contains scope name = true ↔ ∃ id b, Nearest fs name scope.frames id b
  visible : name ∈ fs.visibleNames scope ↔ ∃ id b, Nearest fs name scope.frames id b

theorem looksUp (fs : Frames) (scope : Scope) (name : String) : fs.LooksUp scope name where
  owner := by
    intro id
    constructor
    · intro howner
      have hbinds : (fs.local? id name).isSome :=
        List.find?_some (p := fun i => (fs.local? i name).isSome) howner
      obtain ⟨id', b, h⟩ := exists_nearest_iff.mpr ⟨id, List.mem_of_find?_eq_some howner, hbinds⟩
      obtain rfl : id' = id := Option.some.inj (h.find?_eq.symm.trans howner)
      exact ⟨b, h⟩
    · rintro ⟨b, h⟩
      exact h.find?_eq
  value := by
    intro v
    unfold get?
    constructor
    · intro hget
      obtain ⟨b, hfound, rfl⟩ := Option.map_eq_some_iff.mp hget
      obtain ⟨i, hi, hlocal⟩ := List.exists_of_findSome?_eq_some hfound
      have hbinds : (fs.local? i name).isSome := by rw [hlocal, Option.isSome_some]
      obtain ⟨id, b', h⟩ := exists_nearest_iff.mpr ⟨i, hi, hbinds⟩
      obtain rfl : b' = b := Option.some.inj (h.findSome?_eq.symm.trans hfound)
      exact ⟨id, b', h, rfl⟩
    · rintro ⟨id, b, h, rfl⟩
      rw [h.findSome?_eq, Option.map_some]
  contains := by
    rw [contains, List.any_eq_true, exists_nearest_iff]
  visible := by
    simp only [visibleNames, List.mem_flatMap, mem_sorted_iff, exists_nearest_iff]

/-! ## Storing -/

structure Stores (fs fs' : Frames) (owner : FrameId) (name : String) (value : Value) : Prop where
  /-- The variable has the new value, and the type that it had. -/
  binding : ∃ b, fs.local? owner name = some b ∧ fs'.local? owner name = some { b with value }
  /-- All other bindings are what they were. -/
  others : ∀ id n, ¬ (id = owner ∧ n = name) → fs'.local? id n = fs.local? id n

theorem stores_define (hlocal : fs.local? owner name = some b) (value : Value) :
    fs.Stores (fs.define owner name { b with value }) owner name value where
  binding := ⟨b, hlocal, local?_define_self (lt_size_of_local? hlocal) name _⟩
  others := fun _ _ hother =>
    local?_define_of_ne fs _ fun ⟨hid, hname⟩ => hother ⟨hid.symm, hname.symm⟩

namespace Stores

/-- The walk ends at the same frame as before, with the new value if that frame has it. -/
theorem nearest (hstores : fs.Stores fs' owner name value) (h : Nearest fs name ids id b) :
    Nearest fs' name ids id (if id = owner then { b with value } else b) := by
  obtain ⟨old, hold, hnew⟩ := hstores.binding
  induction h with
  | @here id outer b hlocal =>
      refine .here ?_
      split
      · next hid =>
          subst hid
          cases hlocal.symm.trans hold
          exact hnew
      · next hid => exact (hstores.others id name fun hself => hid hself.1).trans hlocal
  | @further inner id outer b hnone _ ih =>
      refine .further ?_ ih
      have hinner : inner ≠ owner := by
        rintro rfl
        cases hnone.symm.trans hold
      exact (hstores.others inner name fun hself => hinner hself.1).trans hnone

theorem isSome_local? (hstores : fs.Stores fs' owner name value) (i : FrameId) (n : String) :
    (fs'.local? i n).isSome = (fs.local? i n).isSome := by
  by_cases hself : i = owner ∧ n = name
  · obtain ⟨rfl, rfl⟩ := hself
    obtain ⟨b, hold, hnew⟩ := hstores.binding
    rw [hold, hnew, Option.isSome_some, Option.isSome_some]
  · rw [hstores.others i n hself]

/-- Every name belongs to the frame that it belonged to before. -/
theorem owner?_eq (hstores : fs.Stores fs' owner name value) (scope : Scope) (n : String) :
    fs'.owner? scope n = fs.owner? scope n := by
  simp only [owner?, hstores.isSome_local?]

/-- The new value shows wherever the name belongs to the frame that it was stored in. -/
theorem get?_eq (hstores : fs.Stores fs' owner name value) (scope : Scope) :
    fs'.get? scope name =
      if fs.owner? scope name = some owner then some value else fs.get? scope name := by
  by_cases hbound : ∃ id b, Nearest fs name scope.frames id b
  · obtain ⟨id, b, h⟩ := hbound
    have howner : fs.owner? scope name = some id := h.find?_eq
    have hafter := ((fs'.looksUp scope name).value _).mpr ⟨id, _, hstores.nearest h, rfl⟩
    have hbefore := ((fs.looksUp scope name).value _).mpr ⟨id, b, h, rfl⟩
    rw [hafter, howner, hbefore]
    by_cases hid : id = owner <;> simp [hid]
  · have hnone : ∀ gs : Frames, gs.owner? scope name = fs.owner? scope name →
        gs.get? scope name = none := by
      intro gs hgs
      rw [Option.eq_none_iff_forall_ne_some]
      intro v hv
      obtain ⟨id, b, h, -⟩ := ((gs.looksUp scope name).value v).mp hv
      obtain ⟨b', h'⟩ := ((fs.looksUp scope name).owner id).mp (hgs.symm.trans h.find?_eq)
      exact hbound ⟨id, b', h'⟩
    have howner : fs.owner? scope name ≠ some owner := by
      intro howner
      obtain ⟨b, h⟩ := ((fs.looksUp scope name).owner owner).mp howner
      exact hbound ⟨owner, b, h⟩
    rw [hnone fs' (hstores.owner?_eq scope name), if_neg howner, hnone fs rfl]

end Stores

end Frames

/-! ## Assignments -/

structure State.Admits (s : State) (b : Binding) (value : Value) : Prop where
  mutable : b.immutable = false
  fits : ∃ ty, s.typeOf value = .ok ty ∧ s.fits value ty b.ty = .ok true

namespace Evaluator

variable {s t : State} {scope : Scope} {name : String} {value : Value} {owner : FrameId}
  {b : Binding}

def reassigned (owner : FrameId) (name : String) (value : Value) (s : State) :
    Except Fault Binding := do
  let valueTy ← s.typeOf value
  s.frames.assigned (← s.lineageOf [value]) owner name valueTy value

theorem assign_of_owner (howner : s.frames.owner? scope name = some owner) :
    assign scope name value s = Exec.rebind owner name (reassigned owner name value) s := by
  unfold assign
  refine bind_eq_of_ok ?_
  rw [Exec.ask, howner]

theorem assign_of_no_owner (howner : s.frames.owner? scope name = none) :
    assign scope name value s = .error (.fault (s.undefinedName scope name)) s := by
  unfold assign
  refine bind_eq_of_error ?_
  rw [Exec.ask, howner]

/-- A name gets the value exactly if its variable can be given it. -/
theorem reassigned_eq_ok_iff (hlocal : s.frames.local? owner name = some b) {b' : Binding} :
    reassigned owner name value s = .ok b' ↔ s.Admits b value ∧ b' = { b with value } := by
  unfold reassigned
  cases hty : s.typeOf value with
  | error f =>
      refine iff_of_false nofun ?_
      rintro ⟨⟨-, ty, hty', -⟩, -⟩
      cases hty.symm.trans hty'
  | ok ty =>
      cases hlineage : s.lineageOf [value] with
      | error f =>
          refine iff_of_false nofun ?_
          rintro ⟨⟨-, ty', -, hfits⟩, -⟩
          rw [State.fits, hlineage] at hfits
          cases hfits
      | ok lineage =>
          have hfits : ∀ target,
              s.fits value ty target = .ok (Ty.assignable lineage ty target) := by
            intro target
            rw [State.fits, hlineage]
            rfl
          change s.frames.assigned lineage owner name ty value = .ok b' ↔ _
          simp only [Frames.assigned, hlocal]
          constructor
          · intro h
            split at h
            · cases h
            next hmutable =>
              split at h
              · next hassignable =>
                  cases h
                  refine ⟨⟨by simpa using hmutable, ty, hty, ?_⟩, rfl⟩
                  rw [hfits, hassignable]
              · cases h
          · rintro ⟨⟨hmutable, ty', hty', hfits'⟩, rfl⟩
            cases hty.symm.trans hty'
            rw [hfits] at hfits'
            rw [hmutable, Except.ok.inj hfits']
            rfl

/-- An assignment stores the value in the frame that the name belongs to. -/
theorem assign_eq_ok {u : Unit} (h : assign scope name value s = .ok u t) :
    ∃ owner b, Frames.Nearest s.frames name scope.frames owner b ∧ s.Admits b value ∧
      t = { s with frames := s.frames.define owner name { b with value } } := by
  cases howner : s.frames.owner? scope name with
  | none =>
      rw [assign_of_no_owner howner] at h
      cases h
  | some owner =>
      obtain ⟨b, hnearest⟩ := ((s.frames.looksUp scope name).owner owner).mp howner
      rw [assign_of_owner howner] at h
      obtain ⟨b', s', hask, hdefine⟩ := exists_of_bind_eq_ok h
      obtain ⟨hrule, rfl⟩ := Exec.ask_eq_ok hask
      obtain ⟨hadmits, rfl⟩ := (reassigned_eq_ok_iff hnearest.local?_eq).mp hrule
      cases hdefine
      exact ⟨owner, b, hnearest, hadmits, rfl⟩

theorem assign_of_admits (hnearest : Frames.Nearest s.frames name scope.frames owner b)
    (hadmits : s.Admits b value) :
    assign scope name value s =
      .ok () { s with frames := s.frames.define owner name { b with value } } := by
  have hrule : reassigned owner name value s = .ok { b with value } :=
    (reassigned_eq_ok_iff hnearest.local?_eq).mpr ⟨hadmits, rfl⟩
  have hask : Exec.ask (reassigned owner name value) s = .ok { b with value } s := by
    rw [Exec.ask, hrule]
  rw [assign_of_owner hnearest.find?_eq]
  exact bind_eq_of_ok hask

/-- An assignment that fails changes nothing at all. -/
theorem assign_eq_error {why : Halt} (h : assign scope name value s = .error why t) : t = s := by
  rcases bind_eq_error h with hask | ⟨owner, s', hask, hrebind⟩
  · exact (Exec.ask_eq_error hask).1
  · obtain ⟨-, rfl⟩ := Exec.ask_eq_ok hask
    rcases bind_eq_error hrebind with hrule | ⟨b, s'', -, hdefine⟩
    · exact (Exec.ask_eq_error hrule).1
    · cases hdefine

/-- In all frames and for every scope, the ways to look up a name agree on the nearest frame that
binds it. An assignment from the scope succeeds exactly if that frame holds a variable that can be
given the value. It then shows from the scopes for which the name belongs to that frame and from no
others, and all other bindings stay as they were. One that fails leaves everything as it was. -/
theorem assign_to_owner (s : State) (scope : Scope) (name : String) (value : Value) :
    s.frames.LooksUp scope name ∧
      ((∃ t, assign scope name value s = .ok () t) ↔
        ∃ owner b, Frames.Nearest s.frames name scope.frames owner b ∧ s.Admits b value) ∧
      (∀ t, assign scope name value s = .ok () t →
        ∃ owner, s.frames.owner? scope name = some owner ∧
          (∀ other, t.frames.get? other name =
            if s.frames.owner? other name = some owner then some value
            else s.frames.get? other name) ∧
          s.frames.Stores t.frames owner name value ∧
          t = { s with frames := t.frames }) ∧
      ∀ why t, assign scope name value s = .error why t → t = s := by
  refine ⟨s.frames.looksUp scope name, ⟨?_, ?_⟩, ?_, fun why t h => assign_eq_error h⟩
  · rintro ⟨t, h⟩
    obtain ⟨owner, b, hnearest, hadmits, -⟩ := assign_eq_ok h
    exact ⟨owner, b, hnearest, hadmits⟩
  · rintro ⟨owner, b, hnearest, hadmits⟩
    exact ⟨_, assign_of_admits hnearest hadmits⟩
  · intro t h
    obtain ⟨owner, b, hnearest, -, rfl⟩ := assign_eq_ok h
    have hstores := Frames.stores_define hnearest.local?_eq value
    exact ⟨owner, hnearest.find?_eq, hstores.get?_eq, hstores, rfl⟩

/-- A name that is bound in a frame and again in a frame inside it, and two more frames, one in
each. -/
def shadowed : State :=
  { State.start with
    frames := #[⟨[("x", ⟨.string, .string "outer", false⟩)]⟩,
      ⟨[("x", ⟨.string, .string "inner", false⟩)]⟩, {}, {}] }

/-- An assignment from the innermost frame reaches the one around it, but not the outermost. -/
theorem assign_to_owner_shadowed :
    let root : Scope := ⟨0, []⟩
    let inner := root.child 1
    ∃ t, assign (inner.child 2) "x" (.string "new") shadowed = .ok () t ∧
      t.frames.get? inner "x" = some (.string "new") ∧
      t.frames.get? (root.child 3) "x" = some (.string "outer") := by
  intro root inner
  obtain ⟨-, hsucceeds, hstores, -⟩ :=
    assign_to_owner shadowed (inner.child 2) "x" (.string "new")
  have hnearest : Frames.Nearest shadowed.frames "x" (inner.child 2).frames 1
      ⟨.string, .string "inner", false⟩ := .further rfl (.here rfl)
  obtain ⟨t, ht⟩ := hsucceeds.mpr ⟨_, _, hnearest, rfl, .string, rfl, rfl⟩
  obtain ⟨owner, howner, hget, -⟩ := hstores t ht
  obtain rfl : 1 = owner := Option.some.inj (hnearest.find?_eq.symm.trans howner)
  refine ⟨t, ht, ?_, ?_⟩
  · rw [hget]
    rfl
  · rw [hget]
    rfl

end Evaluator

end ClassScript

import ClassScript.Proofs.Ancestry
import Mathlib.Data.List.Dedup
import Mathlib.Data.List.Induction

/-!
# Subclasses by definition

A registry comes from definitions, one after the other, and the last definition of a name counts.
The parents may lead back to where they began, or to a name that was never defined. Whatever they
do, the walk with its budget finds the ancestors that the definitions lead to and no others.
-/

namespace ClassScript

namespace Registry

/-- A class name with the name of its parent, if it has one. -/
abbrev Definition := String × Option String

def builtin : List Definition :=
  [("Object", none), ("Type", some "Object")]

def defineAll (r : Registry) (definitions : List Definition) : Registry :=
  definitions.foldl (fun r d => r.define d.1 d.2) r

/-- The last definition of a name gives it a parent. -/
def Inherits (definitions : List Definition) (name parent : String) : Prop :=
  ∃ before after, definitions = before ++ (name, some parent) :: after ∧
    ∀ d ∈ after, d.1 ≠ name

/-! ## What definitions leave in a registry -/

section Definitions

variable {definitions : List Definition} {name parent : String}

theorem defineAll_concat (r : Registry) (definitions : List Definition) (d : Definition) :
    r.defineAll (definitions ++ [d]) = (r.defineAll definitions).define d.1 d.2 := by
  rw [defineAll, List.foldl_concat, ← defineAll]

theorem basic_defineAll (definitions : List Definition) :
    basic.defineAll definitions = (Registry.mk {}).defineAll (builtin ++ definitions) := by
  rw [defineAll, defineAll, List.foldl_append]
  rfl

theorem parentOf?_define (r : Registry) (d : Definition) (name : String) :
    (r.define d.1 d.2).parentOf? name = if d.1 = name then d.2 else r.parentOf? name := by
  split
  · next h =>
      subst h
      simp [parentOf?, define]
  · next h => exact parentOf?_define_of_ne r h d.2

/-- A further definition hides the earlier ones of its name and no others. -/
theorem inherits_concat_iff {d : Definition} :
    Inherits (definitions ++ [d]) name parent ↔
      if d.1 = name then d.2 = some parent else Inherits definitions name parent := by
  constructor
  · rintro ⟨before, after, heq, hafter⟩
    rcases List.eq_nil_or_concat after with rfl | ⟨after, last, rfl⟩
    · obtain ⟨-, rfl⟩ := List.append_inj' heq rfl |>.imp_right List.singleton_inj.mp
      rw [if_pos rfl]
    · rw [List.concat_eq_append] at heq hafter
      rw [← List.cons_append, ← List.append_assoc] at heq
      obtain ⟨rfl, hlast⟩ := List.append_inj' heq rfl
      obtain rfl := List.singleton_inj.mp hlast
      rw [if_neg (hafter d (by simp))]
      exact ⟨before, after, rfl, fun e he => hafter e (List.mem_append_left _ he)⟩
  · intro h
    split at h
    · next hd =>
        refine ⟨definitions, [], ?_, by simp⟩
        rw [← hd, ← h]
    · next hd =>
        obtain ⟨before, after, rfl, hafter⟩ := h
        refine ⟨before, after ++ [d], by simp, fun e he => ?_⟩
        rcases List.mem_append.mp he with he | he
        · exact hafter e he
        · rw [List.mem_singleton.mp he]
          exact hd

theorem above_defineAll_iff :
    ((Registry.mk {}).defineAll definitions).Above name parent ↔
      Inherits definitions name parent := by
  induction definitions using List.reverseRecOn with
  | nil => simp [defineAll, Above, parentOf?, Inherits, Assoc.get?, Assoc.findEntry]
  | append_singleton definitions d ih =>
      rw [inherits_concat_iff, defineAll_concat, Above, parentOf?_define]
      split
      · exact Iff.rfl
      · exact ih

end Definitions

end Registry

namespace Assoc

variable {κ α : Type} [DecidableEq κ]

theorem keys_insertEntry (k : κ) (a : α) (entries : List (κ × α)) :
    (insertEntry k a entries).map Prod.fst =
      if k ∈ entries.map Prod.fst then entries.map Prod.fst else entries.map Prod.fst ++ [k] := by
  induction entries with
  | nil => rfl
  | cons entry entries ih =>
      obtain ⟨l, b⟩ := entry
      rw [insertEntry]
      by_cases hl : l = k
      · simp [hl]
      · rw [if_neg hl, List.map_cons, ih]
        by_cases hk : k ∈ entries.map Prod.fst
        · simp only [List.map_cons, List.mem_cons, hk, or_true, if_true]
        · simp only [List.map_cons, List.mem_cons, hk, Ne.symm hl, or_self, if_false,
            List.cons_append]

end Assoc

namespace Registry

variable {r : Registry}

/-- A registry has one entry for each name that was defined. -/
theorem keys_defineAll (definitions : List Definition) :
    ((Registry.mk {}).defineAll definitions).parents.keys.Nodup ∧
      ∀ name, name ∈ ((Registry.mk {}).defineAll definitions).parents.keys ↔
        name ∈ definitions.map Prod.fst := by
  induction definitions using List.reverseRecOn with
  | nil => exact ⟨List.nodup_nil, fun _ => Iff.rfl⟩
  | append_singleton definitions d ih =>
      obtain ⟨hnodup, hmem⟩ := ih
      rw [defineAll_concat]
      have hkeys := Assoc.keys_insertEntry d.1 d.2
        ((Registry.mk {}).defineAll definitions).parents.entries
      change (Assoc.keys (Registry.parents (Registry.define _ d.1 d.2))) = _ at hkeys
      rw [hkeys]
      split
      · next hold =>
          refine ⟨hnodup, fun name => ?_⟩
          have hdefined := (hmem d.1).mp hold
          rw [List.map_append, List.mem_append, List.map_singleton, List.mem_singleton]
          refine ⟨fun h => Or.inl ((hmem name).mp h), ?_⟩
          rintro (h | rfl)
          · exact (hmem name).mpr h
          · exact hold
      · next hnew =>
          refine ⟨List.nodup_append.mpr ⟨hnodup, List.nodup_singleton _, ?_⟩, fun name => ?_⟩
          · rintro name hname other hother rfl
            rw [List.mem_singleton.mp hother] at hname
            exact hnew hname
          · rw [List.map_append, List.mem_append, List.mem_append]
            exact or_congr_left (hmem name)

theorem size_defineAll (definitions : List Definition) :
    ((Registry.mk {}).defineAll definitions).parents.size =
      (definitions.map Prod.fst).dedup.length := by
  obtain ⟨hnodup, hmem⟩ := keys_defineAll definitions
  have hperm := (List.perm_ext_iff_of_nodup hnodup (List.nodup_dedup _)).mpr fun name =>
    (hmem name).trans List.mem_dedup.symm
  simpa [Assoc.keys, Assoc.size] using hperm.length_eq

/-! ## The walk -/

theorem length_ancestorsWithin_le (budget : Nat) (name : String) :
    (r.ancestorsWithin budget name).length ≤ budget := by
  induction budget generalizing name with
  | zero => exact Nat.le_refl 0
  | succ budget ih =>
      rw [ancestorsWithin]
      cases r.parentOf? name with
      | none => exact Nat.zero_le _
      | some parent => exact Nat.succ_le_succ (ih parent)

/-- A trail leaves each of its names for the last time at that name's parent. -/
theorem Trail.parent_of_mem {last name other : String} {names : List String}
    (h : r.Trail last name names) (hother : other ∈ names) :
    ∃ parent rest, r.Above other parent ∧ r.Trail last parent rest ∧ other ∉ rest := by
  induction h with
  | nil => exact absurd hother List.not_mem_nil
  | cons hparent hrest hnew ih =>
      rcases List.mem_cons.mp hother with rfl | hother
      · exact ⟨_, _, hparent, hrest, hnew⟩
      · exact ih hother

/-- The walk finds what is reached in one step or more, also the name itself where it stands on a
loop. -/
theorem mem_ancestors_iff {name ancestor : String} :
    ancestor ∈ r.ancestors name ↔ Relation.TransGen r.Above name ancestor := by
  unfold ancestors
  constructor
  · intro h
    cases hsize : r.parents.size with
    | zero =>
        rw [hsize] at h
        exact absurd h List.not_mem_nil
    | succ budget =>
        rw [hsize, ancestorsWithin] at h
        cases hparent : r.parentOf? name with
        | none =>
            rw [hparent] at h
            exact absurd h List.not_mem_nil
        | some parent =>
            rw [hparent] at h
            refine Relation.TransGen.head'_iff.mpr ⟨parent, hparent, ?_⟩
            rcases List.mem_cons.mp h with rfl | h
            · exact .refl
            · exact reflTransGen_of_mem h
  · intro h
    obtain ⟨parent, hparent, hrest⟩ := Relation.TransGen.head'_iff.mp h
    obtain ⟨names, htrail⟩ := exists_trail hrest
    -- if the way comes back to the name, it is cut short there
    obtain ⟨parent, rest, hparent, htrail, hnew⟩ :
        ∃ parent rest, r.Above name parent ∧ r.Trail ancestor parent rest ∧ name ∉ rest := by
      by_cases hmem : name ∈ names
      · exact htrail.parent_of_mem hmem
      · exact ⟨parent, names, hparent, htrail, hmem⟩
    have hlength : rest.length + 1 ≤ r.parents.size := (htrail.cons hparent hnew).length_le
    obtain ⟨budget, hbudget⟩ := Nat.exists_eq_add_of_le' hlength
    have hwalk : r.ancestorsWithin r.parents.size name =
        parent :: r.ancestorsWithin (budget + rest.length) parent := by
      have hname : r.parentOf? name = some parent := hparent
      rw [hbudget, ← Nat.add_assoc, ancestorsWithin, hname]
    rw [hwalk, List.mem_cons]
    exact htrail.mem_ancestorsWithin (Nat.le_add_left _ _)

/-- Whatever was defined, and however often: a class is a subclass of exactly those that parents
lead to in any number of steps, its ancestors are those that they lead to in one step or more, and
the walk takes no more steps than there are names. -/
theorem isSubclass_defineAll (definitions : List Definition) (descendant ancestor : String) :
    let r := basic.defineAll definitions
    let Parent := Inherits (builtin ++ definitions)
    (r.isSubclass descendant ancestor = true ↔ Relation.ReflTransGen Parent descendant ancestor) ∧
      (ancestor ∈ r.ancestors descendant ↔ Relation.TransGen Parent descendant ancestor) ∧
      (r.ancestors descendant).length ≤ ((builtin ++ definitions).map Prod.fst).dedup.length := by
  intro r Parent
  have hparent : r.Above = Parent := by
    funext name parent
    simp only [r, Parent, basic_defineAll]
    exact propext above_defineAll_iff
  rw [← hparent]
  refine ⟨isSubclass_iff, mem_ancestors_iff, ?_⟩
  have hlength := r.length_ancestorsWithin_le r.parents.size descendant
  rwa [← size_defineAll, ← basic_defineAll]

end Registry

end ClassScript

import ClassScript.Typing.Registry
import Mathlib.Data.List.Perm.Subperm
import Mathlib.Logic.Relation

/-!
# Ancestors by name

The registry leads from each name to the name of one parent, and may lead round in a circle. A walk
of as many steps as there are names finds every ancestor all the same: a trail that does not come to
a name twice is no longer than that.
-/

namespace ClassScript

namespace Registry

variable {r : Registry}

def Above (r : Registry) (name parent : String) : Prop :=
  r.parentOf? name = some parent

/-- The names on a way from one name to another, without the last one, and none of them twice. -/
inductive Trail (r : Registry) (last : String) : String → List String → Prop
  | nil : r.Trail last last []
  | cons {name parent : String} {names : List String} (hparent : r.Above name parent)
      (hrest : r.Trail last parent names) (hnew : name ∉ names) :
      r.Trail last name (name :: names)

namespace Trail

variable {last name : String} {names : List String}

theorem nodup (h : r.Trail last name names) : names.Nodup := by
  induction h with
  | nil => exact List.nodup_nil
  | cons _ _ hnew ih => exact List.nodup_cons.mpr ⟨hnew, ih⟩

theorem subset_keys (h : r.Trail last name names) : names ⊆ r.parents.keys := by
  induction h with
  | nil => exact List.nil_subset _
  | @cons name parent _ hparent _ _ ih =>
      refine List.cons_subset.mpr ⟨?_, ih⟩
      obtain ⟨entry, hentry⟩ : ∃ entry, r.parents.get? name = some entry := by
        unfold Above parentOf? at hparent
        cases hget : r.parents.get? name with
        | none => simp [hget] at hparent
        | some entry => exact ⟨entry, rfl⟩
      exact List.mem_map.mpr ⟨(name, entry), Assoc.mem_of_findEntry hentry, rfl⟩

theorem length_le (h : r.Trail last name names) : names.length ≤ r.parents.size := by
  simpa [Assoc.keys, Assoc.size] using (h.nodup.subperm h.subset_keys).length_le

/-- A trail goes on from each of its names. -/
theorem from_mem (h : r.Trail last name names) {other : String} (hother : other ∈ names) :
    ∃ rest, r.Trail last other rest := by
  induction h with
  | nil => exact absurd hother List.not_mem_nil
  | cons hparent hrest hnew ih =>
      rcases List.mem_cons.mp hother with rfl | hother
      · exact ⟨_, .cons hparent hrest hnew⟩
      · exact ih hother

/-- The walk gets to the end of a trail. -/
theorem mem_ancestorsWithin (h : r.Trail last name names) {budget : Nat}
    (hbudget : names.length ≤ budget) :
    last = name ∨ last ∈ r.ancestorsWithin budget name := by
  induction h generalizing budget with
  | nil => exact Or.inl rfl
  | @cons name parent names hparent _ _ ih =>
      cases budget with
      | zero => exact absurd hbudget (Nat.not_succ_le_zero _)
      | succ budget =>
          have hwalk : r.ancestorsWithin (budget + 1) name =
              parent :: r.ancestorsWithin budget parent := by
            rw [ancestorsWithin, show r.parentOf? name = some parent from hparent]
          rw [hwalk]
          rcases ih (Nat.le_of_succ_le_succ hbudget) with rfl | hmem
          · exact Or.inr List.mem_cons_self
          · exact Or.inr (List.mem_cons_of_mem _ hmem)

end Trail

/-- Cutting out the circles leaves a trail. -/
theorem exists_trail {name last : String} (h : Relation.ReflTransGen r.Above name last) :
    ∃ names, r.Trail last name names := by
  induction h using Relation.ReflTransGen.head_induction_on with
  | refl => exact ⟨[], .nil⟩
  | @head name parent hparent _ ih =>
      obtain ⟨names, htrail⟩ := ih
      by_cases hmem : name ∈ names
      · exact htrail.from_mem hmem
      · exact ⟨name :: names, .cons hparent htrail hmem⟩

theorem reflTransGen_of_mem {budget : Nat} {name ancestor : String}
    (h : ancestor ∈ r.ancestorsWithin budget name) :
    Relation.ReflTransGen r.Above name ancestor := by
  induction budget generalizing name with
  | zero => exact absurd h List.not_mem_nil
  | succ budget ih =>
      rw [ancestorsWithin] at h
      split at h
      · next parent hparent =>
          rcases List.mem_cons.mp h with rfl | h
          · exact .single hparent
          · exact .head hparent (ih h)
      · exact absurd h List.not_mem_nil

/-- A class counts as a subclass of those that the parents lead to. -/
theorem isSubclass_iff {name ancestor : String} :
    r.isSubclass name ancestor = true ↔ Relation.ReflTransGen r.Above name ancestor := by
  unfold isSubclass ancestors
  rw [Bool.or_eq_true, beq_iff_eq, List.contains_iff_mem]
  constructor
  · rintro (rfl | h)
    · exact .refl
    · exact reflTransGen_of_mem h
  · intro h
    obtain ⟨names, htrail⟩ := exists_trail h
    exact (htrail.mem_ancestorsWithin htrail.length_le).imp_left Eq.symm

/-! ## Definitions -/

theorem parentOf?_define_self (r : Registry) (name parent : String) :
    (r.define name (some parent)).parentOf? name = some parent := by
  simp [parentOf?, define]

theorem parentOf?_define_of_ne (r : Registry) {name other : String} (h : name ≠ other)
    (parent : Option String) : (r.define name parent).parentOf? other = r.parentOf? other := by
  simp [parentOf?, define, Assoc.get?_insert_of_ne _ h]

end Registry

end ClassScript

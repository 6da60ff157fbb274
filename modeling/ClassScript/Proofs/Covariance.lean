import ClassScript.Proofs.Ancestry
import ClassScript.Typing.Assignable

/-!
# Fitting types compose

A type fits itself, and a type that fits a second one fits whatever the second one fits. There is
one exception: everything fits `Object`, also what no parent leads from, so a way through `Object`
to something else says nothing about where it began. The parents of the registry may lead round in a
circle.
-/

namespace ClassScript

theorem Registry.isSubclass_trans {r : Registry} {a b c : String} (hab : r.isSubclass a b = true)
    (hbc : r.isSubclass b c = true) : r.isSubclass a c = true := by
  rw [Registry.isSubclass_iff] at hab hbc ⊢
  exact hab.trans hbc

namespace Ty

/-- The type that every other one fits: `Object` without arguments, marked for null or not. -/
def IsTop (t : Ty) : Prop :=
  t.name = "Object" ∧ t.generics = []

instance (t : Ty) : Decidable t.IsTop :=
  inferInstanceAs (Decidable (_ ∧ _))

/-- A type is held to the arguments of another one only if it has some itself. -/
def KeepsArguments (child parent : Ty) : Prop :=
  child.generics = [] ∨ child.generics = parent.generics

theorem KeepsArguments.trans {a b c : Ty} (hab : a.KeepsArguments b) (hbc : b.KeepsArguments c) :
    a.KeepsArguments c := by
  rcases hab with hnone | hsame
  · exact Or.inl hnone
  · unfold KeepsArguments
    rw [hsame]
    exact hbc

/-- One type fits another one: they are the same, or the other one admits null if the first does and
is the top, or it is an ancestor with the same arguments. -/
theorem covariant_eq_true_iff {lineage : Lineage} {child parent : Ty} :
    covariant lineage child parent = true ↔
      child = parent ∨
        (child.nullable = true → parent.nullable = true) ∧
          (parent.IsTop ∨
            child.KeepsArguments parent ∧ lineage.isSubclass child.name parent.name = true) := by
  unfold covariant
  split
  · next heq => simp [heq]
  split
  · next hne hnull => simp_all
  next hne hnull =>
    have hmark : child.nullable = true → parent.nullable = true := by simpa using hnull
    split
    · next htop =>
        have htop : parent.IsTop := by simpa [IsTop] using htop
        exact iff_of_true rfl (Or.inr ⟨hmark, Or.inl htop⟩)
    next htop =>
      have htop : ¬ parent.IsTop := by simpa [IsTop] using htop
      split
      · next hargs =>
          have hargs : ¬ child.KeepsArguments parent := by simpa [KeepsArguments] using hargs
          simp [hne, htop, hargs]
      · next hargs =>
          have hargs : child.KeepsArguments parent := by
            simpa [KeepsArguments, Decidable.imp_iff_not_or] using hargs
          rw [or_iff_right hne, or_iff_right htop]
          exact ⟨fun hsub => ⟨hmark, hargs, hsub⟩, fun h => h.2.2⟩

/-- For every registry, a type fits itself, and fitting goes on from type to type, except where it
would go on from the top to something else. -/
theorem covariant_refl_trans (r : Registry) :
    (∀ a, covariant { registry := r } a a = true) ∧
      ∀ a b c, covariant { registry := r } a b = true → covariant { registry := r } b c = true →
        ¬ (b.IsTop ∧ ¬ c.IsTop) → covariant { registry := r } a c = true := by
  refine ⟨fun a => covariant_eq_true_iff.mpr (Or.inl rfl), ?_⟩
  intro a b c hab hbc htop
  rw [covariant_eq_true_iff] at hab hbc ⊢
  rcases hab with rfl | ⟨hnull, hab⟩
  · exact hbc
  rcases hbc with rfl | ⟨hnull', hbc⟩
  · exact Or.inr ⟨hnull, hab⟩
  refine Or.inr ⟨fun h => hnull' (hnull h), ?_⟩
  by_cases hc : c.IsTop
  · exact Or.inl hc
  -- the top is neither in the middle nor at the end, so both steps go by the ancestors
  obtain ⟨hargs, hsub⟩ := hab.resolve_left fun hb => htop ⟨hb, hc⟩
  obtain ⟨hargs', hsub'⟩ := hbc.resolve_left hc
  exact Or.inr ⟨hargs.trans hargs', Registry.isSubclass_trans hsub hsub'⟩

def mutualParents : Registry :=
  (Registry.basic.define "Hen" (some "Egg")).define "Egg" (some "Hen")

/-- Round the circle, to a type that admits null and on to one with an argument. -/
theorem covariant_round_circle :
    let nullableEgg : Ty := { name := "Egg", nullable := true }
    let henOfNumbers : Ty := { name := "Hen", nullable := true, generics := [.number] }
    covariant { registry := mutualParents } (.named "Hen") nullableEgg = true ∧
      covariant { registry := mutualParents } nullableEgg henOfNumbers = true ∧
      ¬ (nullableEgg.IsTop ∧ ¬ henOfNumbers.IsTop) ∧
      covariant { registry := mutualParents } (.named "Hen") henOfNumbers = true := by
  have hfirst : covariant { registry := mutualParents } (.named "Hen")
      { name := "Egg", nullable := true } = true := by decide +kernel
  have hsecond : covariant { registry := mutualParents } { name := "Egg", nullable := true }
      { name := "Hen", nullable := true, generics := [.number] } = true := by decide +kernel
  have htop : ¬ (IsTop { name := "Egg", nullable := true } ∧
      ¬ IsTop { name := "Hen", nullable := true, generics := [.number] }) := by decide
  exact ⟨hfirst, hsecond, htop, (covariant_refl_trans mutualParents).2 _ _ _ hfirst hsecond htop⟩

-- the exception is one: numbers are objects, and these fit a slot that asks for an argument
example :
    covariant { registry := .basic } .number .object = true ∧
      covariant { registry := .basic } .object { object with generics := [number] } = true ∧
      covariant { registry := .basic } .number { object with generics := [number] } = false := by
  decide +kernel

end Ty

end ClassScript

/-!
# Computations in parts

Parsers and actions have a state and can fail. What such a computation does is what its parts do,
one after the other, and it ends with the first of them that fails.
-/

namespace ClassScript

variable {ε σ α β : Type} {x : EStateM ε σ α} {f : α → EStateM ε σ β} {s t u : σ}

theorem bind_eq_of_ok {a : α} (h : x s = .ok a t) : (x >>= f) s = f a t := by
  change EStateM.bind x f s = f a t
  rw [EStateM.bind, h]

theorem bind_eq_of_error {e : ε} (h : x s = .error e t) : (x >>= f) s = .error e t := by
  change EStateM.bind x f s = .error e t
  rw [EStateM.bind, h]

theorem exists_of_bind_eq_ok {b : β} (h : (x >>= f) s = .ok b u) :
    ∃ a t, x s = .ok a t ∧ f a t = .ok b u := by
  cases hx : x s with
  | ok a t => exact ⟨a, t, rfl, (bind_eq_of_ok hx).symm.trans h⟩
  | error e t => cases (bind_eq_of_error (f := f) hx).symm.trans h

theorem bind_eq_error {e : ε} (h : (x >>= f) s = .error e t) :
    x s = .error e t ∨ ∃ a u, x s = .ok a u ∧ f a u = .error e t := by
  cases hx : x s with
  | ok a u => exact Or.inr ⟨a, u, rfl, (bind_eq_of_ok hx).symm.trans h⟩
  | error e' u =>
      cases (bind_eq_of_error (f := f) hx).symm.trans h
      exact Or.inl rfl

/-- A question that has an answer has one to its first part. -/
theorem exists_answer_of_bind_eq_ok {x : Except ε α} {f : α → Except ε β} {b : β}
    (h : x >>= f = .ok b) : ∃ a, x = .ok a ∧ f a = .ok b := by
  cases x with
  | error e => cases h
  | ok a => exact ⟨a, rfl, h⟩

end ClassScript

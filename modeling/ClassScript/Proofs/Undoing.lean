import ClassScript.Proofs.PlacementGrammar

/-!
# Speculation can be undone

A parser of expressions only moves its cursor forward through the same tokens, whether it succeeds
or fails. So the index of a place is enough to come back to it, whatever was read since, and
whatever was saved, kept and undone in between.
-/

namespace ClassScript

namespace Parser

/-- A run beside itself, onward from a place. -/
def Link.onward (start : Cursor) : Link Eq where
  cursor c d := c = d ∧ start.Onward c
  length h := by rw [h.1]
  assignedName?_eq h := by rw [h.1]
  peek h := h.1 ▸ ⟨rfl, rfl, rfl⟩
  next h := ⟨by rw [h.1], h.2.trans (.next _)⟩

def final {α : Type} : EStateM.Result Diagnostic Cursor α → Cursor
  | .ok _ c => c
  | .error _ c => c

theorem onward_final {α : Type} {p : Parser α} {c : Cursor} (h : Pairs (.onward c) Eq p p) :
    c.Onward (final (p c)) := by
  have hagree := h c c ⟨rfl, .refl c⟩
  generalize p c = r at hagree ⊢
  cases hagree with
  | ok _ hcursor => exact hcursor.2
  | error _ hcursor => exact hcursor.2

end Parser

/-! ## Saving and coming back -/

namespace Speculation

inductive Step where
  | save | rollback | commit | expression
deriving DecidableEq

def after (s : Speculation) : Step → Speculation
  | .save => s.save
  | .rollback => s.rollback
  | .commit => s.commit
  | .expression => s.expression.2

def run (s : Speculation) (steps : List Step) : Speculation :=
  steps.foldl after s

/-- Expressions are read, and every place that is saved is given up or gone back to, the one that
was saved last first. -/
inductive Balanced : List Step → Prop
  | none : Balanced []
  | expression {rest : List Step} (h : Balanced rest) : Balanced (.expression :: rest)
  | kept {inner rest : List Step} (hinner : Balanced inner) (h : Balanced rest) :
      Balanced (.save :: inner ++ .commit :: rest)
  | undone {inner rest : List Step} (hinner : Balanced inner) (h : Balanced rest) :
      Balanced (.save :: inner ++ .rollback :: rest)

theorem run_append (s : Speculation) (steps more : List Step) :
    s.run (steps ++ more) = (s.run steps).run more :=
  List.foldl_append

theorem onward_expression (s : Speculation) :
    s.expression.2.saved = s.saved ∧ s.cursor.Onward s.expression.2.cursor := by
  have hsteady := Parser.stringRule_steady (Parser.depthOf s.cursor.tokens) Eq
  have honward : s.cursor.Onward (Parser.final (_ : EStateM.Result Diagnostic Cursor Expr)) :=
    Parser.onward_final (Parser.Pairs.expressionWith hsteady)
  unfold expression read
  cases hread : Parser.expressionWith (Parser.stringRule (Parser.depthOf s.cursor.tokens))
      s.cursor with
  | ok value cursor =>
      rw [hread] at honward
      exact ⟨rfl, honward⟩
  | error fault cursor =>
      rw [hread] at honward
      exact ⟨rfl, honward⟩

/-- From a place further on, with nothing else saved, the last place is found again. -/
theorem rollback_eq {s t : Speculation} (hsaved : t.saved = s.save.saved)
    (honward : s.cursor.Onward t.cursor) : t.rollback = s := by
  obtain ⟨cursor, saved⟩ := s
  unfold rollback
  rw [hsaved]
  simp only [save, honward.rewind]

/-- Balanced steps leave what was saved before them as it was, and only go onward. -/
theorem onward_run {steps : List Step} (h : Balanced steps) (s : Speculation) :
    (s.run steps).saved = s.saved ∧ s.cursor.Onward (s.run steps).cursor := by
  induction h generalizing s with
  | none => exact ⟨rfl, .refl _⟩
  | expression _ ih =>
      obtain ⟨hsaved, honward⟩ := onward_expression s
      obtain ⟨hsaved', honward'⟩ := ih s.expression.2
      exact ⟨hsaved'.trans hsaved, honward.trans honward'⟩
  | @kept inner rest _ _ ihinner ih =>
      obtain ⟨hsaved, honward⟩ := ihinner s.save
      obtain ⟨hsaved', honward'⟩ := ih (s.save.run inner).commit
      have hrun : s.run (.save :: inner ++ .commit :: rest) = (s.save.run inner).commit.run rest :=
        run_append s.save inner (.commit :: rest)
      have hcommit : (s.save.run inner).commit.saved = s.saved := congrArg List.tail hsaved
      rw [hrun]
      exact ⟨hsaved'.trans hcommit, honward.trans honward'⟩
  | @undone inner rest _ _ ihinner ih =>
      obtain ⟨hsaved, honward⟩ := ihinner s.save
      have hrun : s.run (.save :: inner ++ .rollback :: rest) =
          (s.save.run inner).rollback.run rest :=
        run_append s.save inner (.rollback :: rest)
      rw [hrun, rollback_eq hsaved honward]
      exact ih s

/-- Whatever is read after a save, and whatever is saved, kept and undone on the way, the rollback
restores the tokens, the place and the saved places. So the same tree or the same fault is found
from there as without the speculation. -/
theorem rollback_run {steps : List Step} (h : Balanced steps) (s : Speculation) :
    let restored := (s.save.run steps).rollback
    restored.cursor.tokens = s.cursor.tokens ∧ restored.cursor.index = s.cursor.index ∧
      restored.saved = s.saved ∧ restored = s ∧ restored.expression = s.expression := by
  obtain ⟨hsaved, honward⟩ := onward_run h s.save
  have hrestored := rollback_eq hsaved honward
  simp only [hrestored, true_and]

/-- The tokens of `a + (b c`. -/
def unclosed : List Token :=
  [⟨.identifier, "a", default, default⟩, ⟨.symbol .plus, "+", default, default⟩,
   ⟨.symbol .lParen, "(", default, default⟩, ⟨.identifier, "b", default, default⟩,
   ⟨.identifier, "c", default, default⟩]

/-- A fault in the first attempt, then one that is kept and one that is undone. -/
theorem rollback_run_unclosed :
    let s := Speculation.ofTokens unclosed
    let steps : List Step :=
      [.expression, .save, .expression, .commit, .save, .expression, .rollback]
    Balanced steps ∧ s.expression.1.toOption.isNone ∧ (s.save.run steps).cursor.index = 5 ∧
      (s.save.run steps).rollback = s := by
  intro s steps
  have hbalanced : Balanced steps :=
    .expression (.kept (.expression .none) (.undone (.expression .none) .none))
  have hfails : s.expression.1.toOption.isNone := by decide +kernel
  have hindex : (s.save.run steps).cursor.index = 5 := by decide +kernel
  exact ⟨hbalanced, hfails, hindex, (rollback_run hbalanced s).2.2.2.1⟩

end Speculation

end ClassScript

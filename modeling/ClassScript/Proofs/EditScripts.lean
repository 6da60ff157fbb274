import ClassScript.Text.EditDistance
import Mathlib.Data.List.Induction
import Mathlib.Order.Bounds.Defs

/-!
# The edit distance is the least number of edits

An edit inserts, deletes or replaces one character anywhere in a text. The rows of distances obey a
recurrence on the last characters of the two texts. From it come a script of edits that is as long
as the distance, and the fact that one edit changes the distance to any other text by one at most,
so that no script is shorter. The laws of a distance follow from what can be done with scripts.
-/

namespace ClassScript.Text

inductive Edit : List Char → List Char → Prop
  | insertion (before after : List Char) (c : Char) : Edit (before ++ after) (before ++ c :: after)
  | deletion (before after : List Char) (c : Char) : Edit (before ++ c :: after) (before ++ after)
  | substitution (before after : List Char) (c d : Char) :
      Edit (before ++ c :: after) (before ++ d :: after)

inductive Edits : Nat → List Char → List Char → Prop
  | none (a : List Char) : Edits 0 a a
  | step {n : Nat} {a b c : List Char} (h : Edit a b) (more : Edits n b c) : Edits (n + 1) a c

/-! ## Scripts of edits -/

theorem Edit.symm {a b : List Char} (h : Edit a b) : Edit b a := by
  cases h with
  | insertion before after c => exact .deletion before after c
  | deletion before after c => exact .insertion before after c
  | substitution before after c d => exact .substitution before after d c

theorem Edit.concat {a b : List Char} (h : Edit a b) (x : Char) : Edit (a ++ [x]) (b ++ [x]) := by
  cases h with
  | insertion before after c => simpa using Edit.insertion before (after ++ [x]) c
  | deletion before after c => simpa using Edit.deletion before (after ++ [x]) c
  | substitution before after c d => simpa using Edit.substitution before (after ++ [x]) c d

namespace Edits

variable {m n : Nat} {a b c : List Char}

theorem trans (h : Edits m a b) (h' : Edits n b c) : Edits (m + n) a c := by
  induction h with
  | none a => simpa using h'
  | step edit _ ih =>
      rw [Nat.add_right_comm]
      exact .step edit (ih h')

theorem single (h : Edit a b) : Edits 1 a b :=
  .step h (.none b)

theorem symm (h : Edits n a b) : Edits n b a := by
  induction h with
  | none a => exact .none a
  | step edit _ ih => exact ih.trans (single edit.symm)

theorem concat (h : Edits n a b) (x : Char) : Edits n (a ++ [x]) (b ++ [x]) := by
  induction h with
  | none a => exact .none _
  | step edit _ ih => exact .step (edit.concat x) ih

theorem insert_last (h : Edits n a b) (x : Char) : Edits (n + 1) a (b ++ [x]) := by
  have hlast : Edit b (b ++ [x]) := by simpa using Edit.insertion b [] x
  exact h.trans (single hlast)

theorem delete_last (h : Edits n a b) (x : Char) : Edits (n + 1) (a ++ [x]) b :=
  (h.symm.insert_last x).symm

theorem replace_last (h : Edits n a b) (x y : Char) : Edits (n + 1) (a ++ [x]) (b ++ [y]) :=
  (h.concat x).trans (single (.substitution b [] x y))

theorem cheaper (h : Edits m a b) (h' : Edits n a b) : Edits (min m n) a b := by
  rcases Nat.le_total m n with hle | hle
  · rwa [Nat.min_eq_left hle]
  · rwa [Nat.min_eq_right hle]

theorem eq_of_zero (h : Edits 0 a b) : a = b := by
  cases h
  rfl

end Edits

/-! ## The rows -/

/-- The row of distances of a text to all beginnings of another. -/
def row (a b : List Char) : List Nat :=
  a.foldl (nextRow b) (List.range (b.length + 1))

theorem charDistance_eq (a b : List Char) : charDistance a b = (row a b).getLastD 0 :=
  rfl

theorem row_concat (a b : List Char) (c : Char) : row (a ++ [c]) b = nextRow b (row a b) c :=
  List.foldl_append

/-- One more column gives one more entry, and the entries before it stay as they are. -/
theorem rowTail_concat (c d : Char) (up : Nat) {columns : List Char} {above : List Nat}
    (hlength : above.length = columns.length + 1) (left : Nat) :
    rowTail c (columns ++ [d]) (above ++ [up]) left =
      rowTail c columns above left ++
        [min (min (up + 1) ((left :: rowTail c columns above left).getLastD 0 + 1))
          (above.getLastD 0 + if c = d then 0 else 1)] := by
  induction columns generalizing above left with
  | nil =>
      obtain ⟨diagonal, rfl⟩ := List.length_eq_one_iff.mp hlength
      rfl
  | cons b columns ih =>
      obtain ⟨diagonal, above, rfl⟩ := List.exists_cons_of_length_eq_add_one hlength
      have hlength' : above.length = columns.length + 1 := Nat.succ.inj hlength
      obtain ⟨next, above, rfl⟩ := List.exists_cons_of_length_eq_add_one hlength'
      simp only [List.cons_append, rowTail]
      rw [← List.cons_append, ih hlength']
      rfl

theorem nextRow_concat (c d : Char) (up : Nat) {columns : List Char} {above : List Nat}
    (hlength : above.length = columns.length + 1) :
    nextRow (columns ++ [d]) (above ++ [up]) c =
      nextRow columns above c ++
        [min (min (up + 1) ((nextRow columns above c).getLastD 0 + 1))
          (above.getLastD 0 + if c = d then 0 else 1)] := by
  have hhead : (above ++ [up]).headD 0 = above.headD 0 := by
    cases above with
    | nil => cases hlength
    | cons => rfl
  simp only [nextRow, hhead, rowTail_concat c d up hlength, List.cons_append]

theorem length_rowTail (c : Char) {columns : List Char} {above : List Nat}
    (hlength : above.length = columns.length + 1) (left : Nat) :
    (rowTail c columns above left).length = columns.length := by
  induction columns generalizing above left with
  | nil => simp [rowTail]
  | cons b columns ih =>
      obtain ⟨diagonal, above, rfl⟩ := List.exists_cons_of_length_eq_add_one hlength
      have hlength' : above.length = columns.length + 1 := Nat.succ.inj hlength
      obtain ⟨next, above, rfl⟩ := List.exists_cons_of_length_eq_add_one hlength'
      rw [rowTail, List.length_cons, ih hlength', List.length_cons]

theorem length_row (a b : List Char) : (row a b).length = b.length + 1 := by
  induction a using List.reverseRecOn with
  | nil => simp [row]
  | append_singleton a c ih => rw [row_concat, nextRow, List.length_cons, length_rowTail c ih]

/-- A row goes on as the row of a longer text does. -/
theorem exists_row_concat (a b : List Char) (d : Char) :
    ∃ entry, row a (b ++ [d]) = row a b ++ [entry] := by
  induction a using List.reverseRecOn with
  | nil => exact ⟨b.length + 1, by simp [row, List.range_succ]⟩
  | append_singleton a c ih =>
      obtain ⟨up, hup⟩ := ih
      rw [row_concat, row_concat, hup, nextRow_concat c d up (length_row a b)]
      exact ⟨_, rfl⟩

theorem row_concat_right (a b : List Char) (d : Char) :
    row a (b ++ [d]) = row a b ++ [charDistance a (b ++ [d])] := by
  obtain ⟨entry, hentry⟩ := exists_row_concat a b d
  rw [charDistance_eq, hentry, List.getLastD_concat]

/-! ## The recurrence -/

theorem charDistance_nil_left (b : List Char) : charDistance [] b = b.length := by
  simp [charDistance, List.range_succ]

theorem charDistance_nil_right (a : List Char) : charDistance a [] = a.length := by
  have hrow : row a [] = [a.length] := by
    induction a using List.reverseRecOn with
    | nil => rfl
    | append_singleton a c ih =>
        rw [row_concat, ih]
        simp [nextRow, rowTail]
  rw [charDistance_eq, hrow]
  rfl

/-- The last characters are deleted, inserted, or set against each other. -/
theorem charDistance_concat (a b : List Char) (c d : Char) :
    charDistance (a ++ [c]) (b ++ [d]) =
      min (min (charDistance a (b ++ [d]) + 1) (charDistance (a ++ [c]) b + 1))
        (charDistance a b + if c = d then 0 else 1) := by
  rw [charDistance_eq, row_concat, row_concat_right, nextRow_concat c d _ (length_row a b),
    List.getLastD_concat, ← row_concat, ← charDistance_eq, ← charDistance_eq]

theorem charDistance_concat_self (a b : List Char) (c : Char) :
    charDistance (a ++ [c]) (b ++ [c]) ≤ charDistance a b := by
  rw [charDistance_concat, if_pos rfl]
  omega

/-! ## A shortest script -/

/-- There is a script of edits as long as the distance. -/
theorem edits_charDistance (a b : List Char) : Edits (charDistance a b) a b := by
  induction a using List.reverseRecOn generalizing b with
  | nil =>
      rw [charDistance_nil_left]
      induction b using List.reverseRecOn with
      | nil => exact .none []
      | append_singleton b d ih => simpa using ih.insert_last d
  | append_singleton a c iha =>
      induction b using List.reverseRecOn with
      | nil =>
          have hdelete := (iha []).delete_last c
          simpa [charDistance_nil_right] using hdelete
      | append_singleton b d ihb =>
          have hdelete := (iha (b ++ [d])).delete_last c
          have hinsert := ihb.insert_last d
          have hmatch :
              Edits (charDistance a b + if c = d then 0 else 1) (a ++ [c]) (b ++ [d]) := by
            split
            · next h => exact h ▸ (iha b).concat c
            · exact (iha b).replace_last c d
          rw [charDistance_concat]
          exact (hdelete.cheaper hinsert).cheaper hmatch

/-! ## No script is shorter -/

/-- The distance of a text to any other is at most one more than that of another text. -/
def Near (a b : List Char) : Prop :=
  ∀ z, charDistance a z ≤ charDistance b z + 1

theorem near_concat (a : List Char) (c : Char) : Near (a ++ [c]) a := by
  intro z
  cases z using List.reverseRecOn with
  | nil => simp [charDistance_nil_right]
  | append_singleton z d =>
      rw [charDistance_concat]
      omega

theorem charDistance_concat_le (a z : List Char) (d : Char) :
    charDistance a (z ++ [d]) ≤ charDistance a z + 1 := by
  cases a using List.reverseRecOn with
  | nil => simp [charDistance_nil_left]
  | append_singleton a c =>
      rw [charDistance_concat]
      omega

theorem near_of_concat (a : List Char) (c : Char) : Near a (a ++ [c]) := by
  intro z
  induction z using List.reverseRecOn with
  | nil =>
      simp [charDistance_nil_right]
      omega
  | append_singleton z d ih =>
      have hinsert := charDistance_concat_le a z d
      rw [charDistance_concat]
      omega

theorem near_replace (a : List Char) (c d : Char) : Near (a ++ [c]) (a ++ [d]) := by
  intro z
  induction z using List.reverseRecOn with
  | nil => simp [charDistance_nil_right]
  | append_singleton z e ih =>
      rw [charDistance_concat, charDistance_concat]
      split <;> split <;> omega

/-- What is near stays near when the same character is put behind both texts. -/
theorem Near.concat {a b : List Char} (h : Near a b) (c : Char) : Near (a ++ [c]) (b ++ [c]) := by
  intro z
  induction z using List.reverseRecOn with
  | nil => simpa [charDistance_nil_right] using h []
  | append_singleton z d ih =>
      have hz := h z
      have hzd := h (z ++ [d])
      rw [charDistance_concat, charDistance_concat]
      omega

theorem Near.append {a b : List Char} (h : Near a b) (after : List Char) :
    Near (a ++ after) (b ++ after) := by
  induction after using List.reverseRecOn with
  | nil => simpa using h
  | append_singleton after c ih =>
      rw [← List.append_assoc, ← List.append_assoc]
      exact ih.concat c

theorem Edit.near {a b : List Char} (h : Edit a b) : Near a b := by
  cases h with
  | insertion before after c => simpa using (near_of_concat before c).append after
  | deletion before after c => simpa using (near_concat before c).append after
  | substitution before after c d => simpa using (near_replace before c d).append after

theorem charDistance_self (a : List Char) : charDistance a a = 0 := by
  induction a using List.reverseRecOn with
  | nil => rfl
  | append_singleton a c ih =>
      have hle := charDistance_concat_self a a c
      omega

theorem charDistance_le_of_edits {n : Nat} {a b : List Char} (h : Edits n a b) :
    charDistance a b ≤ n := by
  induction h with
  | none a => exact Nat.le_of_eq (charDistance_self a)
  | @step n a b c edit _ ih =>
      have hnear := edit.near c
      omega

/-! ## The distance of two texts -/

theorem isLeast_editDistance (a b : String) :
    IsLeast {n | Edits n a.toList b.toList} (editDistance a b) :=
  ⟨edits_charDistance _ _, fun _ h => charDistance_le_of_edits h⟩

theorem editDistance_le_symm (a b : String) : editDistance a b ≤ editDistance b a :=
  (isLeast_editDistance a b).2 (isLeast_editDistance b a).1.symm

/-- The computed number is the least number of insertions, deletions and substitutions of single
characters that turn one text into the other. So it is the same in both directions, it is zero
exactly for equal texts, and a detour is never shorter. -/
theorem editDistance_least (a b : String) :
    IsLeast {n | Edits n a.toList b.toList} (editDistance a b) ∧
      editDistance a b = editDistance b a ∧ (editDistance a b = 0 ↔ a = b) ∧
      ∀ c, editDistance a c ≤ editDistance a b + editDistance b c := by
  refine ⟨isLeast_editDistance a b, ?_, ⟨?_, ?_⟩, ?_⟩
  · exact Nat.le_antisymm (editDistance_le_symm a b) (editDistance_le_symm b a)
  · intro hzero
    have hscript : Edits (editDistance a b) a.toList b.toList := (isLeast_editDistance a b).1
    rw [hzero] at hscript
    exact String.toList_inj.mp hscript.eq_of_zero
  · rintro rfl
    exact charDistance_self a.toList
  · intro c
    exact (isLeast_editDistance a c).2
      ((isLeast_editDistance a b).1.trans (isLeast_editDistance b c).1)

example : editDistance "kitten" "sitting" = 3 := by decide +kernel

end ClassScript.Text

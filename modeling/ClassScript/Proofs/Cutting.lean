import ClassScript.Proofs.Slices

/-!
# How a text is cut

A text is cut from the front: at each step something is skipped, a token is taken, or the text is
refused. `Cut` says so without a bound on the number of steps; the tokenizer's bound, the length of
the text, is never reached before the end.
-/

namespace ClassScript

namespace Place

theorem advance_append (p : Place) (cs ds : List Char) :
    p.advance (cs ++ ds) = (p.advance cs).advance ds :=
  List.foldl_append

@[simp]
theorem offset_advance (p : Place) (cs : List Char) :
    (p.advance cs).offset = p.offset + cs.length := by
  induction cs generalizing p with
  | nil => rfl
  | cons c cs ih =>
      have hstep : (p.step c).offset = p.offset + 1 := by
        unfold step
        split <;> rfl
      rw [advance, List.foldl_cons, ← advance, ih, hstep, List.length_cons]
      omega

end Place

namespace Scan

theorem placeAt_append (place : Place) (taken rest : List Char) :
    placeAt place (taken ++ rest) rest = place.advance taken := by
  simp [placeAt]

/-- The ways to cut a text from a place on, and what comes of it. -/
inductive Cut (source : Source) :
    Mode → Place → List Char → Except Diagnostic (List Token) → Prop
  | finish {mode : Mode} {place : Place} :
      Cut source mode place [] (.ok [tokenAt source place place ⟨.finish, ""⟩])
  | skip {mode : Mode} {place : Place} {c : Char} {body rest : List Char}
      {result : Except Diagnostic (List Token)}
      (hnext : next mode c (body ++ rest) = .ok (none, rest))
      (h : Cut source mode (place.advance (c :: body)) rest result) :
      Cut source mode place (c :: body ++ rest) result
  | token {mode : Mode} {place : Place} {c : Char} {body rest : List Char} {lexeme : Lexeme}
      {result : Except Diagnostic (List Token)}
      (hnext : next mode c (body ++ rest) = .ok (some lexeme, rest))
      (h : Cut source (Mode.after lexeme.kind) (place.advance (c :: body)) rest result) :
      Cut source mode place (c :: body ++ rest)
        (result.map (tokenAt source place (place.advance (c :: body)) lexeme :: ·))
  | fault {mode : Mode} {place : Place} {c : Char} {cs taken rest : List Char} {cause : LexCause}
      (hnext : next mode c cs = .error (cause, rest)) (hcs : c :: cs = taken ++ rest) :
      Cut source mode place (c :: cs)
        (.error (.lexical cause (source.position place)
          ⟨place.offset, (place.advance taken).offset⟩))

theorem cut_tokensFrom (source : Source) {bound : Nat} (mode : Mode) (place : Place)
    {cs : List Char} (hbound : cs.length ≤ bound) :
    Cut source mode place cs (tokensFrom source bound mode place cs) := by
  fun_induction tokensFrom source bound mode place cs with
  | case1 bound mode place => exact .finish
  | case2 mode place cs hcs =>
      exact absurd (List.eq_nil_of_length_eq_zero (Nat.le_zero.mp hbound)) hcs
  | case3 bound mode place c cs cause rest hnext stop =>
      have hrest := next_suffix mode c cs
      rw [hnext] at hrest
      obtain ⟨taken, htaken⟩ := hrest
      have hstop : stop = place.advance taken := by
        simp only [stop, ← htaken]
        exact placeAt_append place taken rest
      rw [hstop]
      exact .fault hnext htaken.symm
  | case4 bound mode place c cs rest hnext ih =>
      obtain ⟨body, rfl, -⟩ := next_skipped hnext
      have hplace := placeAt_append place (c :: body) rest
      rw [List.cons_append] at hplace
      rw [hplace] at ih ⊢
      exact .skip hnext (ih (by simp at hbound; omega))
  | case5 bound mode place c cs lexeme rest hnext stop ih =>
      obtain ⟨body, rfl, -⟩ := next_taken hnext
      have hstop : stop = place.advance (c :: body) := placeAt_append place (c :: body) rest
      rw [hstop] at ih ⊢
      exact .token hnext (ih (by simp at hbound; omega))

/-- A text is cut in one way only. -/
theorem Cut.tokensFrom_eq {source : Source} {mode : Mode} {place : Place} {cs : List Char}
    {result : Except Diagnostic (List Token)} (h : Cut source mode place cs result) {bound : Nat}
    (hbound : cs.length ≤ bound) : tokensFrom source bound mode place cs = result := by
  induction h generalizing bound with
  | finish => rw [tokensFrom]
  | @skip mode place c body rest result hnext _ ih =>
      cases bound with
      | zero => simp at hbound
      | succ bound =>
          have hplace := placeAt_append place (c :: body) rest
          rw [List.cons_append] at hplace ⊢
          simp only [tokensFrom, hnext, hplace]
          exact ih (by simp at hbound; omega)
  | @token mode place c body rest lexeme result hnext _ ih =>
      cases bound with
      | zero => simp at hbound
      | succ bound =>
          have hplace := placeAt_append place (c :: body) rest
          rw [List.cons_append] at hplace ⊢
          simp only [tokensFrom, hnext, hplace]
          rw [ih (by simp at hbound; omega)]
  | @fault mode place c cs taken rest cause hnext hcs =>
      cases bound with
      | zero => simp at hbound
      | succ bound => simp only [tokensFrom, hnext, hcs, placeAt_append]

end Scan

/-- The tokenizer cuts the whole text. -/
theorem cut_tokenize (text file : String) :
    Scan.Cut (Source.ofText file text.toList) .value {} text.toList (tokenize text file) :=
  Scan.cut_tokensFrom _ _ _ (Nat.le_refl _)

end ClassScript

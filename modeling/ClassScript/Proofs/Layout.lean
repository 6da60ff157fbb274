import ClassScript.Proofs.Lossless
import ClassScript.Proofs.PlacementGrammar

/-!
# Layout does not matter

A text can be written anew from the slices of its tokens with one blank between any two. The tokens
stay the same but for their places: a token is cut from its slice alone, and the mode it is cut in
depends on the kind of the token before. The parser does not look at places, so it reads the same
program, or refuses both texts for the same cause.
-/

namespace ClassScript

/-- The slices of the tokens with one blank between any two of them. -/
def respaced (text : List Char) (tokens : List Token) : List Char :=
  [' '].intercalate ((tokens.filter (·.kind ≠ .finish)).map fun t => t.span.slice text)

theorem respaced_cons (text : List Char) {t : Token} (ht : t.kind ≠ .finish) (ts : List Token) :
    respaced text (t :: ts) = t.span.slice text ∧ respaced text ts = [] ∨
      respaced text (t :: ts) = t.span.slice text ++ ' ' :: respaced text ts := by
  unfold respaced
  rw [List.filter_cons_of_pos (by simpa using ht), List.map_cons]
  cases (ts.filter (·.kind ≠ .finish)).map fun t => t.span.slice text with
  | nil => exact Or.inl ⟨List.intercalate_singleton, List.intercalate_nil⟩
  | cons slice slices => exact Or.inr (by rw [List.intercalate_cons_cons, List.append_assoc]; rfl)

namespace Scan

/-- A blank is skipped in any mode. -/
theorem Cut.blank {source : Source} {mode : Mode} {place : Place} {cs : List Char}
    {result : Except Diagnostic (List Token)}
    (h : Cut source mode (place.advance [' ']) cs result) :
    Cut source mode place (' ' :: cs) result :=
  .skip (First.blank (by decide)).next_eq h

/-- The respaced text is cut into alike tokens. -/
theorem Cut.respaced {source : Source} {mode : Mode} {place : Place} {cs text : List Char}
    {result : Except Diagnostic (List Token)} {tokens : List Token}
    (h : Cut source mode place cs result) (hresult : result = .ok tokens) {before : List Char}
    (htext : text = before ++ cs) (hplace : place.offset = before.length) (source' : Source)
    (place' : Place) :
    ∃ tokens', Cut source' mode place' (respaced text tokens) (.ok tokens') ∧
      List.Forall₂ (Token.Like Anywhere) tokens tokens' := by
  induction h generalizing before tokens place' with
  | finish =>
      cases hresult
      exact ⟨_, .finish, .cons ⟨rfl, rfl, trivial⟩ .nil⟩
  | skip hnext _ ih =>
      rw [← List.append_assoc] at htext
      exact ih hresult htext (by simp [hplace]) place'
  | @token mode place c body rest lexeme result hnext _ ih =>
      cases result with
      | error fault => cases hresult
      | ok ts =>
          cases hresult
          rw [← List.append_assoc] at htext
          obtain ⟨body', hbody, -, halone⟩ := next_taken hnext
          obtain rfl := List.append_cancel_right hbody
          have hspan := slice_tokenAt htext hplace source lexeme
          have hkind : (tokenAt source place (place.advance (c :: body)) lexeme).kind ≠ .finish :=
            (starts_of_next hnext).kind_ne_finish
          have hlike : ∀ place place' stop stop', (tokenAt source place stop lexeme).Like Anywhere
              (tokenAt source' place' stop' lexeme) := fun _ _ _ _ => ⟨rfl, rfl, trivial⟩
          rcases respaced_cons text hkind ts with ⟨hwhole, hnone⟩ | hwhole
          · obtain ⟨ts', hcut, hts'⟩ := ih rfl htext (by simp [hplace]) (place'.advance (c :: body))
            rw [hnone] at hcut
            rw [hwhole, hspan, ← List.append_nil (c :: body)]
            exact ⟨_, .token (halone [] .nil) hcut, .cons (hlike _ _ _ _) hts'⟩
          · obtain ⟨ts', hcut, hts'⟩ := ih rfl htext (by simp [hplace])
              ((place'.advance (c :: body)).advance [' '])
            rw [hwhole, hspan]
            exact ⟨_, .token (halone _ (.cons _)) hcut.blank, .cons (hlike _ _ _ _) hts'⟩
  | fault => cases hresult

end Scan

/-- A text and the text respaced have the same tokens but for their places, and the same program or
the same fault. -/
theorem parse_respaced {text file : String} {tokens : List Token}
    (h : tokenize text file = .ok tokens) (file' : String) :
    ∃ tokens', tokenize (String.ofList (respaced text.toList tokens)) file' = .ok tokens' ∧
      tokens'.map (fun t => (t.kind, t.value)) = tokens.map (fun t => (t.kind, t.value)) ∧
      ((∃ program, parse tokens = .ok program ∧ parse tokens' = .ok program) ∨
        ∃ cause t t', parse tokens = .error (.grammatical cause t) ∧
          parse tokens' = .error (.grammatical cause t') ∧
          cause.message t = cause.message t') := by
  obtain ⟨tokens', hcut, halike⟩ := (cut_tokenize text file).respaced h (List.nil_append _).symm rfl
    (Source.ofText file' (respaced text.toList tokens)) {}
  refine ⟨tokens', ?_, (map_eq_of_like Prod.mk halike).symm, ?_⟩
  · rw [tokenize, String.toList_ofList]
    exact hcut.tokensFrom_eq (Nat.le_refl _)
  · have hsame := parse_same halike (last_of_tokenize h)
    generalize parse tokens = r at hsame
    generalize parse tokens' = r' at hsame
    cases hsame with
    | ok program => exact Or.inl ⟨program, rfl, rfl⟩
    | error hfault =>
        cases hfault with
        | @grammatical cause t u hlike => exact Or.inr ⟨cause, t, u, rfl, rfl, hlike.message cause⟩

def crampedText : String :=
  "var a=1;# one\nprint(\"\x7ba/2\x7d\"/* half */+.5)"

theorem crampedText_respaced : ∃ tokens tokens', tokenize crampedText "main" = .ok tokens ∧
    tokenize "var a = 1 ; print ( \"\x7ba/2\x7d\" + .5 )" "main" = .ok tokens' ∧
    tokens'.map (fun t => (t.kind, t.value)) = tokens.map (fun t => (t.kind, t.value)) ∧
    ∃ program, parse tokens = .ok program ∧ parse tokens' = .ok program := by
  have hrun : (tokenize crampedText "main").toOption.map (fun tokens =>
      (String.ofList (respaced crampedText.toList tokens), (parse tokens).toOption.isSome)) =
      some ("var a = 1 ; print ( \"\x7ba/2\x7d\" + .5 )", true) := by
    decide +kernel
  cases htokens : tokenize crampedText "main" with
  | error fault =>
      rw [htokens] at hrun
      cases hrun
  | ok tokens =>
      rw [htokens] at hrun
      obtain ⟨htext, hparse⟩ := Prod.mk.inj (Option.some.inj hrun)
      obtain ⟨tokens', htokens', hvalues, hprogram | ⟨cause, t, t', hfault, -⟩⟩ :=
        parse_respaced htokens "main"
      · rw [htext] at htokens'
        exact ⟨tokens, tokens', rfl, htokens', hvalues, hprogram⟩
      · rw [hfault] at hparse
        cases hparse

end ClassScript

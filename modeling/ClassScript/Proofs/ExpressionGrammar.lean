import ClassScript.Proofs.GrammarComplete
import ClassScript.Proofs.GrammarSound
import ClassScript.Proofs.TemplateText

/-!
# Expressions are read by their grammar

Tokens are one expression exactly if the grammar derives it from them, and then only that one. The
code in a string is read by the same rules to any depth, because it is shorter than the string: the
bound of the depth never shows.
-/

namespace ClassScript.Parser

open Grammar
open Grammar.Phrase

variable {string : StringRule} {ts : List Token} {finish : Token} {e : Expr}

/-! ## Whole inputs -/

theorem ofTokens_append (hfinish : finish.kind = .finish) (ts : List Token) :
    Cursor.ofTokens (ts ++ [finish]) = ⟨[], ts ++ [finish]⟩ := by
  simp [Cursor.ofTokens, Cursor.closed, hfinish]

theorem expect_finish {c : Cursor} (h : nextKind c.rest = .finish) :
    expect .finish c = .ok c.peek c.next := by
  have hcheck : check .finish c = .ok true c := by
    change EStateM.Result.ok (decide (c.peek.kind = .finish)) c = _
    rw [peek_kind, h]
    rfl
  exact bind_eq_of_ok hcheck

/-- A whole input is an expression exactly if one takes it up to the end. -/
theorem wholeWith_eq_ok_iff_exists (hfinish : finish.kind = .finish) :
    wholeWith string (ts ++ [finish]) = .ok e ↔
      ∃ c, expressionAt string (ts ++ [finish]).length ⟨[], ts ++ [finish]⟩ = .ok e c ∧
        nextKind c.rest = .finish := by
  simp only [wholeWith, ofTokens_append hfinish]
  constructor
  · intro h
    split at h
    next value c hread =>
      cases h
      obtain ⟨value, d, hvalue, h₁⟩ := exists_of_bind_eq_ok hread
      obtain ⟨t, d', hend, h₂⟩ := exists_of_bind_eq_ok h₁
      obtain ⟨rfl, -⟩ := pure_eq_ok h₂
      obtain ⟨hnext, -⟩ := expect_eq_ok hend
      exact ⟨d, hvalue, hnext⟩
    next => cases h
  · rintro ⟨c, hread, hnext⟩
    have hwhole : (do
        let value ← expressionWith string
        let _ ← expect .finish
        return value : Parser Expr) ⟨[], ts ++ [finish]⟩ = .ok e c.next := by
      have hvalue : expressionWith string ⟨[], ts ++ [finish]⟩ = .ok e c := hread
      rw [bind_eq_of_ok hvalue, bind_eq_of_ok (expect_finish hnext)]
      rfl
    simp only [hwhole]

/-- What is left behind a phrase in front of the end is the end. -/
theorem eq_of_append_eq {us rest : List Token} (hts : ∀ t ∈ ts, t.kind ≠ .finish)
    (hus : ∀ t ∈ us, t.kind ≠ .finish) (hfinish : finish.kind = .finish)
    (hrest : nextKind rest = .finish) (h : ts ++ [finish] = us ++ rest) : us = ts := by
  induction ts generalizing us with
  | nil =>
      cases us with
      | nil => rfl
      | cons u us =>
          have hu : finish = u := (List.cons.inj h).1
          exact absurd hfinish (hus finish (by simp [hu]))
  | cons t ts ih =>
      cases us with
      | nil =>
          rw [← show t :: (ts ++ [finish]) = rest from h] at hrest
          exact absurd hrest (hts t (by simp))
      | cons u us =>
          obtain ⟨rfl, htail⟩ := List.cons.inj h
          rw [ih (fun t ht => hts t (by simp [ht])) (fun t ht => hus t (by simp [ht])) htail]

theorem wholeWith_eq_ok_iff (hts : ∀ t ∈ ts, t.kind ≠ .finish) (hfinish : finish.kind = .finish) :
    wholeWith string (ts ++ [finish]) = .ok e ↔ Derives string assign ts e := by
  rw [wholeWith_eq_ok_iff_exists hfinish]
  constructor
  · rintro ⟨c, hread, hnext⟩
    obtain ⟨us, hus, hphrase⟩ := reads_expressionAt string _ hread
    rwa [eq_of_append_eq hts hphrase.kind_ne_finish hfinish hnext hus] at hphrase
  · intro h
    have hread := completes_of_derives h (ts ++ [finish]).length [finish] (by simp)
      (.of_eq (by simp [hfinish]))
    exact ⟨_, hread [], hfinish⟩

/-! ## Strings in strings -/

/-- The code in a string token is shorter than a number of characters. -/
def Nests (n : Nat) (t : Token) : Prop :=
  ∀ code, .code code ∈ Template.segments t.value → code.length < n

theorem nests_value (t : Token) : Nests t.value.length t := by
  intro code hcode
  rw [← String.length_toList]
  exact Template.length_code_lt hcode

theorem nests_of_stringIn {code : String} {t : Token} {quote : Quote}
    (h : Scan.StringIn code.toList t) (ht : t.kind = .string quote) : Nests code.length t := by
  intro inner hinner
  obtain ⟨c, ds, text, rest, hds, htext, hvalue⟩ := h quote ht
  rw [hvalue] at hinner
  calc
    inner.length < ds.length := Scan.length_code_lt_of_template htext hinner
    _ < (c :: ds).length := Nat.lt_succ_self _
    _ ≤ code.toList.length := hds.length_le
    _ = code.length := String.length_toList

theorem mapM_eq_ok_mono {α β ε : Type} {f g : α → Except ε β} {xs : List α} {ys : List β}
    (hfg : ∀ x ∈ xs, ∀ y, f x = .ok y → g x = .ok y) (h : xs.mapM f = .ok ys) :
    xs.mapM g = .ok ys := by
  induction xs generalizing ys with
  | nil => exact h
  | cons x xs ih =>
      rw [List.mapM_cons] at h ⊢
      cases hx : f x with
      | error fault =>
          rw [hx] at h
          cases h
      | ok y =>
          rw [hx] at h
          cases hxs : xs.mapM f with
          | error fault =>
              rw [hxs] at h
              cases h
          | ok zs =>
              rw [hxs] at h
              rw [hfg x (by simp) y hx, ih (fun x hx => hfg x (by simp [hx])) hxs]
              exact h

/-- Code is read alike by two rules that agree on the strings in it. -/
theorem wholeWith_mono {string string' : StringRule} {code file : String} {tokens : List Token}
    (htokens : tokenize code file = .ok tokens)
    (hagree : ∀ t quote, t.kind = .string quote → Nests code.length t →
      ∀ e, string t = .ok e → string' t = .ok e)
    {e : Expr} (h : wholeWith string tokens = .ok e) : wholeWith string' tokens = .ok e := by
  obtain ⟨ts, finish, rfl, hfinish, hts, hstrings⟩ := Scan.tokensFrom_eq_ok htokens
  rw [wholeWith_eq_ok_iff hts hfinish] at h ⊢
  refine h.mono fun t ht quote hquote => hagree t quote hquote ?_
  exact nests_of_stringIn (hstrings t ht) hquote

theorem templatePart_code_eq_ok_iff {t : Token} {code : String} {part : TemplatePart} :
    templatePart string t (.code code) = .ok part ↔
      ∃ tokens value, tokenize code t.position.file = .ok tokens ∧
        wholeWith string tokens = .ok value ∧ .code value = part := by
  cases htokens : tokenize code t.position.file with
  | error fault => simp [templatePart, htokens, bind, Except.bind]
  | ok tokens =>
      cases hvalue : wholeWith string tokens with
      | error fault => simp [templatePart, htokens, bind, Except.bind, hvalue]
      | ok value => simp [templatePart, htokens, bind, Except.bind, hvalue]

theorem templatePart_mono {string string' : StringRule} {t : Token} {segment : Template.Segment}
    (hagree : ∀ code, segment = .code code → ∀ u quote, u.kind = .string quote →
      Nests code.length u → ∀ e, string u = .ok e → string' u = .ok e)
    {part : TemplatePart} (h : templatePart string t segment = .ok part) :
    templatePart string' t segment = .ok part := by
  cases segment with
  | text value => exact h
  | code code =>
      obtain ⟨tokens, value, htokens, hvalue, hpart⟩ := templatePart_code_eq_ok_iff.mp h
      exact templatePart_code_eq_ok_iff.mpr
        ⟨tokens, value, htokens, wholeWith_mono htokens (hagree code rfl) hvalue, hpart⟩

/-- The tree of a string token is the same at all depths that exceed the code in it. -/
theorem stringRule_mono {n : Nat} {t : Token} (ht : Nests n t) {depth depth' : Nat}
    (hdepth : n < depth) (hdepth' : n < depth') {e : Expr} (h : stringRule depth t = .ok e) :
    stringRule depth' t = .ok e := by
  induction n using Nat.strongRecOn generalizing t depth depth' e with
  | ind n ih =>
      obtain ⟨d, rfl⟩ : ∃ d, depth = d + 1 := ⟨depth - 1, by omega⟩
      obtain ⟨d', rfl⟩ : ∃ d', depth' = d' + 1 := ⟨depth' - 1, by omega⟩
      simp only [stringRule] at h ⊢
      split at h
      next hcode =>
        rw [if_pos hcode]
        cases hparts : (Template.segments t.value).mapM (templatePart (stringRule d) t) with
        | error fault =>
            rw [hparts] at h
            cases h
        | ok parts =>
            rw [hparts] at h
            rw [mapM_eq_ok_mono (fun segment hsegment part hpart => ?_) hparts]
            · exact h
            · -- the code in the token is shorter, so what is left of both depths is enough
              refine templatePart_mono (fun code hcode u quote hquote hu e he => ?_) hpart
              subst hcode
              have hlength := ht code hsegment
              exact ih code.length hlength hu (by omega) (by omega) he
      next hcode =>
        rw [if_neg hcode]
        exact h

def stringTree (t : Token) : Except Diagnostic Expr :=
  stringRule (t.value.length + 1) t

theorem length_lt_depthOf {tokens : List Token} {t : Token} (ht : t ∈ tokens) :
    t.value.length < depthOf tokens := by
  have hfold : ∀ (tokens : List Token) (start : Nat),
      start ≤ tokens.foldl (fun depth token => max depth token.value.length) start ∧
      ∀ t ∈ tokens,
        t.value.length ≤ tokens.foldl (fun depth token => max depth token.value.length) start := by
    intro tokens
    induction tokens with
    | nil => simp
    | cons u tokens ih =>
        intro start
        obtain ⟨hstart, hmem⟩ := ih (max start u.value.length)
        rw [List.foldl_cons]
        refine ⟨by omega, ?_⟩
        intro t ht
        rcases List.mem_cons.mp ht with rfl | ht
        · omega
        · exact hmem t ht
  exact Nat.lt_succ_of_le ((hfold tokens 0).2 t ht)

theorem parseExpression_eq_ok_iff_derives (hts : ∀ t ∈ ts, t.kind ≠ .finish)
    (hfinish : finish.kind = .finish) :
    parseExpression (ts ++ [finish]) = .ok e ↔ Derives stringTree assign ts e := by
  have hdepth : ∀ t ∈ ts, t.value.length < depthOf (ts ++ [finish]) :=
    fun t ht => length_lt_depthOf (List.mem_append_left _ ht)
  rw [parseExpression, wholeWith_eq_ok_iff hts hfinish]
  constructor
  · intro h
    refine h.mono fun t ht _ _ e he => ?_
    exact stringRule_mono (nests_value t) (hdepth t ht) (Nat.lt_succ_self _) he
  · intro h
    refine h.mono fun t ht _ _ e he => ?_
    exact stringRule_mono (nests_value t) (Nat.lt_succ_self _) (hdepth t ht) he

/-- Tokens before the end are read as an expression exactly if the grammar derives it from them, and
it derives no other. -/
theorem parseExpression_iff_derives {ts : List Token} {finish : Token}
    (hts : ∀ t ∈ ts, t.kind ≠ .finish) (hfinish : finish.kind = .finish) :
    (∀ e, parseExpression (ts ++ [finish]) = .ok e ↔ Derives stringTree assign ts e) ∧
      ∀ e e', Derives stringTree assign ts e → Derives stringTree assign ts e' → e = e' := by
  have hiff : ∀ e, parseExpression (ts ++ [finish]) = .ok e ↔ Derives stringTree assign ts e :=
    fun e => parseExpression_eq_ok_iff_derives hts hfinish
  refine ⟨hiff, ?_⟩
  intro e e' h h'
  have hread := (hiff e).mpr h
  have hread' := (hiff e').mpr h'
  exact Except.ok.inj (hread.symm.trans hread')

/-- The tokens of `a.b *= -x ** [y, "z{w}",]`. -/
def memberProduct : List Token :=
  [⟨.identifier, "a", default, default⟩, ⟨.symbol .dot, ".", default, default⟩,
   ⟨.identifier, "b", default, default⟩, ⟨.symbol .starEq, "*=", default, default⟩,
   ⟨.symbol .minus, "-", default, default⟩, ⟨.identifier, "x", default, default⟩,
   ⟨.symbol .starStar, "**", default, default⟩, ⟨.symbol .lBracket, "[", default, default⟩,
   ⟨.identifier, "y", default, default⟩, ⟨.symbol .comma, ",", default, default⟩,
   ⟨.string .double, "z\x7bw\x7d", default, default⟩, ⟨.symbol .comma, ",", default, default⟩,
   ⟨.symbol .rBracket, "]", default, default⟩]

def endToken : Token :=
  ⟨.finish, "", default, default⟩

theorem memberProduct_iff_derives :
    (∀ t ∈ memberProduct, t.kind ≠ .finish) ∧ endToken.kind = .finish ∧
      Derives stringTree assign memberProduct
        (.memberSet (.var "a") "b" (.binary .mul (.member (.var "a") "b")
          (.binary .pow (.unary .neg (.var "x"))
            (.list [.var "y", .template [.text "z", .code (.var "w")]])))) := by
  have hts : ∀ t ∈ memberProduct, t.kind ≠ .finish := by decide
  have hfinish : endToken.kind = .finish := rfl
  exact ⟨hts, hfinish, ((parseExpression_iff_derives hts hfinish).1 _).mp (by rfl)⟩

end ClassScript.Parser

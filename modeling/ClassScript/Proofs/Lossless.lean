import ClassScript.Proofs.Cutting

/-!
# Nothing of the text is lost

The slices of the tokens lie in the text one behind the other, and what is left between them is
blank or a comment. All the text that matters is in the tokens: most of them are their slice, and a
decimal number is its slice up to underscores and a zero before its point.
-/

namespace ClassScript

def Span.slice (span : Span) (text : List Char) : List Char :=
  (text.take span.stop).drop span.start

theorem Span.slice_append (before taken behind : List Char) :
    Span.slice ⟨before.length, before.length + taken.length⟩ (before ++ taken ++ behind) =
      taken := by
  rw [Span.slice, ← List.length_append, List.take_left, List.drop_left]

theorem Span.slice_split {start middle stop : Nat} (hstart : start ≤ middle) (hstop : middle ≤ stop)
    (text : List Char) :
    Span.slice ⟨start, stop⟩ text =
      Span.slice ⟨start, middle⟩ text ++ Span.slice ⟨middle, stop⟩ text := by
  have hbehind :
      (text.take stop).drop middle = ((text.take stop).drop start).drop (middle - start) := by
    rw [List.drop_drop, Nat.add_sub_cancel' hstart]
  have hfront :
      (text.take middle).drop start = ((text.take stop).drop start).take (middle - start) := by
    rw [← List.drop_take, List.take_take, Nat.min_eq_left hstop]
  simp only [Span.slice]
  rw [hbehind, hfront, List.take_append_drop]

theorem Span.slice_append_drop {start stop : Nat} (h : start ≤ stop) (text : List Char) :
    Span.slice ⟨start, stop⟩ text ++ text.drop stop = text.drop start := by
  have hbehind : text.drop stop = (text.drop start).drop (stop - start) := by
    rw [List.drop_drop, Nat.add_sub_cancel' h]
  simp only [Span.slice]
  rw [hbehind, List.drop_take, List.take_append_drop]

namespace Scan

/-- The slice of a token is the text that it was taken from. -/
theorem slice_tokenAt {text before taken rest : List Char} {place : Place}
    (htext : text = before ++ taken ++ rest) (hplace : place.offset = before.length)
    (source : Source) (lexeme : Lexeme) :
    (tokenAt source place (place.advance taken) lexeme).span.slice text = taken := by
  rw [htext, tokenAt, Place.offset_advance, hplace]
  exact Span.slice_append before taken rest

/-- A text, with the text behind it, in which everything is skipped. -/
inductive Gap : List Char → List Char → Prop
  | nil {rest : List Char} : Gap [] rest
  | skip {piece gap rest : List Char} (hpiece : Skips piece (gap ++ rest)) (hgap : Gap gap rest) :
      Gap (piece ++ gap) rest

/-- Where the last of some tokens ends; `start` if there are none. -/
def endFrom (start : Nat) (tokens : List Token) : Nat :=
  (tokens.getLast?.map fun t => t.span.stop).getD start

theorem endFrom_cons (start : Nat) (t : Token) (ts : List Token) :
    endFrom start (t :: ts) = endFrom t.span.stop ts := by
  rw [endFrom, endFrom, List.getLast?_cons, Option.getD_map]
  rfl

structure Lossless (text : List Char) (tokens : List Token) : Prop where
  /-- The token for the end is the last one, and the only one of its kind. -/
  finish : ∃ ts finish, tokens = ts ++ [finish] ∧ finish.kind = .finish ∧
    finish.span = ⟨text.length, text.length⟩ ∧ ∀ t ∈ ts, t.kind ≠ .finish
  /-- Any other token has a slice of the text that is not empty. -/
  nonempty : ∀ t ∈ tokens, t.kind ≠ .finish → t.span.start < t.span.stop ∧ t.span.stop ≤ text.length
  /-- A token begins behind all the tokens before it. -/
  ordered : tokens.Pairwise fun t u => t.span.start < u.span.start ∧ t.span.stop ≤ u.span.start
  /-- What stands before a token, up to the token before it, is skipped. -/
  gaps : ∀ before t behind, tokens = before ++ t :: behind →
    Gap (Span.slice ⟨endFrom 0 before, t.span.start⟩ text) (text.drop t.span.start)
  verbatim : ∀ t ∈ tokens, isVerbatim t.kind → t.value = String.ofList (t.span.slice text)
  decimal : ∀ t ∈ tokens, t.kind = .number → baseAt? (t.span.slice text) = none →
    t.value = String.ofList (decimalText (t.span.slice text))

/-- The tokens of a text from an offset on: one token at a time with what is skipped before it. -/
inductive Covers (text : List Char) : Nat → List Token → Prop
  | finish {start : Nat} {t : Token} (hstart : start ≤ text.length) (hkind : t.kind = .finish)
      (hspan : t.span = ⟨text.length, text.length⟩) (hgap : Gap (text.drop start) []) :
      Covers text start [t]
  | token {start : Nat} {t : Token} {ts : List Token} (hstart : start ≤ t.span.start)
      (hkind : t.kind ≠ .finish) (hstop : t.span.start < t.span.stop)
      (hlength : t.span.stop ≤ text.length)
      (hgap : Gap (Span.slice ⟨start, t.span.start⟩ text) (text.drop t.span.start))
      (hspells : Spells (t.span.slice text) ⟨t.kind, t.value⟩)
      (h : Covers text t.span.stop ts) : Covers text start (t :: ts)

namespace Covers

variable {text : List Char} {start : Nat} {tokens : List Token}

theorem skip {before piece rest : List Char} (hpiece : Skips piece rest)
    (htext : text = before ++ piece ++ rest)
    (h : Covers text (before ++ piece).length tokens) : Covers text before.length tokens := by
  have hrest : text.drop (before ++ piece).length = rest := by
    rw [htext, List.drop_left]
  have hfront : Span.slice ⟨before.length, (before ++ piece).length⟩ text = piece := by
    rw [htext, List.length_append]
    exact Span.slice_append before piece rest
  have hle : before.length ≤ (before ++ piece).length := by simp
  cases h with
  | finish hstart hkind hspan hgap =>
      refine .finish (Nat.le_trans hle hstart) hkind hspan ?_
      rw [← Span.slice_append_drop hle text, hfront]
      rw [hrest] at hgap ⊢
      exact .skip (by simpa using hpiece) hgap
  | @token _ t ts hstart hkind hstop hlength hgap hspells htail =>
      refine .token (Nat.le_trans hle hstart) hkind hstop hlength ?_ hspells htail
      rw [Span.slice_split hle hstart, hfront]
      refine .skip ?_ hgap
      rw [Span.slice_append_drop hstart, hrest]
      exact hpiece

/-- The tokens that are cut from the rest of a text cover it. -/
theorem of_cut {source : Source} {mode : Mode} {place : Place} {cs : List Char}
    {result : Except Diagnostic (List Token)} (hcut : Cut source mode place cs result)
    {before : List Char} (htext : text = before ++ cs) (hplace : place.offset = before.length)
    (hresult : result = .ok tokens) : Covers text before.length tokens := by
  induction hcut generalizing before tokens with
  | @finish mode place =>
      cases hresult
      rw [List.append_nil] at htext
      subst htext
      exact .finish (Nat.le_refl _) rfl (by simp [tokenAt, hplace]) (by simpa using Gap.nil)
  | @skip mode place c body rest result hnext _ ih =>
      obtain ⟨body', hbody, hpiece⟩ := next_skipped hnext
      obtain rfl := List.append_cancel_right hbody
      rw [← List.append_assoc] at htext
      exact skip hpiece htext (ih htext (by simp [hplace]) hresult)
  | @token mode place c body rest lexeme result hnext _ ih =>
      obtain ⟨body', hbody, hspells, -⟩ := next_taken hnext
      obtain rfl := List.append_cancel_right hbody
      cases result with
      | error fault => cases hresult
      | ok ts =>
          cases hresult
          rw [← List.append_assoc] at htext
          have hrest := ih htext (by simp [hplace]) rfl
          rw [List.length_append, ← hplace] at hrest
          have hslice := slice_tokenAt htext hplace source lexeme
          rw [← hplace]
          refine .token (Nat.le_refl _) (starts_of_next hnext).kind_ne_finish ?_ ?_ ?_ ?_ ?_
          · simp [tokenAt]
          · simp [tokenAt, htext, hplace]
          · simpa [tokenAt, Span.slice] using Gap.nil
          · rw [hslice]
            exact hspells
          · simpa [tokenAt] using hrest
  | fault => cases hresult

theorem start_le (h : Covers text start tokens) : ∀ t ∈ tokens, start ≤ t.span.start := by
  induction h with
  | finish hstart _ hspan _ => simpa [hspan] using hstart
  | token hstart _ hstop _ _ _ _ ih =>
      refine List.forall_mem_cons.mpr ⟨hstart, fun u hu => ?_⟩
      have hle := ih u hu
      omega

theorem finish_last (h : Covers text start tokens) :
    ∃ ts finish, tokens = ts ++ [finish] ∧ finish.kind = .finish ∧
      finish.span = ⟨text.length, text.length⟩ ∧ ∀ t ∈ ts, t.kind ≠ .finish := by
  induction h with
  | finish _ hkind hspan _ => exact ⟨[], _, rfl, hkind, hspan, by simp⟩
  | @token _ t _ _ hkind _ _ _ _ _ ih =>
      obtain ⟨ts, finish, rfl, hfinish, hspan, hts⟩ := ih
      exact ⟨t :: ts, finish, rfl, hfinish, hspan, List.forall_mem_cons.mpr ⟨hkind, hts⟩⟩

theorem inside (h : Covers text start tokens) : ∀ t ∈ tokens, t.kind ≠ .finish →
    t.span.start < t.span.stop ∧ t.span.stop ≤ text.length ∧
      Spells (t.span.slice text) ⟨t.kind, t.value⟩ := by
  induction h with
  | finish _ hkind _ _ =>
      rw [List.forall_mem_singleton]
      exact fun hne => absurd hkind hne
  | token _ _ hstop hlength _ hspells _ ih =>
      exact List.forall_mem_cons.mpr ⟨fun _ => ⟨hstop, hlength, hspells⟩, ih⟩

theorem ordered (h : Covers text start tokens) :
    tokens.Pairwise fun t u => t.span.start < u.span.start ∧ t.span.stop ≤ u.span.start := by
  induction h with
  | finish => exact List.pairwise_singleton _ _
  | token _ _ hstop _ _ _ htail ih =>
      refine List.pairwise_cons.mpr ⟨fun u hu => ?_, ih⟩
      have hle := htail.start_le u hu
      exact ⟨by omega, hle⟩

theorem gaps (h : Covers text start tokens) (before behind : List Token) (t : Token)
    (htokens : tokens = before ++ t :: behind) :
    Gap (Span.slice ⟨endFrom start before, t.span.start⟩ text) (text.drop t.span.start) := by
  induction h generalizing before with
  | finish hstart hkind hspan hgap =>
      obtain ⟨rfl, hcons⟩ | ⟨-, hcons⟩ := List.singleton_eq_append_iff.mp htokens
      · obtain ⟨rfl, -⟩ := List.cons.inj hcons
        simpa [endFrom, hspan, Span.slice] using hgap
      · cases hcons
  | token hstart hkind hstop hlength hgap hspells htail ih =>
      cases before with
      | nil =>
          obtain ⟨rfl, rfl⟩ := List.cons.inj htokens
          exact hgap
      | cons u before =>
          obtain ⟨rfl, htail⟩ := List.cons.inj htokens
          rw [endFrom_cons]
          exact ih before htail

theorem lossless (h : Covers text 0 tokens) : Lossless text tokens where
  finish := h.finish_last
  nonempty t ht hkind := ⟨(h.inside t ht hkind).1, (h.inside t ht hkind).2.1⟩
  ordered := h.ordered
  gaps before t behind htokens := h.gaps before behind t htokens
  verbatim t ht hverbatim := by
    have hkind : t.kind ≠ .finish := by
      intro hfinish
      rw [hfinish] at hverbatim
      cases hverbatim
    exact (h.inside t ht hkind).2.2.verbatim hverbatim
  decimal t ht hnumber := by
    have hkind : t.kind ≠ .finish := by simp [hnumber]
    exact (h.inside t ht hkind).2.2.decimal hnumber

end Covers

end Scan

/-- Every text that can be tokenized is held by its tokens. -/
theorem tokenize_lossless {text file : String} {tokens : List Token}
    (h : tokenize text file = .ok tokens) : Scan.Lossless text.toList tokens := by
  have hcut := cut_tokenize text file
  exact (Scan.Covers.of_cut hcut (List.nil_append _).symm rfl h).lossless

def mixedText : String :=
  "x/* a */!in .5_0f # end\n= /r/g;0xF"

theorem mixedText_lossless : ∃ tokens, tokenize mixedText "main" = .ok tokens ∧
    tokens.map Token.value = ["x", "!in", "0.50f", "=", "/r/g", ";", "15", ""] ∧
    Scan.Lossless mixedText.toList tokens := by
  have hvalues : (tokenize mixedText "main").toOption.map (·.map Token.value) =
      some ["x", "!in", "0.50f", "=", "/r/g", ";", "15", ""] := by
    decide +kernel
  cases h : tokenize mixedText "main" with
  | error fault =>
      rw [h] at hvalues
      cases hvalues
  | ok tokens =>
      rw [h] at hvalues
      exact ⟨tokens, rfl, Option.some.inj hvalues, tokenize_lossless h⟩

end ClassScript

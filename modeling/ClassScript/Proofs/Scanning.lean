import ClassScript.Parse.Expression

/-!
# What the scanner takes

Every token comes from the front of the text that is left, and scanning goes on behind it. The token
for the end is the last one and the only one of its kind.
-/

namespace ClassScript.Scan

namespace Found

def rest {α : Type} : Found α → List Char
  | .ok (_, rest) => rest
  | .error (_, rest) => rest

@[simp]
theorem rest_prepend (cs : List Char) (found : Found (List Char)) :
    (found.prepend cs).rest = found.rest := by
  rcases found with fault | ⟨text, rest⟩ <;> rfl

@[simp]
theorem rest_lexeme (kind : Kind) (found : Found (List Char)) :
    (found.lexeme kind).rest = found.rest := by
  rcases found with fault | ⟨text, rest⟩ <;> rfl

theorem rest_map {α β : Type} (f : α → β) (found : Found α) :
    rest (found.map fun x => (f x.1, x.2)) = found.rest := by
  rcases found with fault | ⟨a, rest⟩ <;> rfl

theorem prepend_eq_ok {cs text rest : List Char} {found : Found (List Char)}
    (h : found.prepend cs = .ok (text, rest)) :
    ∃ text', found = .ok (text', rest) ∧ text = cs ++ text' := by
  rcases found with fault | ⟨text', rest'⟩
  · cases h
  · cases h
    exact ⟨text', rfl, rfl⟩

@[simp]
theorem prepend_nil (found : Found (List Char)) : prepend [] found = found := by
  rcases found with fault | ⟨text, rest⟩ <;> rfl

theorem prepend_prepend (cs ds : List Char) (found : Found (List Char)) :
    prepend cs (prepend ds found) = prepend (cs ++ ds) found := by
  rcases found with fault | ⟨text, rest⟩
  · rfl
  · simp only [prepend, List.append_assoc]

theorem lexeme_eq_ok {kind : Kind} {found : Found (List Char)} {lexeme : Lexeme}
    {rest : List Char} (h : found.lexeme kind = .ok (lexeme, rest)) :
    ∃ text, found = .ok (text, rest) ∧ lexeme = ⟨kind, String.ofList text⟩ := by
  rcases found with fault | ⟨text, rest'⟩
  · cases h
  · cases h
    exact ⟨text, rfl, rfl⟩

theorem map_eq_ok {α β : Type} {found : Found α} {f : α × List Char → β × List Char}
    {x : β × List Char} (h : found.map f = .ok x) : ∃ y, found = .ok y ∧ f y = x := by
  rcases found with fault | y
  · cases h
  · exact ⟨y, rfl, Except.ok.inj h⟩

end Found

/-! ## The text behind a token -/

theorem lineComment_suffix (cs : List Char) : lineComment cs <:+ cs :=
  List.dropWhile_suffix _

theorem blockComment_suffix {cs rest : List Char} (h : blockComment cs = some rest) :
    rest <:+ cs := by
  fun_induction blockComment cs with
  | case1 => cases h
  | case2 rest' =>
      cases h
      exact (List.suffix_cons _ _).trans (List.suffix_cons _ _)
  | case3 c cs _ ih => exact (ih h).trans (List.suffix_cons _ _)

theorem decimal_suffix (seenPoint begun : Bool) (cs : List Char) :
    (decimal seenPoint begun cs).rest <:+ cs := by
  fun_induction decimal seenPoint begun cs with
  | case1 | case7 => exact List.suffix_refl _
  | case4 | case6 => exact List.suffix_cons _ _
  | case2 seenPoint begun cs ih => exact ih.trans (List.suffix_cons _ _)
  | case3 seenPoint begun c cs _ _ ih | case5 seenPoint begun c cs _ _ _ _ ih =>
      rw [Found.rest_prepend]
      exact ih.trans (List.suffix_cons _ _)

theorem baseDigits_suffix (base : Nat) (cs : List Char) : (baseDigits base cs).rest <:+ cs := by
  fun_induction baseDigits base cs with
  | case1 | case5 => exact List.suffix_refl _
  | case4 => exact List.suffix_cons _ _
  | case2 cs ih => exact ih.trans (List.suffix_cons _ _)
  | case3 c cs _ _ ih =>
      rw [Found.rest_prepend]
      exact ih.trans (List.suffix_cons _ _)

theorem baseNumber_suffix (base : Nat) (cs : List Char) : (baseNumber base cs).rest <:+ cs := by
  have hdigits := baseDigits_suffix base cs
  unfold baseNumber
  cases hfound : baseDigits base cs with
  | error fault =>
      rw [hfound] at hdigits
      exact hdigits
  | ok found =>
      rw [hfound] at hdigits
      obtain ⟨digits, rest⟩ := found
      simp only
      split
      · exact hdigits
      · split <;> exact hdigits

theorem number_suffix (cs : List Char) : (number cs).rest <:+ cs := by
  have hdecimal : ((decimal false false cs).lexeme .number).rest <:+ cs := by
    rw [Found.rest_lexeme]
    exact decimal_suffix false false cs
  unfold number
  split
  · next mark digits =>
      cases hbase : baseOf? mark with
      | none => exact hdecimal
      | some base =>
          have hdigits := baseNumber_suffix base digits
          exact (hdigits.trans (List.suffix_cons _ _)).trans (List.suffix_cons _ _)
  · exact hdecimal

theorem regexBody_suffix (cs : List Char) : (regexBody cs).rest <:+ cs := by
  fun_induction regexBody cs with
  | case1 => exact List.suffix_refl _
  | case2 | case4 | case5 => exact List.suffix_cons _ _
  | case3 c cs ih =>
      rw [Found.rest_prepend]
      exact (ih.trans (List.suffix_cons _ _)).trans (List.suffix_cons _ _)
  | case6 c cs _ _ _ _ ih =>
      rw [Found.rest_prepend]
      exact ih.trans (List.suffix_cons _ _)

theorem regex_suffix (cs : List Char) : (regex cs).rest <:+ cs := by
  have hbody := regexBody_suffix cs
  unfold regex
  cases hfound : regexBody cs with
  | error fault =>
      rw [hfound] at hbody
      exact hbody
  | ok found =>
      rw [hfound] at hbody
      exact (List.dropWhile_suffix _).trans hbody

theorem template_suffix (quote : Quote) (depth : Nat) (cs : List Char) :
    (template quote depth cs).rest <:+ cs := by
  fun_induction template quote depth cs with
  | case1 | case3 => exact List.suffix_refl _
  | case4 | case12 | case13 | case10 => exact List.suffix_cons _ _
  | case2 depth c cs inner =>
      rename_i ih
      rw [Found.rest_prepend]
      exact ih.trans (List.suffix_cons _ _)
  | case5 e cs _ ih | case9 cs _ ih | case14 c cs _ _ _ _ _ _ _ ih =>
      rw [Found.rest_prepend]
      exact ih.trans (List.suffix_cons _ _)
  | case6 e cs _ ih | case7 cs _ ih | case8 cs _ ih | case11 cs _ ih =>
      rw [Found.rest_prepend]
      exact (ih.trans (List.suffix_cons _ _)).trans (List.suffix_cons _ _)

/-! ## What the scanners find -/

theorem baseNumber_eq_ok {base : Nat} {cs rest : List Char} {lexeme : Lexeme}
    (h : baseNumber base cs = .ok (lexeme, rest)) :
    ∃ digits, baseDigits base cs = .ok (digits, rest) ∧ lexeme.kind = .number := by
  unfold baseNumber at h
  cases hdigits : baseDigits base cs with
  | error fault =>
      rw [hdigits] at h
      cases h
  | ok found =>
      obtain ⟨digits, rest'⟩ := found
      simp only [hdigits] at h
      split at h
      · cases h
      · split at h
        · cases h
        · cases h
          exact ⟨digits, rfl, rfl⟩

def baseAt? : List Char → Option Nat
  | '0' :: mark :: _ => baseOf? mark
  | _ => none

theorem number_of_base {base : Nat} {cs : List Char} (h : baseAt? cs = some base) :
    number cs = baseNumber base (cs.drop 2) := by
  unfold baseAt? at h
  split at h
  · simp only [number, h, List.drop_succ_cons, List.drop_zero]
  · cases h

theorem number_of_decimal {cs : List Char} (h : baseAt? cs = none) :
    number cs = (decimal false false cs).lexeme .number := by
  unfold number
  split
  · next mark rest =>
      have hmark : baseOf? mark = none := h
      rw [hmark]
  · rfl

theorem number_kind {cs rest : List Char} {lexeme : Lexeme}
    (h : number cs = .ok (lexeme, rest)) : lexeme.kind = .number := by
  cases hbase : baseAt? cs with
  | some base =>
      rw [number_of_base hbase] at h
      obtain ⟨digits, -, hkind⟩ := baseNumber_eq_ok h
      exact hkind
  | none =>
      rw [number_of_decimal hbase] at h
      obtain ⟨text, -, rfl⟩ := Found.lexeme_eq_ok h
      rfl

theorem name_kind (cs : List Char) :
    (name cs).1.kind = .identifier ∨ ∃ word, (name cs).1.kind = .keyword word := by
  simp only [name]
  cases Keyword.ofText? (String.ofList (cs.takeWhile isNamePart)) with
  | none => exact Or.inl rfl
  | some word => exact Or.inr ⟨word, rfl⟩

theorem regex_eq_ok {cs rest : List Char} {lexeme : Lexeme} (h : regex cs = .ok (lexeme, rest)) :
    ∃ body behind, regexBody cs = .ok (body, behind) ∧ rest = behind.dropWhile Char.isAlpha ∧
      lexeme = ⟨.regex, String.ofList ('/' :: body ++ behind.takeWhile Char.isAlpha)⟩ := by
  unfold regex at h
  cases hbody : regexBody cs with
  | error fault =>
      rw [hbody] at h
      cases h
  | ok found =>
      obtain ⟨body, behind⟩ := found
      rw [hbody] at h
      cases h
      exact ⟨body, behind, rfl, rfl, rfl⟩

theorem symbolOf?_eq_some_iff {mode : Mode} {cs rest : List Char} {n : Nat} {lexeme : Lexeme} :
    symbolOf? mode cs n = some (lexeme, rest) ↔
      ∃ sign, Symbol.ofText? (String.ofList (cs.take n)) = some sign ∧
        (sign.isWordy = true → mode ≠ .value ∧ (cs.drop n).head?.any isNamePart = false) ∧
        lexeme = ⟨.symbol sign, String.ofList (cs.take n)⟩ ∧ rest = cs.drop n := by
  simp only [symbolOf?]
  cases Symbol.ofText? (String.ofList (cs.take n)) with
  | none => simp
  | some sign =>
      dsimp only
      constructor
      · intro h
        split at h
        · cases h
        · next hfree =>
            cases h
            exact ⟨sign, rfl, fun hwordy => by simpa [hwordy] using hfree, rfl, rfl⟩
      · rintro ⟨sign', hsign, hfree, rfl, rfl⟩
        cases hsign
        rw [if_neg]
        intro hbarred
        obtain ⟨hwordy, hbarred⟩ := Bool.and_eq_true_iff.mp hbarred
        obtain ⟨hmode, hnext⟩ := hfree hwordy
        rw [hnext] at hbarred
        simp [hmode] at hbarred

theorem symbol?_eq_some {mode : Mode} {cs rest : List Char} {lexeme : Lexeme}
    (h : symbol? mode cs = some (lexeme, rest)) :
    ∃ n < Symbol.longest, symbolOf? mode cs (n + 1) = some (lexeme, rest) := by
  obtain ⟨n, hn, hfound⟩ := List.exists_of_findSome?_eq_some h
  exact ⟨n, by simpa using hn, hfound⟩

theorem template_open {quote : Quote} {cs : List Char} (h : ∀ rest, cs ≠ '{' :: rest) :
    template quote 0 ('{' :: cs) = Found.prepend ['{'] (template quote 1 cs) := by
  rw [template]
  exact h

theorem template_quote {quote : Quote} (rest : List Char) :
    template quote 0 (quote.char :: rest) = .ok ([], rest) := by
  cases quote <;> rfl

theorem ofChar?_eq_some {c : Char} {quote : Quote} (h : Quote.ofChar? c = some quote) :
    c = quote.char := by
  have hfound := List.find?_some h
  exact (of_decide_eq_true hfound).symm

/-! ## The first thing in a text -/

/-- A lexeme that was found, as the first thing in a text. -/
def Found.token (found : Found Lexeme) : Found (Option Lexeme) :=
  found.map fun x => (some x.1, x.2)

theorem Found.token_eq_ok {found : Found Lexeme} {first : Option Lexeme} {rest : List Char}
    (h : found.token = .ok (first, rest)) : ∃ lexeme, found = .ok (lexeme, rest) ∧
      first = some lexeme := by
  obtain ⟨⟨lexeme, rest'⟩, hfound, heq⟩ := map_eq_ok h
  cases heq
  exact ⟨lexeme, hfound, rfl⟩

abbrev StartsNumber (mode : Mode) (c : Char) (cs : List Char) : Prop :=
  c.isDigit ∨ (c = '.' ∧ mode = .value ∧ cs.head?.any Char.isDigit)

/-- Whether a character begins a sign, if it begins anything. -/
structure StartsSign (mode : Mode) (c : Char) (cs : List Char) : Prop where
  not_blank : ¬ Text.isBlank c
  ne_hash : c ≠ '#'
  not_number : ¬ StartsNumber mode c cs
  not_name : ¬ isNameStart c
  not_regex : ¬ (c = '/' ∧ mode = .value)
  not_comment : ¬ (c = '/' ∧ cs.head? = some '*')
  not_quote : Quote.ofChar? c = none

/-- What comes first in a text, by its first characters and the mode. -/
inductive First (mode : Mode) (c : Char) (cs : List Char) : Found (Option Lexeme) → Prop
  | blank (hc : Text.isBlank c) : First mode c cs (.ok (none, cs))
  | line (hc : c = '#') : First mode c cs (.ok (none, lineComment cs))
  | number (hc : StartsNumber mode c cs) (hblank : ¬ Text.isBlank c) :
      First mode c cs (number (c :: cs)).token
  | name (hc : isNameStart c) (hblank : ¬ Text.isBlank c) (hdigit : ¬ c.isDigit) :
      First mode c cs (.ok (some (name (c :: cs)).1, (name (c :: cs)).2))
  | regex (hc : c = '/') (hmode : mode = .value) : First mode c cs (regex cs).token
  | comment (hc : c = '/') (hmode : mode ≠ .value) (hcs : cs.head? = some '*') {rest : List Char}
      (hclosed : blockComment cs.tail = some rest) : First mode c cs (.ok (none, rest))
  | openComment (hc : c = '/') (hmode : mode ≠ .value) (hcs : cs.head? = some '*')
      (hopen : blockComment cs.tail = none) :
      First mode c cs (.error (.unterminatedComment, []))
  | string {quote : Quote} (hc : Quote.ofChar? c = some quote) :
      First mode c cs ((template quote 0 cs).lexeme (.string quote)).token
  | symbol (hc : StartsSign mode c cs) {lexeme : Lexeme} {rest : List Char}
      (hsign : symbol? mode (c :: cs) = some (lexeme, rest)) :
      First mode c cs (.ok (some lexeme, rest))
  | unexpected (hc : StartsSign mode c cs) (hsign : symbol? mode (c :: cs) = none) :
      First mode c cs (.error (.unexpectedChar c, cs))

theorem first_next (mode : Mode) (c : Char) (cs : List Char) :
    First mode c cs (next mode c cs) := by
  unfold next
  split
  · next hblank => exact .blank hblank
  split
  · next hhash => exact .line hhash
  split
  · next hblank _ hnumber => exact .number hnumber hblank
  split
  · next hblank _ hnumber hname => exact .name hname hblank fun hdigit => hnumber (Or.inl hdigit)
  split
  · next hregex => exact .regex hregex.1 hregex.2
  split
  · next hregex hcomment =>
      have hmode : mode ≠ .value := fun hmode => hregex ⟨hcomment.1, hmode⟩
      cases hclosed : blockComment cs.tail with
      | none => exact .openComment hcomment.1 hmode hcomment.2 hclosed
      | some rest => exact .comment hcomment.1 hmode hcomment.2 hclosed
  next hblank hhash hnumber hname hregex hcomment =>
    cases hquote : Quote.ofChar? c with
    | some quote => exact .string hquote
    | none =>
        have hsign : StartsSign mode c cs :=
          ⟨hblank, hhash, hnumber, hname, hregex, hcomment, hquote⟩
        cases hsymbol : symbol? mode (c :: cs) with
        | none => exact .unexpected hsign hsymbol
        | some found => exact .symbol hsign hsymbol

theorem First.next_eq {mode : Mode} {c : Char} {cs : List Char} {found : Found (Option Lexeme)}
    (h : First mode c cs found) : next mode c cs = found := by
  cases h with
  | blank hc => rw [next, if_pos hc]
  | line hc =>
      subst hc
      rfl
  | number hc hblank =>
      have hhash : c ≠ '#' := by
        rintro rfl
        rcases hc with hdigit | ⟨hpoint, -⟩
        · cases hdigit
        · cases hpoint
      rw [next, if_neg hblank, if_neg hhash, if_pos hc]
      rfl
  | name hc hblank hdigit =>
      have hhash : c ≠ '#' := by
        rintro rfl
        cases hc
      have hnumber : ¬ StartsNumber mode c cs := by
        rintro (hnumber | ⟨rfl, -⟩)
        · exact hdigit hnumber
        · cases hc
      rw [next, if_neg hblank, if_neg hhash, if_neg hnumber, if_pos hc]
      rfl
  | regex hc hmode =>
      subst hc hmode
      rfl
  | comment hc hmode hcs hclosed =>
      subst hc
      cases mode with
      | value => exact absurd rfl hmode
      | operator =>
          rw [next, if_neg (by decide), if_neg (by decide), if_neg (by simp), if_neg (by decide),
            if_neg (by simp), if_pos ⟨rfl, hcs⟩, hclosed]
  | openComment hc hmode hcs hopen =>
      subst hc
      cases mode with
      | value => exact absurd rfl hmode
      | operator =>
          rw [next, if_neg (by decide), if_neg (by decide), if_neg (by simp), if_neg (by decide),
            if_neg (by simp), if_pos ⟨rfl, hcs⟩, hopen]
  | @string quote hc =>
      obtain rfl := ofChar?_eq_some hc
      cases quote <;> rfl
  | symbol hc hsign =>
      rw [next, if_neg hc.not_blank, if_neg hc.ne_hash, if_neg hc.not_number, if_neg hc.not_name,
        if_neg hc.not_regex, if_neg hc.not_comment, hc.not_quote, hsign]
      rfl
  | unexpected hc hsign =>
      rw [next, if_neg hc.not_blank, if_neg hc.ne_hash, if_neg hc.not_number, if_neg hc.not_name,
        if_neg hc.not_regex, if_neg hc.not_comment, hc.not_quote, hsign]

theorem next_suffix (mode : Mode) (c : Char) (cs : List Char) :
    (next mode c cs).rest <:+ c :: cs := by
  have hinside : ∀ {rest : List Char}, rest <:+ cs → rest <:+ c :: cs := fun h =>
    h.trans (List.suffix_cons _ _)
  have hfirst := first_next mode c cs
  generalize next mode c cs = found at hfirst
  cases hfirst with
  | blank hc => exact List.suffix_cons _ _
  | line hc => exact hinside (lineComment_suffix cs)
  | number hc hblank =>
      rw [Found.token, Found.rest_map]
      exact number_suffix (c :: cs)
  | name hc hblank hdigit => exact List.dropWhile_suffix _
  | regex hc hmode =>
      rw [Found.token, Found.rest_map]
      exact hinside (regex_suffix cs)
  | comment hc hmode hcs hclosed =>
      exact hinside ((blockComment_suffix hclosed).trans (List.tail_suffix _))
  | openComment hc hmode hcs hopen => exact List.nil_suffix
  | string hc =>
      rw [Found.token, Found.rest_map, Found.rest_lexeme]
      exact hinside (template_suffix _ 0 cs)
  | symbol hc hsign =>
      obtain ⟨n, -, hn⟩ := symbol?_eq_some hsign
      obtain ⟨sign, -, -, -, rfl⟩ := symbolOf?_eq_some_iff.mp hn
      exact List.drop_suffix _ _
  | unexpected hc hsign => exact List.suffix_cons _ _

/-! ## Tokens -/

/-- What is known about the first token in a text: it is never the end, and a string is the template
behind its opening mark. -/
structure Starts (cs : List Char) (lexeme : Lexeme) (rest : List Char) : Prop where
  kind_ne_finish : lexeme.kind ≠ .finish
  string : ∀ quote, lexeme.kind = .string quote →
    ∃ text, template quote 0 cs = .ok (text, rest) ∧ lexeme.value = String.ofList text

theorem Starts.of_kind {cs rest : List Char} {lexeme : Lexeme} (hkind : lexeme.kind ≠ .finish)
    (hstring : ∀ quote, lexeme.kind ≠ .string quote) : Starts cs lexeme rest :=
  ⟨hkind, fun quote h => absurd h (hstring quote)⟩

theorem starts_of_next {mode : Mode} {c : Char} {cs rest : List Char} {lexeme : Lexeme}
    (h : next mode c cs = .ok (some lexeme, rest)) : Starts cs lexeme rest := by
  have hfirst := first_next mode c cs
  rw [h] at hfirst
  generalize hfound : (.ok (some lexeme, rest) : Found (Option Lexeme)) = found at hfirst
  cases hfirst with
  | blank _ | line _ | comment _ _ _ _ | openComment _ _ _ _ | unexpected _ _ => cases hfound
  | number hc hblank =>
      obtain ⟨lexeme', hscan, heq⟩ := Found.token_eq_ok hfound.symm
      cases heq
      have hkind := number_kind hscan
      exact .of_kind (by simp [hkind]) (by simp [hkind])
  | name hc hblank hdigit =>
      cases hfound
      rcases name_kind (c :: cs) with hkind | ⟨word, hkind⟩
      · exact .of_kind (by simp [hkind]) (by simp [hkind])
      · exact .of_kind (by simp [hkind]) (by simp [hkind])
  | regex hc hmode =>
      obtain ⟨lexeme', hscan, heq⟩ := Found.token_eq_ok hfound.symm
      cases heq
      obtain ⟨body, behind, -, -, rfl⟩ := regex_eq_ok hscan
      exact .of_kind (by simp) (by simp)
  | string hc =>
      obtain ⟨lexeme', hscan, heq⟩ := Found.token_eq_ok hfound.symm
      cases heq
      obtain ⟨text, htext, rfl⟩ := Found.lexeme_eq_ok hscan
      refine ⟨by simp, fun quote' hkind => ?_⟩
      cases hkind
      exact ⟨text, htext, rfl⟩
  | symbol hc hsign =>
      cases hfound
      obtain ⟨n, -, hn⟩ := symbol?_eq_some hsign
      obtain ⟨sign, -, -, rfl, -⟩ := symbolOf?_eq_some_iff.mp hn
      exact .of_kind (by simp) (by simp)

/-- A string token is the template of some string in the text. -/
def StringIn (cs : List Char) (t : Token) : Prop :=
  ∀ quote, t.kind = .string quote → ∃ c ds text rest, c :: ds <:+ cs ∧
    template quote 0 ds = .ok (text, rest) ∧ t.value = String.ofList text

theorem StringIn.of_suffix {cs ds : List Char} {t : Token} (h : StringIn ds t) (hds : ds <:+ cs) :
    StringIn cs t := by
  intro quote hkind
  obtain ⟨c, es, text, rest, hes, htext, hvalue⟩ := h quote hkind
  exact ⟨c, es, text, rest, hes.trans hds, htext, hvalue⟩

/-- The tokens of a text end with the one token for the end. -/
theorem tokensFrom_eq_ok {source : Source} {bound : Nat} {mode : Mode} {place : Place}
    {cs : List Char} {tokens : List Token}
    (h : tokensFrom source bound mode place cs = .ok tokens) :
    ∃ ts finish, tokens = ts ++ [finish] ∧ finish.kind = .finish ∧
      (∀ t ∈ ts, t.kind ≠ .finish) ∧ ∀ t ∈ ts, StringIn cs t := by
  fun_induction tokensFrom source bound mode place cs generalizing tokens with
  | case1 bound mode place =>
      cases h
      exact ⟨[], _, rfl, rfl, by simp, by simp⟩
  | case2 mode place cs =>
      cases h
      exact ⟨[], _, rfl, rfl, by simp, by simp⟩
  | case3 => cases h
  | case4 bound mode place c cs rest hnext ih =>
      have hrest := next_suffix mode c cs
      rw [hnext] at hrest
      obtain ⟨ts, finish, htokens, hfinish, hts, hstrings⟩ := ih h
      exact ⟨ts, finish, htokens, hfinish, hts, fun t ht => (hstrings t ht).of_suffix hrest⟩
  | case5 bound mode place c cs lexeme rest hnext stop =>
      rename_i ih
      have hrest := next_suffix mode c cs
      rw [hnext] at hrest
      have hlexeme := starts_of_next hnext
      cases hothers : tokensFrom source bound (Mode.after lexeme.kind) stop rest with
      | error fault =>
          rw [hothers] at h
          cases h
      | ok others =>
          rw [hothers] at h
          cases h
          obtain ⟨ts, finish, rfl, hfinish, hts, hstrings⟩ := ih hothers
          refine ⟨tokenAt source place stop lexeme :: ts, finish, rfl, hfinish, ?_, ?_⟩
          · simp only [List.forall_mem_cons]
            exact ⟨hlexeme.kind_ne_finish, hts⟩
          · simp only [List.forall_mem_cons]
            refine ⟨?_, fun t ht => (hstrings t ht).of_suffix hrest⟩
            intro quote hkind
            obtain ⟨text, htext, hvalue⟩ := hlexeme.string quote hkind
            exact ⟨c, cs, text, rest, List.suffix_refl _, htext, hvalue⟩

end ClassScript.Scan

import ClassScript.Proofs.Scanning

/-!
# What a token is cut from

A scanner takes a piece from the front of the text and makes something of it. The piece by itself
is enough: with nothing or a blank behind it the scanner makes the same of it. So a token does not
depend on the layout around it, and what is skipped between two tokens is blank or a comment.
-/

namespace ClassScript.Scan

/-- Nothing comes, or a blank before anything else. -/
def Apart (after : List Char) : Prop :=
  ∀ c, after.head? = some c → c = ' '

/-- A scanner takes the text `taken` and makes `a` of it, whatever stands apart behind it. -/
def Alone {α : Type} (scan : List Char → Found α) (taken : List Char) (a : α) : Prop :=
  ∀ after, Apart after → scan (taken ++ after) = .ok (a, after)

theorem Apart.nil : Apart [] := by
  simp [Apart]

theorem Apart.cons (after : List Char) : Apart (' ' :: after) := by
  simp [Apart]

theorem Apart.cases {after : List Char} (h : Apart after) :
    after = [] ∨ ∃ rest, after = ' ' :: rest := by
  cases after with
  | nil => exact Or.inl rfl
  | cons c rest => exact Or.inr ⟨rest, by rw [h c rfl]⟩

theorem Apart.head?_append {body rest after : List Char} (h : Apart after) {c : Char}
    (hc : (body ++ after).head? = some c) : c = ' ' ∨ (body ++ rest).head? = some c := by
  cases body with
  | nil => exact Or.inl (h c hc)
  | cons d body => exact Or.inr hc

/-! ## Strings, names and regexes -/

theorem regexBody_taken {cs text rest : List Char} (h : regexBody cs = .ok (text, rest)) :
    cs = text ++ rest ∧ ∀ after, regexBody (text ++ after) = .ok (text, after) := by
  fun_induction regexBody cs generalizing text with
  | case1 => cases h
  | case2 => cases h
  | case3 c cs ih =>
      obtain ⟨text, htext, rfl⟩ := Found.prepend_eq_ok h
      obtain ⟨rfl, hagain⟩ := ih htext
      refine ⟨rfl, fun after => ?_⟩
      rw [List.append_assoc]
      change regexBody ('\\' :: c :: (text ++ after)) = _
      rw [regexBody, hagain]
      rfl
  | case4 => cases h
  | case5 cs _ _ =>
      cases h
      exact ⟨rfl, fun after => by simp [regexBody]⟩
  | case6 c cs hslash hescape hline hclose ih =>
      obtain ⟨text, htext, rfl⟩ := Found.prepend_eq_ok h
      obtain ⟨rfl, hagain⟩ := ih htext
      refine ⟨rfl, fun after => ?_⟩
      rw [List.append_assoc]
      have hc : c ≠ '\\' := by
        rintro rfl
        cases hcs : text ++ rest with
        | nil => exact hslash rfl hcs
        | cons d ds => exact hescape d ds rfl hcs
      change regexBody (c :: (text ++ after)) = _
      rw [regexBody, if_neg hline, if_neg hclose, hagain]
      · rfl
      · intro h
        exact absurd h hc
      · intro d ds h
        exact absurd h hc

/-- A scanner takes something from a text and makes `text` of it, whatever stands behind. -/
def Takes (scan : List Char → Found (List Char)) (cs text rest : List Char) : Prop :=
  ∃ taken, cs = taken ++ rest ∧ taken ≠ [] ∧ ∀ after, scan (taken ++ after) = .ok (text, after)

/-- A scanner that goes on as another one, which takes the character that comes next. -/
theorem Takes.prepend {scan scan' : List Char → Found (List Char)}
    {before cs text rest : List Char} (h : Takes scan' cs text rest) (head : List Char)
    (hstep : ∀ ds, ds.head? = cs.head? → scan (head ++ ds) = Found.prepend before (scan' ds)) :
    Takes scan (head ++ cs) (before ++ text) rest := by
  obtain ⟨taken, rfl, hne, hagain⟩ := h
  obtain ⟨c, taken, rfl⟩ := List.exists_cons_of_ne_nil hne
  refine ⟨head ++ c :: taken, by simp, by simp, fun after => ?_⟩
  have hstep' := hstep (c :: taken ++ after) rfl
  rw [List.append_assoc, hstep', hagain]
  rfl

theorem template_taken {quote : Quote} {depth : Nat} {cs text rest : List Char}
    (h : template quote depth cs = .ok (text, rest)) :
    Takes (template quote depth) cs text rest := by
  fun_induction template quote depth cs generalizing text with
  | case1 | case3 | case4 | case10 | case12 => cases h
  | case13 cs =>
      cases h
      exact ⟨[quote.char], rfl, by simp, template_quote⟩
  | case2 depth c cs inner =>
      rename_i ih
      obtain ⟨text, htext, rfl⟩ := Found.prepend_eq_ok h
      exact (ih htext).prepend [c] fun ds _ => by rw [List.singleton_append, template]
  | case5 e cs hquote ih =>
      obtain ⟨text, htext, rfl⟩ := Found.prepend_eq_ok h
      refine (ih htext).prepend ['\\'] fun ds hds => ?_
      obtain ⟨ds, rfl⟩ : ∃ es, ds = e :: es := List.head?_eq_some_iff.mp hds
      rw [List.singleton_append, template, if_pos hquote]
  | case6 e cs hquote ih =>
      obtain ⟨text, htext, rfl⟩ := Found.prepend_eq_ok h
      exact (ih htext).prepend ['\\', e] fun ds _ => by
        change template quote 0 ('\\' :: e :: ds) = _
        rw [template, if_neg hquote]
  | case7 cs hquote ih =>
      obtain ⟨text, htext, rfl⟩ := Found.prepend_eq_ok h
      exact (ih htext).prepend ['{', '{'] fun ds _ => by
        change template quote 0 ('{' :: '{' :: ds) = _
        rw [template, if_pos hquote]
  | case8 cs hquote ih =>
      obtain ⟨text, htext, rfl⟩ := Found.prepend_eq_ok h
      exact (ih htext).prepend ['{', '{'] fun ds _ => by
        change template quote 0 ('{' :: '{' :: ds) = _
        rw [template, if_neg hquote]
  | case9 cs hnext ih =>
      obtain ⟨text, htext, rfl⟩ := Found.prepend_eq_ok h
      refine (ih htext).prepend ['{'] fun ds hds => template_open fun es hes => ?_
      have hes : ds = '{' :: es := hes
      rw [hes] at hds
      obtain ⟨fs, hfs⟩ := List.head?_eq_some_iff.mp hds.symm
      exact hnext fs hfs
  | case11 cs hquote ih =>
      obtain ⟨text, htext, rfl⟩ := Found.prepend_eq_ok h
      exact (ih htext).prepend ['}', '}'] fun ds _ => by
        change template quote 0 ('}' :: '}' :: ds) = _
        rw [template, if_neg hquote]
  | case14 c cs hslash hescape hopen₂ hopen hclose₂ hclose hquote ih =>
      obtain ⟨text, htext, rfl⟩ := Found.prepend_eq_ok h
      have hc : c ≠ '\\' := by
        rintro rfl
        cases cs with
        | nil => exact hslash rfl rfl
        | cons d ds => exact hescape d ds rfl rfl
      refine (ih htext).prepend [c] fun ds _ => ?_
      rw [List.singleton_append, template, if_neg hquote] <;> simp_all

theorem isNamePart_of_isNameStart {c : Char} (h : isNameStart c) : isNamePart c := by
  simp only [isNameStart, isNamePart, Char.isAlphanum, Bool.or_eq_true] at h ⊢
  rcases h with (h | h) | h
  · exact Or.inl (Or.inl (Or.inl h))
  · exact Or.inl (Or.inr h)
  · exact Or.inr h

theorem Apart.takeWhile_append {p : Char → Bool} (hp : p ' ' = false) {taken after : List Char}
    (htaken : ∀ c ∈ taken, p c) (h : Apart after) : (taken ++ after).takeWhile p = taken := by
  rw [List.takeWhile_append_of_pos htaken]
  rcases h.cases with rfl | ⟨rest, rfl⟩
  · simp
  · simp [hp]

theorem Apart.dropWhile_append {p : Char → Bool} (hp : p ' ' = false) {taken after : List Char}
    (htaken : ∀ c ∈ taken, p c) (h : Apart after) : (taken ++ after).dropWhile p = after := by
  rw [List.dropWhile_append_of_pos htaken]
  rcases h.cases with rfl | ⟨rest, rfl⟩
  · rfl
  · simp [hp]

theorem name_alone (cs : List Char) {after : List Char} (hafter : Apart after) :
    name (cs.takeWhile isNamePart ++ after) = ((name cs).1, after) := by
  have htaken : ∀ c ∈ cs.takeWhile isNamePart, isNamePart c :=
    List.all_eq_true.mp List.all_takeWhile
  simp only [name, hafter.takeWhile_append (by decide) htaken,
    hafter.dropWhile_append (by decide) htaken]

theorem regex_taken {cs rest : List Char} {lexeme : Lexeme} (h : regex cs = .ok (lexeme, rest)) :
    ∃ taken, cs = taken ++ rest ∧ lexeme = ⟨.regex, String.ofList ('/' :: taken)⟩ ∧
      Alone regex taken lexeme := by
  obtain ⟨body, behind, hbody, rfl, rfl⟩ := regex_eq_ok h
  obtain ⟨rfl, hagain⟩ := regexBody_taken hbody
  refine ⟨body ++ behind.takeWhile Char.isAlpha, ?_, rfl, fun after hafter => ?_⟩
  · rw [List.append_assoc, List.takeWhile_append_dropWhile]
  · have hflags : ∀ c ∈ behind.takeWhile Char.isAlpha, c.isAlpha :=
      List.all_eq_true.mp List.all_takeWhile
    simp only [regex, List.append_assoc, hagain, hafter.takeWhile_append (by decide) hflags,
      hafter.dropWhile_append (by decide) hflags]

/-! ## Numbers -/

def Numeral (cs : List Char) : Prop :=
  cs.head?.any Char.isDigit ∨ cs.head? = some '.' ∧ cs.tail.head?.any Char.isDigit

def digitsOf (taken : List Char) : List Char :=
  taken.filter (· ≠ '_')

/-- A number that begins with its point gets a zero. -/
def pointed (begun : Bool) (digits : List Char) : List Char :=
  if begun = false ∧ digits.head? = some '.' then '0' :: digits else digits

@[simp]
theorem digitsOf_nil : digitsOf [] = [] :=
  rfl

theorem digitsOf_cons {c : Char} (hc : c ≠ '_') (taken : List Char) :
    digitsOf (c :: taken) = c :: digitsOf taken := by
  simp [digitsOf, hc]

theorem decimal_taken {seenPoint begun : Bool} {cs text rest : List Char}
    (h : decimal seenPoint begun cs = .ok (text, rest)) :
    ∃ taken, cs = taken ++ rest ∧ text = pointed begun (digitsOf taken) ∧
      (Numeral cs → taken ≠ []) ∧ Alone (decimal seenPoint begun) taken text := by
  have hstop : ∀ seenPoint begun, Alone (decimal seenPoint begun) [] [] := by
    intro seenPoint begun after hafter
    rcases hafter.cases with rfl | ⟨rest, rfl⟩
    · rfl
    · simp [decimal]
  fun_induction decimal seenPoint begun cs generalizing text with
  | case1 seenPoint begun =>
      cases h
      exact ⟨[], rfl, by simp [pointed, digitsOf], by simp [Numeral], hstop _ _⟩
  | case2 seenPoint begun cs ih =>
      obtain ⟨taken, rfl, htext, -, halone⟩ := ih h
      refine ⟨'_' :: taken, rfl, by simpa [digitsOf] using htext, by simp, fun after hafter => ?_⟩
      rw [List.cons_append, decimal, if_pos rfl, halone after hafter]
  | case3 seenPoint begun c cs hc hdigit ih =>
      obtain ⟨text', htext', rfl⟩ := Found.prepend_eq_ok h
      obtain ⟨taken, rfl, rfl, -, halone⟩ := ih htext'
      have hpoint : c ≠ '.' := by
        rintro rfl
        cases hdigit
      refine ⟨c :: taken, rfl, ?_, by simp, fun after hafter => ?_⟩
      · simp [pointed, digitsOf_cons hc, hpoint]
      · rw [List.cons_append, decimal, if_neg hc, if_pos hdigit, halone after hafter]
        rfl
  | case4 => cases h
  | case5 seenPoint begun c cs hc hdigit hpoint hseen ih =>
      obtain ⟨text', htext', rfl⟩ := Found.prepend_eq_ok h
      obtain ⟨taken, rfl, rfl, hne, halone⟩ := ih htext'
      obtain ⟨rfl, hnext⟩ := hpoint
      have htaken : taken ≠ [] := hne (Or.inl hnext)
      refine ⟨'.' :: taken, rfl, ?_, by simp, fun after hafter => ?_⟩
      · cases begun <;> simp [pointed, digitsOf_cons hc]
      · -- the digit behind the point was taken, so it is still there
        obtain ⟨d, taken, rfl⟩ := List.exists_cons_of_ne_nil htaken
        have hnext' : (d :: taken ++ after).head?.any Char.isDigit := hnext
        rw [List.cons_append, decimal, if_neg hc, if_neg hdigit, if_pos ⟨rfl, hnext'⟩, if_neg hseen,
          halone after hafter]
        rfl
  | case6 seenPoint begun c cs hc hdigit hpoint hsuffix =>
      cases h
      have hc' : c ≠ '.' := by
        rintro rfl
        simp at hsuffix
      refine ⟨[c], rfl, by simp [pointed, digitsOf_cons hc, hc'], by simp, fun after hafter => ?_⟩
      have hpoint' : ¬ (c = '.' ∧ after.head?.any Char.isDigit) := fun hpoint => hc' hpoint.1
      rw [List.singleton_append, decimal, if_neg hc, if_neg hdigit, if_neg hpoint', if_pos hsuffix]
  | case7 seenPoint begun c cs hc hdigit hpoint hsuffix =>
      cases h
      refine ⟨[], rfl, by simp [pointed, digitsOf], fun hnumeral => ?_, hstop _ _⟩
      rcases hnumeral with hnumeral | ⟨hnumeral, hnext⟩
      · exact absurd (by simpa using hnumeral) hdigit
      · exact absurd ⟨Option.some.inj hnumeral, hnext⟩ hpoint

theorem baseDigits_taken {base : Nat} {cs digits rest : List Char}
    (h : baseDigits base cs = .ok (digits, rest)) :
    ∃ taken, cs = taken ++ rest ∧ Alone (baseDigits base) taken digits := by
  have hstop : Alone (baseDigits base) [] [] := by
    intro after hafter
    rcases hafter.cases with rfl | ⟨rest, rfl⟩
    · rfl
    · rfl
  fun_induction baseDigits base cs generalizing digits with
  | case1 =>
      cases h
      exact ⟨[], rfl, hstop⟩
  | case2 cs ih =>
      obtain ⟨taken, rfl, halone⟩ := ih h
      refine ⟨'_' :: taken, rfl, fun after hafter => ?_⟩
      rw [List.cons_append, baseDigits, if_pos rfl, halone after hafter]
  | case3 c cs hc hdigit ih =>
      obtain ⟨digits', hdigits', rfl⟩ := Found.prepend_eq_ok h
      obtain ⟨taken, rfl, halone⟩ := ih hdigits'
      refine ⟨c :: taken, rfl, fun after hafter => ?_⟩
      rw [List.cons_append, baseDigits, if_neg hc, if_pos hdigit, halone after hafter]
      rfl
  | case4 => cases h
  | case5 c cs _ _ _ =>
      cases h
      exact ⟨[], rfl, hstop⟩

theorem baseAt?_cons (c : Char) (cs : List Char) :
    baseAt? (c :: cs) = if c = '0' then cs.head?.bind baseOf? else none := by
  split
  · next hc =>
      subst hc
      cases cs <;> rfl
  · next hc =>
      rw [baseAt?]
      intro mark rest hcs
      exact absurd (List.cons.inj hcs).1 hc

theorem baseNumber_of_digits {base : Nat} {cs ds rest rest' digits : List Char} {lexeme : Lexeme}
    (h : baseNumber base cs = .ok (lexeme, rest)) (hcs : baseDigits base cs = .ok (digits, rest))
    (hds : baseDigits base ds = .ok (digits, rest')) :
    baseNumber base ds = .ok (lexeme, rest') := by
  simp only [baseNumber, hcs] at h
  simp only [baseNumber, hds]
  split at h
  · cases h
  · split at h
    · cases h
    · next hdigits hsize =>
        cases h
        rw [if_neg hdigits, if_neg hsize]

def decimalText (slice : List Char) : List Char :=
  if slice.head? = some '.' then '0' :: digitsOf slice else digitsOf slice

theorem number_taken {c : Char} {cs rest : List Char} {lexeme : Lexeme}
    (hnumeral : Numeral (c :: cs)) (h : number (c :: cs) = .ok (lexeme, rest)) :
    ∃ body, cs = body ++ rest ∧ Alone number (c :: body) lexeme ∧
      (baseAt? (c :: body) = none → lexeme.value = String.ofList (decimalText (c :: body))) := by
  cases hbase : baseAt? (c :: cs) with
  | some base =>
      have hbase' := hbase
      rw [baseAt?_cons] at hbase'
      split at hbase'
      next hc =>
        obtain ⟨mark, hmark, hbaseOf⟩ := Option.bind_eq_some_iff.mp hbase'
        obtain ⟨cs, rfl⟩ := List.head?_eq_some_iff.mp hmark
        rw [number_of_base hbase] at h
        obtain ⟨digits, hdigits, -⟩ := baseNumber_eq_ok h
        obtain ⟨taken, htaken, halone⟩ := baseDigits_taken hdigits
        have hcs : cs = taken ++ rest := htaken
        subst hcs
        have hmarked : ∀ after, baseAt? (c :: mark :: after) = some base := by
          intro after
          rw [baseAt?_cons, if_pos hc]
          exact hbaseOf
        refine ⟨mark :: taken, rfl, fun after hafter => ?_, fun hnone => ?_⟩
        · have hagain := halone after hafter
          rw [List.cons_append, List.cons_append, number_of_base (hmarked (taken ++ after))]
          exact baseNumber_of_digits h hdigits hagain
        · rw [hmarked] at hnone
          cases hnone
      next => cases hbase'
  | none =>
      rw [number_of_decimal hbase] at h
      obtain ⟨text, htext, rfl⟩ := Found.lexeme_eq_ok h
      obtain ⟨taken, htaken, rfl, hne, halone⟩ := decimal_taken htext
      obtain ⟨d, body, rfl⟩ := List.exists_cons_of_ne_nil (hne hnumeral)
      obtain ⟨rfl, rfl⟩ := List.cons.inj htaken
      refine ⟨body, rfl, fun after hafter => ?_, fun _ => ?_⟩
      · have hdecimal : baseAt? (c :: body ++ after) = none := by
          rw [baseAt?_cons] at hbase
          rw [List.cons_append, baseAt?_cons]
          split
          · next hc =>
              rw [if_pos hc] at hbase
              cases hhead : (body ++ after).head? with
              | none => rfl
              | some d =>
                  rcases hafter.head?_append hhead with rfl | hsame
                  · rfl
                  · exact (congrArg (Option.bind · baseOf?) hsame).symm.trans hbase
          · rfl
        rw [number_of_decimal hdecimal, halone after hafter]
        rfl
      · have hc : c ≠ '_' := by
          rintro rfl
          rcases hnumeral with hdigit | ⟨hpoint, -⟩
          · cases hdigit
          · cases hpoint
        simp [decimalText, pointed, digitsOf_cons hc]

/-! ## Signs -/

theorem findSome?_range {α : Type} {f : Nat → Option α} {x : α} {n bound : Nat} (hn : n < bound)
    (hx : f n = some x) (habove : ∀ m, n ≤ m → f m = none ∨ f m = some x) :
    (List.range bound).reverse.findSome? f = some x := by
  induction bound with
  | zero => exact absurd hn (Nat.not_lt_zero n)
  | succ bound ih =>
      rw [List.range_succ, List.reverse_concat, List.findSome?_cons]
      rcases habove bound (Nat.le_of_lt_succ hn) with hnone | hsome
      · have hne : n ≠ bound := by
          rintro rfl
          rw [hx] at hnone
          cases hnone
        rw [hnone]
        exact ih (by omega)
      · rw [hsome]

theorem no_blank_in_spelling {text : List Char} {sign : Symbol}
    (h : Symbol.ofText? (String.ofList text) = some sign) : ∀ c ∈ text, Text.isBlank c = false := by
  have hall : Symbol.spellings.all fun entry => entry.1.toList.all fun c => !Text.isBlank c := by
    decide +kernel
  obtain ⟨before, behind, hspellings, -⟩ := List.lookup_eq_some_iff.mp h
  have hmem : (String.ofList text, sign) ∈ Symbol.spellings := by
    rw [hspellings]
    exact List.mem_append_right _ List.mem_cons_self
  simpa using List.all_eq_true.mp hall _ hmem

theorem symbol?_taken {mode : Mode} {c : Char} {cs rest : List Char} {lexeme : Lexeme}
    (h : symbol? mode (c :: cs) = some (lexeme, rest)) :
    ∃ sign body, cs = body ++ rest ∧ lexeme = ⟨.symbol sign, String.ofList (c :: body)⟩ ∧
      ∀ after, Apart after → symbol? mode (c :: body ++ after) = some (lexeme, after) := by
  obtain ⟨n, hn, hfound⟩ := symbol?_eq_some h
  obtain ⟨sign, hsign, hfree, rfl, rfl⟩ := symbolOf?_eq_some_iff.mp hfound
  rw [List.take_succ_cons] at hsign ⊢
  refine ⟨sign, cs.take n, (List.take_append_drop n cs).symm, rfl, fun after hafter => ?_⟩
  generalize hbody : cs.take n = body at hsign
  have hlength : body.length < Symbol.longest := by
    have hle := List.length_take_le n cs
    rw [hbody] at hle
    omega
  have hexact : ∀ m, (c :: body ++ after).take (m + 1) = c :: body →
      (c :: body ++ after).drop (m + 1) = after →
      symbolOf? mode (c :: body ++ after) (m + 1) =
        some (⟨.symbol sign, String.ofList (c :: body)⟩, after) := by
    intro m htake hdrop
    have hend : after.head?.any isNamePart = false := by
      rcases hafter.cases with rfl | ⟨behind, rfl⟩
      · rfl
      · rfl
    refine symbolOf?_eq_some_iff.mpr
      ⟨sign, ?_, fun hwordy => ⟨(hfree hwordy).1, ?_⟩, ?_, hdrop.symm⟩
    · rw [htake]
      exact hsign
    · rw [hdrop]
      exact hend
    · rw [htake]
  refine findSome?_range hlength (hexact body.length (by simp) (by simp)) fun m hm => ?_
  rcases hafter.cases with rfl | ⟨behind, rfl⟩
  · exact Or.inr (hexact m (by simp [List.take_of_length_le hm]) (by simp [hm]))
  · rcases Nat.eq_or_lt_of_le hm with rfl | hlt
    · exact Or.inr (hexact body.length (by simp) (by simp))
    · -- a longer text has the blank in it
      refine Or.inl (Option.eq_none_iff_forall_ne_some.mpr fun found hlong => ?_)
      obtain ⟨sign', hsign', -⟩ := symbolOf?_eq_some_iff.mp hlong
      have hmem : ' ' ∈ (c :: body ++ ' ' :: behind).take (m + 1) := by
        refine List.mem_take_iff_getElem.mpr ⟨body.length + 1, ?_, ?_⟩
        · simp
          omega
        · simp
      exact absurd (no_blank_in_spelling hsign' ' ' hmem) (by decide)

/-! ## Tokens -/

/-- The kinds of token whose text is the slice it was cut from. -/
def isVerbatim : Kind → Bool
  | .identifier | .keyword _ | .symbol _ | .regex => true
  | .number | .string _ | .finish => false

structure Spells (slice : List Char) (lexeme : Lexeme) : Prop where
  verbatim : isVerbatim lexeme.kind → lexeme.value = String.ofList slice
  decimal : lexeme.kind = .number → baseAt? slice = none →
    lexeme.value = String.ofList (decimalText slice)

theorem Spells.of_slice {slice : List Char} {lexeme : Lexeme} (hkind : lexeme.kind ≠ .number)
    (h : isVerbatim lexeme.kind → lexeme.value = String.ofList slice) : Spells slice lexeme :=
  ⟨h, fun hnumber => absurd hnumber hkind⟩

theorem StartsSign.of_apart {mode : Mode} {c : Char} {body rest after : List Char}
    (h : StartsSign mode c (body ++ rest)) (hafter : Apart after) :
    StartsSign mode c (body ++ after) := by
  refine { h with not_number := ?_, not_comment := ?_ }
  · rintro (hdigit | ⟨hc, hmode, hnext⟩)
    · exact h.not_number (Or.inl hdigit)
    · obtain ⟨d, hd, hdigit⟩ := (Option.any_eq_true _ _).mp hnext
      rcases hafter.head?_append hd with rfl | hsame
      · cases hdigit
      · exact h.not_number (Or.inr ⟨hc, hmode, by rw [hsame]; exact hdigit⟩)
  · rintro ⟨hc, hnext⟩
    rcases hafter.head?_append hnext with hblank | hsame
    · cases hblank
    · exact h.not_comment ⟨hc, hsame⟩

/-- A token is cut from the text by itself: what it is cut from alone gives the same token. -/
theorem next_taken {mode : Mode} {c : Char} {cs rest : List Char} {lexeme : Lexeme}
    (h : next mode c cs = .ok (some lexeme, rest)) :
    ∃ body, cs = body ++ rest ∧ Spells (c :: body) lexeme ∧
      ∀ after, Apart after → next mode c (body ++ after) = .ok (some lexeme, after) := by
  have hfirst := first_next mode c cs
  rw [h] at hfirst
  generalize hfound : (.ok (some lexeme, rest) : Found (Option Lexeme)) = found at hfirst
  cases hfirst with
  | blank _ | line _ | comment _ _ _ _ | openComment _ _ _ _ | unexpected _ _ => cases hfound
  | number hc hblank =>
      obtain ⟨lexeme', hscan, heq⟩ := Found.token_eq_ok hfound.symm
      cases heq
      have hnumeral : Numeral (c :: cs) := by
        rcases hc with hdigit | ⟨rfl, -, hnext⟩
        · exact Or.inl hdigit
        · exact Or.inr ⟨rfl, hnext⟩
      have hkind := number_kind hscan
      obtain ⟨body, rfl, halone, hdecimal⟩ := number_taken hnumeral hscan
      refine ⟨body, rfl, ⟨fun hverbatim => ?_, fun _ => hdecimal⟩, fun after hafter => ?_⟩
      · rw [hkind] at hverbatim
        cases hverbatim
      · have hstart : StartsNumber mode c (body ++ after) := by
          rcases hc with hdigit | ⟨rfl, hmode, hnext⟩
          · exact Or.inl hdigit
          · cases body with
            | nil =>
                -- the point alone is no number
                cases halone [] .nil
            | cons d body => exact Or.inr ⟨rfl, hmode, hnext⟩
        rw [(First.number hstart hblank).next_eq, ← List.cons_append, halone after hafter]
        rfl
  | name hc hblank hdigit =>
      cases hfound
      have htaken : (c :: cs).takeWhile isNamePart = c :: cs.takeWhile isNamePart :=
        List.takeWhile_cons_of_pos (isNamePart_of_isNameStart hc)
      have hdropped : (name (c :: cs)).2 = cs.dropWhile isNamePart :=
        List.dropWhile_cons_of_pos (isNamePart_of_isNameStart hc)
      refine ⟨cs.takeWhile isNamePart, ?_, .of_slice ?_ fun _ => ?_, fun after hafter => ?_⟩
      · rw [hdropped, List.takeWhile_append_dropWhile]
      · rcases name_kind (c :: cs) with hkind | ⟨word, hkind⟩ <;> simp [hkind]
      · exact congrArg String.ofList htaken
      · have halone := name_alone (c :: cs) hafter
        rw [htaken] at halone
        rw [(First.name hc hblank hdigit).next_eq, ← List.cons_append, halone]
  | regex hc hmode =>
      obtain ⟨lexeme', hscan, heq⟩ := Found.token_eq_ok hfound.symm
      cases heq
      obtain ⟨body, rfl, rfl, halone⟩ := regex_taken hscan
      refine ⟨body, rfl, .of_slice (by simp) fun _ => by rw [hc], fun after hafter => ?_⟩
      rw [(First.regex hc hmode).next_eq, halone after hafter]
      rfl
  | string hc =>
      obtain ⟨lexeme', hscan, heq⟩ := Found.token_eq_ok hfound.symm
      cases heq
      obtain ⟨text, htext, rfl⟩ := Found.lexeme_eq_ok hscan
      obtain ⟨body, rfl, -, hagain⟩ := template_taken htext
      refine ⟨body, rfl, .of_slice (by simp) (by simp [isVerbatim]), fun after _ => ?_⟩
      rw [(First.string hc).next_eq, hagain]
      rfl
  | symbol hc hsign =>
      cases hfound
      obtain ⟨sign, body, rfl, rfl, hagain⟩ := symbol?_taken hsign
      refine ⟨body, rfl, .of_slice (by simp) fun _ => rfl, fun after hafter => ?_⟩
      exact (First.symbol (hc.of_apart hafter) (hagain after hafter)).next_eq

/-! ## Between the tokens -/

/-- What is skipped, with the text behind it: a blank, a comment up to the end of its line, or a
comment up to the first mark that closes it. -/
inductive Skips : List Char → List Char → Prop
  | blank {c : Char} {rest : List Char} (hc : Text.isBlank c) : Skips [c] rest
  | line {body rest : List Char} (hbody : '\n' ∉ body)
      (hrest : rest = [] ∨ rest.head? = some '\n') : Skips ('#' :: body) rest
  | block {body rest : List Char} (hbody : ¬ ['*', '/'] <:+: body) :
      Skips (['/', '*'] ++ body ++ ['*', '/']) rest

theorem blockComment_eq_some {cs rest : List Char} (h : blockComment cs = some rest) :
    ∃ body, cs = body ++ ['*', '/'] ++ rest ∧ ¬ ['*', '/'] <:+: body := by
  fun_induction blockComment cs with
  | case1 => cases h
  | case2 rest' =>
      cases h
      exact ⟨[], rfl, by simp⟩
  | case3 c cs hclose ih =>
      obtain ⟨body, rfl, hbody⟩ := ih h
      refine ⟨c :: body, rfl, fun hmark => ?_⟩
      rcases List.infix_cons_iff.mp hmark with ⟨behind, hfront⟩ | hinside
      · obtain ⟨rfl, rfl⟩ := List.cons.inj hfront
        exact hclose _ rfl rfl
      · exact hbody hinside

theorem next_skipped {mode : Mode} {c : Char} {cs rest : List Char}
    (h : next mode c cs = .ok (none, rest)) :
    ∃ body, cs = body ++ rest ∧ Skips (c :: body) rest := by
  have hfirst := first_next mode c cs
  rw [h] at hfirst
  generalize hfound : (.ok (none, rest) : Found (Option Lexeme)) = found at hfirst
  cases hfirst with
  | openComment _ _ _ _ | unexpected _ _ | symbol _ _ | name _ _ _ => cases hfound
  | number _ _ | regex _ _ | string _ =>
      obtain ⟨lexeme, -, heq⟩ := Found.token_eq_ok hfound.symm
      cases heq
  | blank hc =>
      cases hfound
      exact ⟨[], rfl, .blank hc⟩
  | line hc =>
      cases hfound
      subst hc
      refine ⟨cs.takeWhile (· ≠ '\n'), List.takeWhile_append_dropWhile.symm, .line ?_ ?_⟩
      · intro hmem
        have hline := List.all_eq_true.mp List.all_takeWhile _ hmem
        simp at hline
      · have hstop := List.head?_dropWhile_not (fun d => decide (d ≠ '\n')) cs
        unfold lineComment
        cases hbehind : cs.dropWhile (fun d => decide (d ≠ '\n')) with
        | nil => exact Or.inl rfl
        | cons d behind =>
            rw [hbehind] at hstop
            exact Or.inr (congrArg some (by simpa using hstop))
  | comment hc hmode hcs hclosed =>
      cases hfound
      subst hc
      obtain ⟨cs, rfl⟩ := List.head?_eq_some_iff.mp hcs
      obtain ⟨body, hbody, hnone⟩ := blockComment_eq_some hclosed
      refine ⟨'*' :: (body ++ ['*', '/']), ?_, .block hnone⟩
      exact congrArg ('*' :: ·) hbody

end ClassScript.Scan

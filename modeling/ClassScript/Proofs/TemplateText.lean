import ClassScript.Proofs.Scanning
import Mathlib.Data.List.TakeWhile

/-!
# The text between the scanner and the templates

The scanner turns the inside of a string into template text, and the template is cut out of that
text again. The two meet in pieces: a character that stands for itself, a character behind a
backslash, and code between braces. The scanner writes nothing but pieces, each from as much text at
least, and cutting a template goes from piece to piece.
-/

namespace ClassScript.Template

/-! ## Braces -/

/-- After `opened` braces, code never closes more of them than are open, and all at its end. -/
structure Closed (opened : Nat) (code : List Char) : Prop where
  total : opened + code.count '{' = code.count '}'
  upTo : ∀ start, start <+: code → start.count '}' ≤ opened + start.count '{'

abbrev Balanced (code : List Char) : Prop :=
  Closed 0 code

section Closed

variable {opened : Nat} {c : Char} {code : List Char}

theorem closed_nil_iff : Closed opened [] ↔ opened = 0 := by
  constructor
  · intro h
    simpa using h.total
  · rintro rfl
    exact ⟨rfl, by simp⟩

def openAfter (opened : Nat) (c : Char) : Nat :=
  if c = '{' then opened + 1 else if c = '}' then opened - 1 else opened

theorem openAfter_add (h : c = '}' → 0 < opened) :
    openAfter opened c + (if c = '}' then 1 else 0) = opened + if c = '{' then 1 else 0 := by
  unfold openAfter
  by_cases hopen : c = '{'
  · simp [hopen]
  · by_cases hclose : c = '}'
    · have := h hclose
      simp [hclose]
      omega
    · simp [hopen, hclose]

theorem closed_cons_iff :
    Closed opened (c :: code) ↔ (c = '}' → 0 < opened) ∧ Closed (openAfter opened c) code := by
  have hcount : ∀ brace (cs : List Char),
      (c :: cs).count brace = cs.count brace + if c = brace then 1 else 0 := by
    intro brace cs
    rw [List.count_cons]
    simp only [beq_iff_eq]
  constructor
  · rintro ⟨htotal, hupTo⟩
    have hopened : c = '}' → 0 < opened := by
      rintro rfl
      have h := hupTo ['}'] ⟨code, rfl⟩
      simp at h
      omega
    have hafter := openAfter_add hopened
    refine ⟨hopened, ?_, ?_⟩
    · rw [hcount, hcount] at htotal
      omega
    · intro start hstart
      have h := hupTo (c :: start) ((List.prefix_cons_inj c).mpr hstart)
      rw [hcount, hcount] at h
      omega
  · rintro ⟨hopened, htotal, hupTo⟩
    have hafter := openAfter_add hopened
    refine ⟨?_, ?_⟩
    · rw [hcount, hcount]
      omega
    · intro start hstart
      rcases List.prefix_cons_iff.mp hstart with rfl | ⟨start', rfl, hstart'⟩
      · simp
      · have h := hupTo start' hstart'
        rw [hcount, hcount]
        omega

instance decidableClosed : (opened : Nat) → (code : List Char) → Decidable (Closed opened code)
  | _, [] => decidable_of_iff _ closed_nil_iff.symm
  | opened, c :: code =>
    have := decidableClosed (openAfter opened c) code
    decidable_of_iff _ closed_cons_iff.symm

/-- The braces of code that closes them are matched where the code ends. -/
theorem embedded_append (h : Closed opened code) (rest : List Char) :
    embedded opened (code ++ '}' :: rest) = (code, rest) := by
  induction code generalizing opened with
  | nil =>
      obtain rfl := closed_nil_iff.mp h
      simp [embedded]
  | cons c code ih =>
      obtain ⟨hopened, hcode⟩ := closed_cons_iff.mp h
      have hgo : ¬(c = '}' ∧ opened = 0) := by
        rintro ⟨hc, rfl⟩
        exact absurd (hopened hc) (by simp)
      rw [List.cons_append, embedded, if_neg hgo]
      exact congrArg (fun found => (c :: found.1, found.2)) (ih hcode)

end Closed

/-! ## Cutting a text -/

theorem length_embedded (opened : Nat) (cs : List Char) :
    (embedded opened cs).1.length + (embedded opened cs).2.length ≤ cs.length := by
  induction cs generalizing opened with
  | nil => simp [embedded]
  | cons c cs ih =>
      rw [embedded]
      split
      · simp
      · have h := ih (openAfter opened c)
        simp only [List.length_cons]
        unfold openAfter at h
        omega

/-- A step of cutting a text, at any character but a backslash. -/
theorem segmentsFrom_step {c : Char} (hc : c ≠ '\\') (bound : Nat) (literal cs : List Char) :
    segmentsFrom (bound + 1) literal (c :: cs) =
      if c = '$' ∧ cs.head? = some '{' then segmentsFrom bound literal cs
      else if c = '$' ∧ cs.head?.any Text.isWordStart then
        flush literal (.code (String.ofList (cs.takeWhile Text.isWordPart)) ::
          segmentsFrom bound [] (cs.dropWhile Text.isWordPart))
      else if c = '{' then
        flush literal (.code (String.ofList (embedded 0 cs).1) ::
          segmentsFrom bound [] (embedded 0 cs).2)
      else segmentsFrom bound (literal ++ [c]) cs := by
  cases cs with
  | nil => exact if_neg hc
  | cons d cs => exact if_neg hc

/-- Any bound of the length of a text is as good as another. -/
theorem segmentsFrom_congr {bound bound' : Nat} {literal cs : List Char}
    (h : cs.length ≤ bound) (h' : cs.length ≤ bound') :
    segmentsFrom bound literal cs = segmentsFrom bound' literal cs := by
  induction bound generalizing bound' literal cs with
  | zero =>
      obtain rfl := List.length_eq_zero_iff.mp (Nat.le_zero.mp h)
      cases bound' <;> rfl
  | succ bound ih =>
      rcases cs with _ | ⟨c, cs⟩
      · cases bound' <;> rfl
      rw [List.length_cons] at h h'
      obtain ⟨bound', rfl⟩ : ∃ n, bound' = n + 1 := ⟨bound' - 1, by omega⟩
      by_cases hc : c = '\\'
      · subst hc
        rcases cs with _ | ⟨e, cs⟩
        · rfl
        · rw [List.length_cons] at h h'
          exact ih (by omega) (by omega)
      · have hdrop := List.length_dropWhile_le Text.isWordPart cs
        have hcode := length_embedded 0 cs
        have hshorter : ∀ {literal' cs' : List Char}, cs'.length ≤ cs.length →
            segmentsFrom bound literal' cs' = segmentsFrom bound' literal' cs' :=
          fun hcs' => ih (by omega) (by omega)
        rw [segmentsFrom_step hc, segmentsFrom_step hc, hshorter (Nat.le_refl _),
          hshorter hdrop, hshorter (Nat.le_trans (Nat.le_add_left _ _) hcode),
          hshorter (Nat.le_refl _)]

def segmentsAfter (literal cs : List Char) : List Segment :=
  segmentsFrom cs.length literal cs

theorem segments_ofList (cs : List Char) :
    segments (String.ofList cs) = segmentsAfter [] cs := by
  rw [segments, String.toList_ofList, segmentsAfter]

section Steps

variable (literal : List Char)

theorem segmentsAfter_escape (e : Char) (cs : List Char) :
    segmentsAfter literal ('\\' :: e :: cs) = segmentsAfter (literal ++ [e]) cs :=
  segmentsFrom_congr (Nat.le_succ _) (Nat.le_refl _)

theorem segmentsAfter_step {c : Char} (hc : c ≠ '\\') (cs : List Char) :
    segmentsAfter literal (c :: cs) =
      if c = '$' ∧ cs.head? = some '{' then segmentsAfter literal cs
      else if c = '$' ∧ cs.head?.any Text.isWordStart then
        flush literal (.code (String.ofList (cs.takeWhile Text.isWordPart)) ::
          segmentsAfter [] (cs.dropWhile Text.isWordPart))
      else if c = '{' then
        flush literal (.code (String.ofList (embedded 0 cs).1) ::
          segmentsAfter [] (embedded 0 cs).2)
      else segmentsAfter (literal ++ [c]) cs := by
  have hdrop := List.length_dropWhile_le Text.isWordPart cs
  have hcode := length_embedded 0 cs
  have hshorter : ∀ {literal' cs' : List Char}, cs'.length ≤ cs.length →
      segmentsFrom cs.length literal' cs' = segmentsAfter literal' cs' :=
    fun hcs' => segmentsFrom_congr hcs' (Nat.le_refl _)
  rw [segmentsAfter, List.length_cons, segmentsFrom_step hc, hshorter (Nat.le_refl _),
    hshorter hdrop, hshorter (Nat.le_trans (Nat.le_add_left _ _) hcode), hshorter (Nat.le_refl _)]

theorem segmentsAfter_plain {c : Char} (hescape : c ≠ '\\') (hdollar : c ≠ '$') (hbrace : c ≠ '{')
    (cs : List Char) : segmentsAfter literal (c :: cs) = segmentsAfter (literal ++ [c]) cs := by
  rw [segmentsAfter_step literal hescape, if_neg (fun h => hdollar h.1),
    if_neg (fun h => hdollar h.1), if_neg hbrace]

theorem segmentsAfter_code {code : List Char} (h : Balanced code) (cs : List Char) :
    segmentsAfter literal ('{' :: code ++ '}' :: cs) =
      flush literal (.code (String.ofList code) :: segmentsAfter [] cs) := by
  rw [List.cons_append, segmentsAfter_step literal (by decide), if_neg (by simp),
    if_neg (by simp), if_pos rfl, embedded_append h]

end Steps

/-! ## Code in a text -/

theorem mem_flush_code {literal : List Char} {segments : List Segment} {code : String} :
    .code code ∈ flush literal segments ↔ .code code ∈ segments := by
  unfold flush
  split <;> simp

/-- Embedded code is shorter than the text it stands in. -/
theorem length_code_lt {literal cs : List Char} {code : String}
    (h : .code code ∈ segmentsAfter literal cs) : code.length < cs.length := by
  induction hn : cs.length using Nat.strongRecOn generalizing literal cs with
  | ind n ih =>
      subst hn
      have hshorter : ∀ {literal' cs' : List Char}, cs'.length < cs.length →
          .code code ∈ segmentsAfter literal' cs' → code.length < cs.length :=
        fun hcs' hcode => Nat.lt_trans (ih _ hcs' hcode rfl) hcs'
      rcases cs with _ | ⟨c, cs⟩
      · exact absurd (mem_flush_code.mp h) (by simp)
      by_cases hc : c = '\\'
      · subst hc
        rcases cs with _ | ⟨e, cs⟩
        · exact absurd (mem_flush_code.mp h) (by simp)
        · rw [segmentsAfter_escape] at h
          exact hshorter (by simp only [List.length_cons]; omega) h
      · have hdrop := List.length_dropWhile_le Text.isWordPart cs
        have hcode := length_embedded 0 cs
        rw [segmentsAfter_step literal hc] at h
        split at h
        · exact hshorter (by simp) h
        split at h
        · rcases List.mem_cons.mp (mem_flush_code.mp h) with heq | hrest
          · cases heq
            have hword := (List.takeWhile_prefix (l := cs) Text.isWordPart).length_le
            simp
            omega
          · exact hshorter (by simp; omega) hrest
        split at h
        · rcases List.mem_cons.mp (mem_flush_code.mp h) with heq | hrest
          · cases heq
            simp
            omega
          · exact hshorter (by simp; omega) hrest
        · exact hshorter (by simp) h

/-- Template text that can be written with `n` characters: characters that stand for themselves,
characters behind a backslash, and code between braces. -/
inductive Written : Nat → List Char → Prop
  | nil (n : Nat) : Written n []
  | plain {n : Nat} {c : Char} {text : List Char} (hescape : c ≠ '\\') (hbrace : c ≠ '{')
      (h : Written n text) : Written (n + 1) (c :: text)
  | escaped {n : Nat} {text : List Char} (c : Char) (h : Written n text) :
      Written (n + 1) ('\\' :: c :: text)
  | code {n : Nat} {code text : List Char} (hcode : Balanced code) (h : Written n text) :
      Written (n + code.length + 2) ('{' :: code ++ '}' :: text)

namespace Written

theorem dropWord_of_neg {n : Nat} {c : Char} {text : List Char} (h : Written n (c :: text))
    (hc : ¬Text.isWordPart c = true) :
    ∃ m, Written m ((c :: text).dropWhile Text.isWordPart) ∧
      ((c :: text).takeWhile Text.isWordPart).length + m ≤ n := by
  rw [List.dropWhile_cons_of_neg hc, List.takeWhile_cons_of_neg hc]
  exact ⟨n, h, by simp⟩

/-- A word at the front of a text was written with as many characters as it has. -/
theorem dropWord {n : Nat} {text : List Char} (h : Written n text) :
    ∃ m, Written m (text.dropWhile Text.isWordPart) ∧
      (text.takeWhile Text.isWordPart).length + m ≤ n := by
  induction h with
  | nil n => exact ⟨n, .nil n, by simp⟩
  | @plain n c text hescape hbrace h ih =>
      by_cases hc : Text.isWordPart c = true
      · obtain ⟨m, hm, hlength⟩ := ih
        rw [List.dropWhile_cons_of_pos hc, List.takeWhile_cons_of_pos hc, List.length_cons]
        exact ⟨m, hm, by omega⟩
      · exact dropWord_of_neg (.plain hescape hbrace h) hc
  | escaped c h ih => exact dropWord_of_neg (.escaped c h) (by decide)
  | code hcode h ih => exact dropWord_of_neg (.code hcode h) (by decide)

/-- Code in a text is no longer than what the text was written with. -/
theorem length_code_le {n : Nat} {text : List Char} (h : Written n text) :
    ∀ {literal : List Char} {code : String}, .code code ∈ segmentsAfter literal text →
      code.length ≤ n := by
  -- not by induction on the text: what is left behind a word is no part of the derivation
  induction n using Nat.strongRecOn generalizing text with
  | ind n ih =>
      intro literal code hcode
      cases h with
      | nil => exact absurd (mem_flush_code.mp hcode) (by simp)
      | @plain n c text hescape hbrace h =>
          rw [segmentsAfter_step literal hescape] at hcode
          split at hcode
          · exact Nat.le_succ_of_le (ih n (Nat.lt_succ_self n) h hcode)
          · split at hcode
            · obtain ⟨m, hm, hlength⟩ := h.dropWord
              rcases List.mem_cons.mp (mem_flush_code.mp hcode) with heq | hrest
              · cases heq
                simp
                omega
              · have := ih m (by omega) hm hrest
                omega
            · exact Nat.le_succ_of_le (ih n (Nat.lt_succ_self n) h hcode)
      | @escaped n text c h =>
          rw [segmentsAfter_escape] at hcode
          exact Nat.le_succ_of_le (ih n (Nat.lt_succ_self n) h hcode)
      | @code n code' text hcode' h =>
          rw [segmentsAfter_code literal hcode'] at hcode
          rcases List.mem_cons.mp (mem_flush_code.mp hcode) with heq | hrest
          · cases heq
            simp
            omega
          · have := ih n (by omega) h hrest
            omega

end Written

end ClassScript.Template

namespace ClassScript.Scan

open Template

/-! ## What the scanner writes -/

theorem depth_succ_eq {opened : Nat} {c : Char} (h : c = '}' → 0 < opened) :
    (if c = '{' then opened + 2 else if c = '}' then opened else opened + 1) =
      openAfter opened c + 1 := by
  unfold openAfter
  by_cases hopen : c = '{'
  · simp [hopen]
  · by_cases hclose : c = '}'
    · have := h hclose
      simp [hclose]
      omega
    · simp [hopen, hclose]

theorem template_append {quote : Quote} {opened : Nat} {code : List Char} (h : Closed opened code)
    (rest : List Char) : template quote (opened + 1) (code ++ '}' :: rest) =
      Found.prepend (code ++ ['}']) (template quote 0 rest) := by
  induction code generalizing opened with
  | nil =>
      obtain rfl := closed_nil_iff.mp h
      rw [List.nil_append, List.nil_append, template]
      simp
  | cons c code ih =>
      obtain ⟨hopened, hcode⟩ := closed_cons_iff.mp h
      rw [List.cons_append, template, depth_succ_eq hopened]
      rw [ih hcode, Found.prepend_prepend]
      rfl

theorem written_escape {n : Nat} {text : List Char} (h : Written n text) (e : Char) :
    Written (n + 1) (escape e ++ text) := by
  unfold escape
  split
  · exact .plain (by decide) (by decide) h
  · exact .plain (by decide) (by decide) h
  · exact .plain (by decide) (by decide) h
  · exact .plain (by decide) (by decide) h
  · exact .plain (by decide) (by decide) h
  · split
    · exact .escaped e h
    · next hspecial => exact .plain (by simp_all) (by simp_all) h

/-- The rest of the code that is open at a depth, with the brace that closes it. -/
def Remains : Nat → List Char → Prop
  | 0, opening => opening = []
  | opened + 1, opening => ∃ code, Closed opened code ∧ opening = code ++ ['}']

theorem remains_cons {opened : Nat} {c : Char} {opening : List Char}
    (h : Remains (if c = '{' then opened + 2 else if c = '}' then opened else opened + 1) opening) :
    Remains (opened + 1) (c :: opening) := by
  by_cases hend : c = '}' ∧ opened = 0
  · obtain ⟨rfl, rfl⟩ := hend
    have hnil : opening = [] := h
    exact ⟨[], closed_nil_iff.mpr rfl, by rw [hnil]; rfl⟩
  · have hopened : c = '}' → 0 < opened := by
      intro hc
      exact Nat.pos_of_ne_zero fun hzero => hend ⟨hc, hzero⟩
    rw [depth_succ_eq hopened] at h
    obtain ⟨code, hcode, rfl⟩ := h
    exact ⟨c :: code, closed_cons_iff.mpr ⟨hopened, hcode⟩, rfl⟩

/-- The scanner writes template text, with no more characters than it takes. -/
theorem template_written {quote : Quote} {depth : Nat} {cs text rest : List Char}
    (h : template quote depth cs = .ok (text, rest)) :
    ∃ opening text' n, text = opening ++ text' ∧ Remains depth opening ∧ Written n text' ∧
      opening.length + n < cs.length := by
  fun_induction template quote depth cs generalizing text with
  | case1 | case3 | case4 | case10 | case12 => cases h
  | case2 depth c cs inner =>
      rename_i ih
      obtain ⟨text', htext, rfl⟩ := Found.prepend_eq_ok h
      obtain ⟨opening, text'', n, rfl, hopening, hwritten, hlength⟩ := ih htext
      refine ⟨c :: opening, text'', n, rfl, remains_cons hopening, hwritten, ?_⟩
      simp only [List.length_cons]
      omega
  | case5 e cs _ ih =>
      obtain ⟨text', htext, rfl⟩ := Found.prepend_eq_ok h
      obtain ⟨_, text'', n, rfl, rfl, hwritten, hlength⟩ := ih htext
      exact ⟨[], _, n + 1, rfl, rfl, .escaped '\\' hwritten, by simp_all⟩
  | case6 e cs _ ih =>
      obtain ⟨text', htext, rfl⟩ := Found.prepend_eq_ok h
      obtain ⟨_, text'', n, rfl, rfl, hwritten, hlength⟩ := ih htext
      exact ⟨[], _, n + 1, rfl, rfl, written_escape hwritten e, by simp_all; omega⟩
  | case7 cs _ ih =>
      obtain ⟨text', htext, rfl⟩ := Found.prepend_eq_ok h
      obtain ⟨_, text'', n, rfl, ⟨code, hcode, rfl⟩, hwritten, hlength⟩ := ih htext
      have hbalanced : Balanced ('{' :: code) := closed_cons_iff.mpr ⟨by simp, hcode⟩
      refine ⟨[], '{' :: ('{' :: code) ++ '}' :: text'', _, ?_, rfl, .code hbalanced hwritten, ?_⟩
      · simp
      · simp only [List.length_append, List.length_cons, List.length_nil] at hlength ⊢
        omega
  | case8 cs _ ih =>
      obtain ⟨text', htext, rfl⟩ := Found.prepend_eq_ok h
      obtain ⟨_, text'', n, rfl, rfl, hwritten, hlength⟩ := ih htext
      exact ⟨[], _, n + 1, rfl, rfl, .escaped '{' hwritten, by simp_all; omega⟩
  | case9 cs _ ih =>
      obtain ⟨text', htext, rfl⟩ := Found.prepend_eq_ok h
      obtain ⟨_, text'', n, rfl, ⟨code, hcode, rfl⟩, hwritten, hlength⟩ := ih htext
      refine ⟨[], '{' :: code ++ '}' :: text'', _, ?_, rfl, .code hcode hwritten, ?_⟩
      · simp
      · simp only [List.length_append, List.length_cons, List.length_nil] at hlength ⊢
        omega
  | case11 cs _ ih =>
      obtain ⟨text', htext, rfl⟩ := Found.prepend_eq_ok h
      obtain ⟨_, text'', n, rfl, rfl, hwritten, hlength⟩ := ih htext
      exact ⟨[], _, n + 1, rfl, rfl, .escaped '}' hwritten, by simp_all; omega⟩
  | case13 cs =>
      cases h
      exact ⟨[], [], 0, rfl, rfl, .nil 0, by simp⟩
  | case14 c cs hend hescape hdouble hbrace _ _ _ ih =>
      obtain ⟨text', htext, rfl⟩ := Found.prepend_eq_ok h
      obtain ⟨_, text'', n, rfl, rfl, hwritten, hlength⟩ := ih htext
      have hc : c ≠ '\\' := by
        rintro rfl
        cases cs with
        | nil => exact hend rfl rfl
        | cons e cs => exact hescape e cs rfl rfl
      exact ⟨[], _, n + 1, rfl, rfl, .plain hc hbrace hwritten, by simp_all⟩

/-- Code in a string is shorter than the text of the string. -/
theorem length_code_lt_of_template {quote : Quote} {cs text rest : List Char} {code : String}
    (h : template quote 0 cs = .ok (text, rest))
    (hcode : .code code ∈ segments (String.ofList text)) : code.length < cs.length := by
  obtain ⟨_, text', n, rfl, rfl, hwritten, hlength⟩ := template_written h
  rw [List.nil_append, segments_ofList] at hcode
  exact Nat.lt_of_le_of_lt (hwritten.length_code_le hcode) (by simpa using hlength)

end ClassScript.Scan

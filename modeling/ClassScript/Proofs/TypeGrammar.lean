import ClassScript.Proofs.PlacementGrammar

/-!
# The grammar of types

Which tokens write which types. A type ends with its name, so it is clear where it ends whatever
comes behind it. The sign `<<` opens twice: the first half of it belongs to one type, and the second
half begins the first argument of that type. The parser takes exactly the tokens of the grammar.
-/

namespace ClassScript

namespace Grammar

inductive NullMark : Bool → List Token → Prop
  | absent : NullMark false []
  | present {t : Token} (h : Sign .question t) : NullMark true [t]

/-- What is left of a sign that opens twice after it has opened once. -/
def secondHalf (t : Token) : Token :=
  { t with kind := .symbol .lt, value := "<" }

inductive TypePhrase where
  | type | row

inductive Annotates : TypePhrase → List Token → List Ty → Prop
  | plain {nullable : Bool} {mark : List Token} {name : Token} (hmark : NullMark nullable mark)
      (hname : name.kind = .identifier) :
      Annotates .type (mark ++ [name]) [⟨name.value, nullable, []⟩]
  | generic {nullable : Bool} {mark us : List Token} {opening closing name : Token}
      {args : List Ty} (hmark : NullMark nullable mark) (hopening : Sign .lt opening)
      (hargs : Annotates .row us args) (hclosing : Sign .gt closing)
      (hname : name.kind = .identifier) :
      Annotates .type (mark ++ (opening :: us ++ [closing, name])) [⟨name.value, nullable, args⟩]
  | doubled {nullable : Bool} {mark us : List Token} {opening closing name : Token}
      {args : List Ty} (hmark : NullMark nullable mark) (hopening : Sign .shl opening)
      (hargs : Annotates .row (secondHalf opening :: us) args) (hclosing : Sign .gt closing)
      (hname : name.kind = .identifier) :
      Annotates .type (mark ++ (opening :: us ++ [closing, name])) [⟨name.value, nullable, args⟩]
  | last {ts : List Token} {ty : Ty} (h : Annotates .type ts [ty]) : Annotates .row ts [ty]
  | more {ts us : List Token} {comma : Token} {ty : Ty} {tys : List Ty}
      (h : Annotates .type ts [ty]) (hcomma : Sign .comma comma) (hrest : Annotates .row us tys) :
      Annotates .row (ts ++ comma :: us) (ty :: tys)

theorem Annotates.length_pos {phrase : TypePhrase} {ts : List Token} {tys : List Ty}
    (h : Annotates phrase ts tys) : 1 ≤ ts.length := by
  induction h with
  | plain | generic | doubled => grind
  | last _ ih => exact ih
  | more _ _ _ ih => exact Nat.le_trans ih (by simp)

/-- Neither the end of the input nor a closing brace is part of a type. -/
theorem Annotates.kind_ne {phrase : TypePhrase} {ts : List Token} {tys : List Ty}
    (h : Annotates phrase ts tys) :
    ∀ t ∈ ts, t.kind ≠ .finish ∧ t.kind ≠ .symbol .rBrace := by
  have hmark : ∀ {nullable : Bool} {mark : List Token}, NullMark nullable mark →
      ∀ t ∈ mark, t.kind ≠ .finish ∧ t.kind ≠ .symbol .rBrace := by
    intro nullable mark h t ht
    cases h with
    | absent => cases ht
    | present hsign => simp_all [Sign]
  induction h <;> grind [Sign]

end Grammar

namespace Parser

open Grammar

def typeName (nullable : Bool) (args : List Ty) : Parser Ty :=
  return { name := ← expectName, nullable, generics := args }

/-- A type behind its mark, by the token that comes next. -/
theorem typeAt_succ {bound : Nat} {c c' : Cursor} {nullable : Bool}
    (h : acceptSign .question c = .ok nullable c') :
    typeAt (bound + 1) c =
      if c'.peek.kind = .symbol .shl then
        (generics (typeAt bound) bound >>= typeName nullable) (c'.replace (secondHalf c'.peek))
      else (do
        if ← acceptSign .lt then generics (typeAt bound) bound >>= typeName nullable
        else typeName nullable [] : Parser Ty) c' := by
  rw [typeAt, bind_eq_of_ok h]
  exact Pairs.opening_eq _ _ _

/-! ## What the parser takes -/

theorem mark_of_acceptSign {c c' : Cursor} {nullable : Bool}
    (h : acceptSign .question c = .ok nullable c') :
    ∃ mark, NullMark nullable mark ∧ c.rest = mark ++ c'.rest := by
  rcases acceptSign_eq_ok h with ⟨rfl, t, ht, hrest⟩ | ⟨rfl, -, rfl⟩
  · exact ⟨[t], .present ht, hrest⟩
  · exact ⟨[], .absent, rfl⟩

section Sound

variable {ty : Parser Ty}

theorem row_of_types
    (hty : ∀ {c c' : Cursor} {t : Ty}, ty c = .ok t c' →
      ∃ ts, c.rest = ts ++ c'.rest ∧ Annotates .type ts [t]) {bound : Nat} :
    ∀ {c c' : Cursor} {tys : List Ty}, commaSeparated ty bound c = .ok tys c' →
      ∃ ts, c.rest = ts ++ c'.rest ∧ Annotates .row ts tys := by
  induction bound with
  | zero =>
      intro c c' tys h
      cases h
  | succ bound ih =>
      intro c c' tys h
      obtain ⟨first, c₁, hfirst, h₁⟩ := exists_of_bind_eq_ok h
      obtain ⟨ts, hts, htype⟩ := hty hfirst
      obtain ⟨found, c₂, hcomma, h₂⟩ := exists_of_bind_eq_ok h₁
      rcases acceptSign_eq_ok hcomma with ⟨rfl, comma, hcomma, hrest⟩ | ⟨rfl, -, rfl⟩
      · obtain ⟨others, c₃, hothers, h₃⟩ := exists_of_bind_eq_ok h₂
        obtain ⟨rfl, rfl⟩ := pure_eq_ok h₃
        obtain ⟨us, hus, hothers⟩ := ih hothers
        refine ⟨ts ++ comma :: us, ?_, .more htype hcomma hothers⟩
        rw [hts, hrest, hus, List.append_assoc, List.cons_append]
      · obtain ⟨rfl, rfl⟩ := pure_eq_ok h₂
        exact ⟨ts, hts, .last htype⟩

theorem row_of_generics
    (hty : ∀ {c c' : Cursor} {t : Ty}, ty c = .ok t c' →
      ∃ ts, c.rest = ts ++ c'.rest ∧ Annotates .type ts [t]) {bound : Nat} {c c' : Cursor}
    {tys : List Ty} (h : generics ty bound c = .ok tys c') :
    ∃ us closing, c.rest = us ++ closing :: c'.rest ∧ Annotates .row us tys ∧
      Sign .gt closing := by
  obtain ⟨args, c₁, hargs, h₁⟩ := exists_of_bind_eq_ok h
  obtain ⟨us, hus, hargs⟩ := row_of_types hty hargs
  obtain ⟨_, c₂, hclosing, h₂⟩ := exists_of_bind_eq_ok h₁
  obtain ⟨rfl, rfl⟩ := pure_eq_ok h₂
  obtain ⟨closing, hclosing, hrest⟩ := expectSign_eq_ok hclosing
  exact ⟨us, closing, hrest ▸ hus, hargs, hclosing⟩

end Sound

theorem typeName_eq_ok {nullable : Bool} {args : List Ty} {c c' : Cursor} {ty : Ty}
    (h : typeName nullable args c = .ok ty c') :
    ∃ name, name.kind = .identifier ∧ ty = ⟨name.value, nullable, args⟩ ∧
      c.rest = name :: c'.rest := by
  obtain ⟨text, d, htext, h₁⟩ := exists_of_bind_eq_ok h
  obtain ⟨hty, rfl⟩ := pure_eq_ok h₁
  obtain ⟨name, hkind, rfl, hrest⟩ := expectName_eq_ok htext
  exact ⟨name, hkind, hty.symm, hrest⟩

/-- What the parser takes as a type is one. -/
theorem annotates_of_typeAt {bound : Nat} :
    ∀ {c c' : Cursor} {ty : Ty}, typeAt bound c = .ok ty c' →
      ∃ ts, c.rest = ts ++ c'.rest ∧ Annotates .type ts [ty] := by
  induction bound with
  | zero =>
      intro c c' ty h
      cases h
  | succ bound ih =>
      intro c c' ty h
      obtain ⟨nullable, c₁, hnullable, -⟩ := exists_of_bind_eq_ok h
      obtain ⟨mark, hmark, hc⟩ := mark_of_acceptSign hnullable
      rw [typeAt_succ hnullable] at h
      split at h
      · next hopening =>
          obtain ⟨args, c₂, hargs, h₁⟩ := exists_of_bind_eq_ok h
          obtain ⟨us, closing, hus, hargs, hclosing⟩ := row_of_generics ih hargs
          obtain ⟨name, hkind, rfl, hrest⟩ := typeName_eq_ok h₁
          obtain ⟨opening, tail, hpeek, hsign⟩ := exists_cons_of_nextKind hopening (by simp)
          -- the first argument begins with what is left of the sign
          have hhalf : secondHalf opening :: tail = us ++ closing :: c₂.rest := by
            simpa [Cursor.replace, Cursor.peek, hpeek, secondHalf] using hus
          cases us with
          | nil => exact absurd hargs.length_pos (by simp)
          | cons first us =>
              obtain ⟨rfl, rfl⟩ := List.cons.inj hhalf
              refine ⟨_, ?_, .doubled hmark hsign hargs hclosing hkind⟩
              rw [hc, hpeek, hrest]
              simp
      · obtain ⟨opened, c₂, hopened, h₁⟩ := exists_of_bind_eq_ok h
        rcases acceptSign_eq_ok hopened with ⟨rfl, opening, hopening, hrest⟩ | ⟨rfl, -, rfl⟩
        · obtain ⟨args, c₃, hargs, h₂⟩ := exists_of_bind_eq_ok h₁
          obtain ⟨us, closing, hus, hargs, hclosing⟩ := row_of_generics ih hargs
          obtain ⟨name, hkind, rfl, hrest'⟩ := typeName_eq_ok h₂
          refine ⟨_, ?_, .generic hmark hopening hargs hclosing hkind⟩
          rw [hc, hrest, hus, hrest']
          simp
        · obtain ⟨name, hkind, rfl, hrest'⟩ := typeName_eq_ok h₁
          refine ⟨_, ?_, .plain hmark hkind⟩
          rw [hc, hrest']
          simp

/-! ## What the parser reads -/

/-- The parser reads a phrase as its types and comes to the token behind it. The token it passed
last is a name. -/
def ReadsTypes : TypePhrase → List Token → List Ty → Prop
  | .type, ts, tys => ∀ bound rest passed, ts.length ≤ bound →
      ∃ ty name passed', tys = [ty] ∧ name.kind = .identifier ∧
        typeAt bound ⟨passed, ts ++ rest⟩ = .ok ty ⟨name :: passed', rest⟩
  | .row, ts, tys => ∀ bound k rest passed, ts.length ≤ bound → ts.length ≤ k →
      nextKind rest ≠ .symbol .comma →
      ∃ passed', commaSeparated (typeAt bound) k ⟨passed, ts ++ rest⟩ = .ok tys ⟨passed', rest⟩

theorem acceptSign_of_nullMark {nullable : Bool} {mark ts : List Token} (h : NullMark nullable mark)
    (hts : nextKind ts ≠ .symbol .question) (passed : List Token) :
    acceptSign .question ⟨passed, mark ++ ts⟩ = .ok nullable ⟨mark.reverse ++ passed, ts⟩ := by
  cases h with
  | absent => exact leads_acceptSign_of_ne hts passed
  | present ht => exact leads_acceptSign ht passed

theorem typeName_of_identifier {name : Token} (hname : name.kind = .identifier) (nullable : Bool)
    (args : List Ty) (passed rest : List Token) :
    typeName nullable args ⟨passed, name :: rest⟩ =
      .ok ⟨name.value, nullable, args⟩ ⟨name :: passed, rest⟩ :=
  bind_eq_of_ok (leads_expectName hname passed)

/-- The end of a type, from its arguments on. -/
theorem type_of_row {bound : Nat} {us : List Token} {closing name : Token} {args : List Ty}
    (hargs : ReadsTypes .row us args) (hlength : us.length ≤ bound) (hclosing : Sign .gt closing)
    (hname : name.kind = .identifier) (nullable : Bool) (passed rest : List Token) :
    ∃ passed', (generics (typeAt bound) bound >>= typeName nullable)
        ⟨passed, us ++ closing :: name :: rest⟩ =
      .ok ⟨name.value, nullable, args⟩ ⟨name :: passed', rest⟩ := by
  have hnext : nextKind (closing :: name :: rest) ≠ .symbol .comma := by
    simp [show closing.kind = _ from hclosing]
  obtain ⟨passed', hrow⟩ :=
    hargs bound bound (closing :: name :: rest) passed hlength hlength hnext
  have hend : expectSign .gt ⟨passed', closing :: name :: rest⟩ =
      .ok () ⟨closing :: passed', name :: rest⟩ := leads_expectSign hclosing passed'
  have hgenerics : generics (typeAt bound) bound ⟨passed, us ++ closing :: name :: rest⟩ =
      .ok args ⟨closing :: passed', name :: rest⟩ := by
    rw [generics, bind_eq_of_ok hrow, bind_eq_of_ok hend]
    rfl
  refine ⟨closing :: passed', ?_⟩
  rw [bind_eq_of_ok hgenerics]
  exact typeName_of_identifier hname nullable args _ _

section Complete

variable {nullable : Bool} {mark ts us : List Token} {opening closing comma name : Token} {ty : Ty}
  {args tys : List Ty}

theorem readsTypes_plain (hmark : NullMark nullable mark) (hname : name.kind = .identifier) :
    ReadsTypes .type (mark ++ [name]) [⟨name.value, nullable, []⟩] := by
  intro bound rest passed hlength
  obtain ⟨bound, rfl⟩ : ∃ k, bound = k + 1 := ⟨bound - 1, by simp at hlength; omega⟩
  have hquestion : nextKind (name :: rest) ≠ .symbol .question := by simp [hname]
  have hopen : acceptSign .lt ⟨mark.reverse ++ passed, name :: rest⟩ =
      .ok false ⟨mark.reverse ++ passed, name :: rest⟩ :=
    leads_acceptSign_of_ne (by simp [hname]) _
  refine ⟨_, name, mark.reverse ++ passed, rfl, hname, ?_⟩
  rw [List.append_assoc, List.singleton_append,
    typeAt_succ (acceptSign_of_nullMark hmark hquestion passed),
    if_neg (by simp [peek_kind, hname]), bind_eq_of_ok hopen]
  exact typeName_of_identifier hname nullable [] _ _

/-- A type with arguments, from what comes of its opening sign. -/
theorem readsTypes_of_opening (hmark : NullMark nullable mark)
    (hopening : opening.kind ≠ .symbol .question) (hname : name.kind = .identifier)
    (hread : ∀ bound rest passed, us.length + 1 ≤ bound →
      acceptSign .question ⟨passed, mark ++ (opening :: us ++ closing :: name :: rest)⟩ =
        .ok nullable ⟨mark.reverse ++ passed, opening :: us ++ closing :: name :: rest⟩ →
      ∃ passed', typeAt (bound + 1)
          ⟨passed, mark ++ (opening :: us ++ closing :: name :: rest)⟩ =
        .ok ⟨name.value, nullable, args⟩ ⟨name :: passed', rest⟩) :
    ReadsTypes .type (mark ++ (opening :: us ++ [closing, name]))
      [⟨name.value, nullable, args⟩] := by
  intro bound rest passed hlength
  simp only [List.length_append, List.length_cons] at hlength
  obtain ⟨bound, rfl⟩ : ∃ k, bound = k + 1 := ⟨bound - 1, by omega⟩
  obtain ⟨passed', hread⟩ := hread bound rest passed (by omega)
    (acceptSign_of_nullMark hmark (by simpa using hopening) passed)
  refine ⟨_, name, passed', rfl, hname, ?_⟩
  rw [← hread]
  simp

theorem readsTypes_generic (hmark : NullMark nullable mark) (hopening : Sign .lt opening)
    (hargs : ReadsTypes .row us args) (hclosing : Sign .gt closing)
    (hname : name.kind = .identifier) :
    ReadsTypes .type (mark ++ (opening :: us ++ [closing, name]))
      [⟨name.value, nullable, args⟩] := by
  have hkind : opening.kind = .symbol .lt := hopening
  refine readsTypes_of_opening hmark (by simp [hkind]) hname ?_
  intro bound rest passed hlength hnull
  have hopen : acceptSign .lt ⟨mark.reverse ++ passed, opening :: us ++ closing :: name :: rest⟩ =
      .ok true ⟨opening :: (mark.reverse ++ passed), us ++ closing :: name :: rest⟩ :=
    leads_acceptSign hopening _
  rw [typeAt_succ hnull, if_neg (by simp [peek_kind, hkind]), bind_eq_of_ok hopen]
  exact type_of_row hargs (by omega) hclosing hname nullable _ rest

theorem readsTypes_doubled (hmark : NullMark nullable mark) (hopening : Sign .shl opening)
    (hargs : ReadsTypes .row (secondHalf opening :: us) args) (hclosing : Sign .gt closing)
    (hname : name.kind = .identifier) :
    ReadsTypes .type (mark ++ (opening :: us ++ [closing, name]))
      [⟨name.value, nullable, args⟩] := by
  have hkind : opening.kind = .symbol .shl := hopening
  refine readsTypes_of_opening hmark (by simp [hkind]) hname ?_
  intro bound rest passed hlength hnull
  rw [typeAt_succ hnull, if_pos (by simp [peek_kind, hkind])]
  exact type_of_row hargs hlength hclosing hname nullable (mark.reverse ++ passed) rest

theorem readsTypes_last (hpos : 1 ≤ ts.length) (h : ReadsTypes .type ts [ty]) :
    ReadsTypes .row ts [ty] := by
  intro bound k rest passed hbound hk hnext
  obtain ⟨k, rfl⟩ : ∃ j, k = j + 1 := ⟨k - 1, by omega⟩
  obtain ⟨ty', name, passed', heq, -, hread⟩ := h bound rest passed hbound
  cases heq
  have hcomma : acceptSign .comma ⟨name :: passed', rest⟩ = .ok false ⟨name :: passed', rest⟩ :=
    leads_acceptSign_of_ne hnext _
  refine ⟨name :: passed', ?_⟩
  rw [commaSeparated, bind_eq_of_ok hread, bind_eq_of_ok hcomma]
  rfl

theorem readsTypes_more (h : ReadsTypes .type ts [ty]) (hcomma : Sign .comma comma)
    (hrest : ReadsTypes .row us tys) : ReadsTypes .row (ts ++ comma :: us) (ty :: tys) := by
  intro bound k rest passed hbound hk hnext
  simp only [List.length_append, List.length_cons] at hbound hk
  obtain ⟨k, rfl⟩ : ∃ j, k = j + 1 := ⟨k - 1, by omega⟩
  obtain ⟨ty', name, passed', heq, -, hread⟩ := h bound (comma :: us ++ rest) passed (by omega)
  cases heq
  have hsep : acceptSign .comma ⟨name :: passed', comma :: us ++ rest⟩ =
      .ok true ⟨comma :: name :: passed', us ++ rest⟩ := leads_acceptSign hcomma _
  obtain ⟨passed'', hothers⟩ := hrest bound k rest (comma :: name :: passed') (by omega)
    (by omega) hnext
  refine ⟨passed'', ?_⟩
  rw [List.append_assoc, commaSeparated, bind_eq_of_ok hread, bind_eq_of_ok hsep, if_pos rfl,
    bind_eq_of_ok hothers]
  rfl

end Complete

/-- The parser reads the types that tokens write. -/
theorem readsTypes_of_annotates {phrase : TypePhrase} {ts : List Token} {tys : List Ty}
    (h : Annotates phrase ts tys) : ReadsTypes phrase ts tys := by
  induction h with
  | plain hmark hname => exact readsTypes_plain hmark hname
  | generic hmark hopening _ hclosing hname ih =>
      exact readsTypes_generic hmark hopening ih hclosing hname
  | doubled hmark hopening _ hclosing hname ih =>
      exact readsTypes_doubled hmark hopening ih hclosing hname
  | last h ih => exact readsTypes_last h.length_pos ih
  | more _ hcomma _ ih ihrest => exact readsTypes_more ih hcomma ihrest

/-- A type is read from the tokens that write it, whatever comes behind them. -/
theorem type_of_annotates {ts : List Token} {ty : Ty} (h : Annotates .type ts [ty])
    (passed rest : List Token) :
    ∃ name passed', name.kind = .identifier ∧
      type ⟨passed, ts ++ rest⟩ = .ok ty ⟨name :: passed', rest⟩ := by
  obtain ⟨ty', name, passed', heq, hname, hread⟩ := readsTypes_of_annotates h
    (2 * (ts ++ rest).length) rest passed (by simp; omega)
  cases heq
  exact ⟨name, passed', hname, hread⟩

theorem annotates_of_type {c c' : Cursor} {ty : Ty} (h : type c = .ok ty c') :
    ∃ ts, c.rest = ts ++ c'.rest ∧ Annotates .type ts [ty] :=
  annotates_of_typeAt h

end Parser

end ClassScript

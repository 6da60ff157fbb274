import ClassScript.Proofs.Extent
import ClassScript.Proofs.TypeGrammar

/-!
# Semicolons behind closing braces

Two runs of a parser: one on some tokens, and one on these tokens without some of the semicolons
that directly follow a closing brace. The first one is known to succeed, and the second follows it.

The two cursors are level as long as the same token comes next. When the first one stands before a
semicolon that the other lacks, both have just passed a closing brace. The second run could go
astray only there: at an `else` or an equals sign, which it would take for a part of what was just
closed. But then the first run has such a token behind a semicolon, where nothing can begin with it.
-/

namespace ClassScript

open Grammar (Sign)

/-- Tokens, and the same tokens without some semicolons behind closing braces. -/
inductive Sheds : List Token → List Token → Prop
  | nil : Sheds [] []
  | keep (t : Token) {ts us : List Token} (h : Sheds ts us) : Sheds (t :: ts) (t :: us)
  | drop {brace semicolon : Token} {ts us : List Token} (hbrace : Sign .rBrace brace)
      (hsemicolon : Sign .semicolon semicolon) (h : Sheds ts us) :
      Sheds (brace :: semicolon :: ts) (brace :: us)

namespace Sheds

theorem refl : ∀ ts : List Token, Sheds ts ts
  | [] => .nil
  | t :: ts => .keep t (refl ts)

theorem subset {ts us : List Token} (h : Sheds ts us) : us ⊆ ts := by
  induction h with
  | nil => exact fun _ => id
  | keep t _ ih => exact List.cons_subset_cons t ih
  | drop _ _ _ ih =>
      exact List.cons_subset_cons _ fun _ ht => List.mem_cons_of_mem _ (ih ht)

theorem append_left (ts : List Token) {us vs : List Token} (h : Sheds us vs) :
    Sheds (ts ++ us) (ts ++ vs) := by
  induction ts with
  | nil => exact h
  | cons t ts ih => exact .keep t ih

variable {t : Token} {ts us vs : List Token}

theorem eq_nil (h : Sheds [] us) : us = [] := by
  cases h
  rfl

/-- The same token comes first, and unless it is a closing brace nothing is missing behind it. -/
theorem cons_cases (h : Sheds (t :: ts) us) :
    ∃ vs, us = t :: vs ∧ (Sheds ts vs ∨ Sign .rBrace t ∧
      ∃ semicolon ts', Sign .semicolon semicolon ∧ ts = semicolon :: ts' ∧ Sheds ts' vs) := by
  cases h with
  | keep _ h => exact ⟨_, rfl, .inl h⟩
  | drop hbrace hsemicolon h => exact ⟨_, rfl, .inr ⟨hbrace, _, _, hsemicolon, rfl, h⟩⟩

theorem tail (h : Sheds (t :: ts) us) (ht : t.kind ≠ .symbol .rBrace) :
    ∃ vs, us = t :: vs ∧ Sheds ts vs := by
  obtain ⟨vs, hus, hvs | ⟨hbrace, -⟩⟩ := h.cons_cases
  · exact ⟨vs, hus, hvs⟩
  · exact absurd hbrace ht

theorem of_cons (h : Sheds ts (t :: us)) (ht : t.kind ≠ .symbol .rBrace) :
    ∃ vs, ts = t :: vs ∧ Sheds vs us := by
  cases h with
  | keep _ h => exact ⟨_, rfl, h⟩
  | drop hbrace => exact absurd hbrace ht

theorem drop_append (hts : ∀ t ∈ ts, t.kind ≠ .symbol .rBrace) (h : Sheds (ts ++ us) vs) :
    ∃ ws, vs = ts ++ ws ∧ Sheds us ws := by
  induction ts generalizing vs with
  | nil => exact ⟨vs, rfl, h⟩
  | cons t ts ih =>
      obtain ⟨ws, rfl, hws⟩ := h.tail (hts t List.mem_cons_self)
      obtain ⟨ws', rfl, hws'⟩ := ih (fun t ht => hts t (List.mem_cons_of_mem _ ht)) hws
      exact ⟨ws', rfl, hws'⟩

end Sheds

namespace Parser

/-! ## Two cursors -/

theorem nextToken_eq_of_sheds {ts us : List Token} (h : Sheds ts us) :
    nextToken ts = nextToken us := by
  cases h <;> rfl

theorem nextKind_eq_of_sheds {ts us : List Token} (h : Sheds ts us) : nextKind ts = nextKind us :=
  congrArg Token.kind (nextToken_eq_of_sheds h)

/-- What the second run needs of the tokens that are left to it. -/
structure Fits (good : Token → Prop) (m : Nat) (ts : List Token) : Prop where
  size : ts.length ≤ m
  ended : ∃ t ∈ ts, t.kind = .finish
  good : ∀ t ∈ ts, good t

def Braced (c : Cursor) : Prop :=
  c.passed.head?.any (·.kind = .symbol .rBrace)

structure Level (good : Token → Prop) (m : Nat) (c d : Cursor) : Prop where
  sheds : Sheds c.rest d.rest
  fits : Fits good m d.rest
  braced : Braced c → Braced d

/-- Only the first run has a semicolon before it. -/
structure Lags (good : Token → Prop) (m : Nat) (c d : Cursor) : Prop where
  sheds : ∃ semicolon ts, Sign .semicolon semicolon ∧ c.rest = semicolon :: ts ∧ Sheds ts d.rest
  fits : Fits good m d.rest

/-- Level, or at a semicolon that is missing behind a brace. -/
def Shed (good : Token → Prop) (m : Nat) (c d : Cursor) : Prop :=
  Level good m c d ∨ Lags good m c d ∧ Braced d

/-- Level, or at a semicolon that the second run has passed or lacks. -/
def Loose (good : Token → Prop) (m : Nat) (c d : Cursor) : Prop :=
  Level good m c d ∨ Lags good m c d

/-- Behind a token of some kind: level, unless the token is a brace. -/
def Behind (good : Token → Prop) (m : Nat) (kind : Kind) (c d : Cursor) : Prop :=
  Shed good m c d ∧ (kind ≠ .symbol .rBrace → Level good m c d)

/-- The tokens that go on with what a closing brace has closed. -/
def Resumes (kind : Kind) : Prop :=
  kind = .keyword .elseKw ∨ kind = .symbol .eq

def Halted (c : Cursor) : Prop :=
  Resumes (nextKind c.rest)

def Stuck (c : Cursor) : Prop :=
  ∃ semicolon ts, Sign .semicolon semicolon ∧ c.rest = semicolon :: ts ∧ Resumes (nextKind ts)

variable {good : Token → Prop} {m : Nat} {c d c' : Cursor} {t : Token}

theorem Fits.mono {n : Nat} {ts : List Token} (h : Fits good m ts) (hmn : m ≤ n) :
    Fits good n ts :=
  ⟨Nat.le_trans h.size hmn, h.ended, h.good⟩

theorem Fits.of_append {ts us : List Token} (h : Fits good (m + 1) (ts ++ us))
    (hts : ∀ t ∈ ts, t.kind ≠ .finish) (hlength : 1 ≤ ts.length) : Fits good m us := by
  refine ⟨?_, ?_, fun t ht => h.good t (List.mem_append_right _ ht)⟩
  · have hsize := h.size
    rw [List.length_append] at hsize
    omega
  · obtain ⟨t, ht, hfinish⟩ := h.ended
    rcases List.mem_append.mp ht with hmem | hmem
    · exact absurd hfinish (hts t hmem)
    · exact ⟨t, hmem, hfinish⟩

theorem Level.mono {n : Nat} (h : Level good m c d) (hmn : m ≤ n) : Level good n c d :=
  ⟨h.sheds, h.fits.mono hmn, h.braced⟩

theorem Level.peek_eq (h : Level good m c d) : c.peek = d.peek :=
  nextToken_eq_of_sheds h.sheds

theorem not_level_zero : ¬ Level good 0 c d := by
  intro h
  obtain ⟨t, ht, -⟩ := h.fits.ended
  rw [List.eq_nil_of_length_eq_zero (Nat.le_zero.mp h.fits.size)] at ht
  cases ht

/-- A phrase without a brace in it is there for the second run too. -/
theorem Level.rest_of_append {ts rest : List Token} (hcd : Level good (m + 1) c d)
    (hc : c.rest = ts ++ rest) (hts : ∀ t ∈ ts, t.kind ≠ .finish ∧ t.kind ≠ .symbol .rBrace)
    (hlength : 1 ≤ ts.length) :
    ∃ rest', d.rest = ts ++ rest' ∧ Sheds rest rest' ∧ Fits good m rest' := by
  have hsheds := hcd.sheds
  rw [hc] at hsheds
  obtain ⟨rest', hd, hrest⟩ := hsheds.drop_append fun t ht => (hts t ht).2
  have hfits := hcd.fits
  rw [hd] at hfits
  exact ⟨rest', hd, hrest, hfits.of_append (fun t ht => (hts t ht).1) hlength⟩

theorem Level.rest_ne_nil (h : Level good m c d) : c.rest ≠ [] := by
  intro hc
  have hsheds := h.sheds
  rw [hc] at hsheds
  obtain ⟨t, ht, -⟩ := h.fits.ended
  rw [hsheds.eq_nil] at ht
  cases ht

theorem Shed.mono {n : Nat} (h : Shed good m c d) (hmn : m ≤ n) : Shed good n c d := by
  rcases h with hlevel | ⟨hlags, hbraced⟩
  · exact .inl (hlevel.mono hmn)
  · exact .inr ⟨⟨hlags.sheds, hlags.fits.mono hmn⟩, hbraced⟩

theorem Lags.nextKind_eq (h : Lags good m c d) : nextKind c.rest = .symbol .semicolon := by
  obtain ⟨⟨semicolon, ts, hsemicolon, hc, -⟩, -⟩ := h
  rw [hc]
  exact hsemicolon

theorem Stuck.nextKind_eq (h : Stuck c) : nextKind c.rest = .symbol .semicolon := by
  obtain ⟨semicolon, ts, hsemicolon, hc, -⟩ := h
  rw [hc]
  exact hsemicolon

theorem Lags.stuck (h : Lags good m c d) (hd : Resumes (nextKind d.rest)) : Stuck c := by
  obtain ⟨⟨semicolon, ts, hsemicolon, hc, hsheds⟩, -⟩ := h
  exact ⟨semicolon, ts, hsemicolon, hc, nextKind_eq_of_sheds hsheds ▸ hd⟩

/-! ## Passing a token -/

structure Passes (t : Token) (c c' : Cursor) : Prop where
  rest : c.rest = t :: c'.rest
  passed : c'.passed = t :: c.passed

theorem Passes.eq (h : Passes t c c') :
    c = ⟨c.passed, t :: c'.rest⟩ ∧ c' = ⟨t :: c.passed, c'.rest⟩ :=
  ⟨by rw [← h.rest], by rw [← h.passed]⟩

/-- The cursor behind a token is known if a parser that passes the token came to it. -/
theorem passes_of_eq_ok {α : Type} {p : Parser α} {a : α} (h : p c = .ok a c')
    (hrest : c.rest = t :: c'.rest) (hp : ∀ d, Passes t c d → p c = .ok a d) : Passes t c c' := by
  have hpasses : Passes t c ⟨t :: c.passed, c'.rest⟩ := ⟨hrest, rfl⟩
  have hc' := (EStateM.Result.ok.inj (h.symm.trans (hp _ hpasses))).2
  rwa [← hc'] at hpasses

theorem advance_of_passes (h : Passes t c c') (ht : t.kind ≠ .finish) :
    advance c = .ok t c' := by
  obtain ⟨hc, hc'⟩ := h.eq
  rw [hc, hc']
  exact leads_advance ht c.passed

theorem passes_of_advance (h : advance c = .ok t c') (ht : t.kind ≠ .finish) : Passes t c c' := by
  obtain ⟨-, hrest⟩ := advance_eq_ok h
  exact passes_of_eq_ok h (hrest ht) fun _ hd => advance_of_passes hd ht

theorem accept_of_passes {kind : Kind} (h : Passes t c c') (hkind : t.kind = kind)
    (hfinish : kind ≠ .finish) : accept kind c = .ok true c' := by
  obtain ⟨hc, hc'⟩ := h.eq
  rw [hc, hc']
  exact leads_accept hfinish hkind c.passed

theorem accept_of_ne {kind : Kind} (h : nextKind c.rest ≠ kind) : accept kind c = .ok false c :=
  leads_accept_of_ne h c.passed

theorem accept_cases {kind : Kind} (hfinish : kind ≠ .finish) {b : Bool}
    (h : accept kind c = .ok b c') :
    (b = true ∧ ∃ t, t.kind = kind ∧ Passes t c c') ∨
      (b = false ∧ nextKind c.rest ≠ kind ∧ c' = c) := by
  rcases accept_eq_ok hfinish h with ⟨rfl, t, hkind, hrest⟩ | hne
  · have hpasses := passes_of_eq_ok h hrest fun _ hd => accept_of_passes hd hkind hfinish
    exact .inl ⟨rfl, t, hkind, hpasses⟩
  · exact .inr hne

theorem expect_of_passes {kind : Kind} (h : Passes t c c') (hkind : t.kind = kind)
    (hfinish : kind ≠ .finish) : expect kind c = .ok t c' := by
  obtain ⟨hc, hc'⟩ := h.eq
  rw [hc, hc']
  exact leads_expect hfinish hkind c.passed

theorem passes_of_expect {kind : Kind} (hfinish : kind ≠ .finish) (h : expect kind c = .ok t c') :
    t.kind = kind ∧ Passes t c c' := by
  obtain ⟨hkind, hrest⟩ := (expect_eq_ok h).2 hfinish
  exact ⟨hkind, passes_of_eq_ok h hrest fun _ hd => expect_of_passes hd hkind hfinish⟩

theorem braced_of_passes (h : Passes t c c') : Braced c' ↔ t.kind = .symbol .rBrace := by
  simp [Braced, h.passed]

/-- The second cursor passes the same token. -/
theorem Level.passes (h : Level good (m + 1) c d) (ht : Passes t c c')
    (hfinish : t.kind ≠ .finish) :
    ∃ d', Passes t d d' ∧ Behind good m t.kind c' d' := by
  have hsheds := h.sheds
  rw [ht.rest] at hsheds
  obtain ⟨us, hus, htail⟩ := hsheds.cons_cases
  have hpasses : Passes t d ⟨t :: d.passed, us⟩ := ⟨hus, rfl⟩
  have hall : Fits good (m + 1) ([t] ++ us) := by
    rw [List.singleton_append, ← hus]
    exact h.fits
  have hfits : Fits good m us := hall.of_append (by simpa using hfinish) (by simp)
  have hbraced : Braced c' → Braced ⟨t :: d.passed, us⟩ := fun hc =>
    (braced_of_passes hpasses).mpr ((braced_of_passes ht).mp hc)
  refine ⟨⟨t :: d.passed, us⟩, hpasses, ?_, fun hbrace => ?_⟩
  · rcases htail with hrest | ⟨hbrace, semicolon, ts, hsemicolon, hts, hrest⟩
    · exact .inl ⟨hrest, hfits, hbraced⟩
    · exact .inr ⟨⟨⟨semicolon, ts, hsemicolon, hts, hrest⟩, hfits⟩,
        (braced_of_passes hpasses).mpr hbrace⟩
  · rcases htail with hrest | ⟨hbrace', -⟩
    · exact ⟨hrest, hfits, hbraced⟩
    · exact absurd hbrace' hbrace

theorem Stuck.passes (h : Stuck c) (ht : Passes t c c') : Halted c' := by
  obtain ⟨semicolon, ts, -, hc, hresumes⟩ := h
  obtain ⟨rfl, rfl⟩ := List.cons.inj (hc.symm.trans ht.rest)
  exact hresumes

/-- Behind its semicolon the first cursor is level again. -/
theorem Lags.passes (h : Lags good m c d) (ht : Passes t c c') : Level good m c' d := by
  obtain ⟨⟨semicolon, ts, hsemicolon, hc, hsheds⟩, hfits⟩ := h
  obtain ⟨rfl, rfl⟩ := List.cons.inj (hc.symm.trans ht.rest)
  refine ⟨hsheds, hfits, fun hbraced => ?_⟩
  have hbrace := (braced_of_passes ht).mp hbraced
  rw [show semicolon.kind = _ from hsemicolon] at hbrace
  cases hbrace

/-! ## Two runs -/

/-- From cursors in one relation, the second parser follows the first to cursors in another one,
with the same value, unless the first ends at a cursor that is out of the question. -/
def Follows {α : Type} (out : Cursor → Prop) (S T : Cursor → Cursor → Prop) (p q : Parser α) :
    Prop :=
  ∀ ⦃c d : Cursor⦄ ⦃a : α⦄ ⦃c' : Cursor⦄, S c d → p c = .ok a c' →
    out c' ∨ ∃ d', q d = .ok a d' ∧ T c' d'

def Never (_ : Cursor) : Prop :=
  False

/-- A parser does not get away from some cursors but to others. -/
def Keeps {α : Type} (out out' : Cursor → Prop) (p : Parser α) : Prop :=
  ∀ ⦃c : Cursor⦄ ⦃a : α⦄ ⦃c' : Cursor⦄, out c → p c = .ok a c' → out' c'

theorem Keeps.bind {α β : Type} {out out' out'' : Cursor → Prop} {p : Parser α} {f : α → Parser β}
    (hp : Keeps out out' p) (hf : ∀ a, Keeps out' out'' (f a)) : Keeps out out'' (p >>= f) := by
  intro c b c' hout h
  obtain ⟨a, c₁, hpc, hfc⟩ := exists_of_bind_eq_ok h
  exact hf a (hp hout hpc) hfc

theorem Keeps.never {α : Type} {out : Cursor → Prop} (p : Parser α) : Keeps Never out p :=
  fun _ _ _ h => h.elim

namespace Follows

variable {α β : Type} {out out' : Cursor → Prop} {S S' T T' U : Cursor → Cursor → Prop}
  {p q p' q' : Parser α} {f g : α → Parser β}

theorem pure {a : α} : Follows out S S (Pure.pure a) (Pure.pure a) := by
  intro c d b c' hcd h
  obtain ⟨rfl, rfl⟩ := pure_eq_ok h
  exact .inr ⟨d, rfl, hcd⟩

theorem fails (h : ∀ c a c', p c ≠ .ok a c') : Follows out S T p q :=
  fun _ _ _ _ _ hp => absurd hp (h _ _ _)

theorem fail {cause : GrammarCause} : Follows out S T (fail cause t) q :=
  fails fun _ _ _ => nofun

theorem unexpected : Follows out S T unexpected q :=
  fails fun _ _ _ => nofun

theorem fail_bind {cause : GrammarCause} {f : α → Parser β} {q : Parser β} :
    Follows out S T (Parser.fail cause t >>= f) q :=
  fails fun _ _ _ => nofun

theorem mono (h : Follows out S T p q) (hS : ∀ c d, S' c d → S c d)
    (hT : ∀ c d, T c d → T' c d) : Follows out S' T' p q := by
  intro c d a c' hcd hp
  rcases h (hS c d hcd) hp with hout | ⟨d', hq, hT'⟩
  · exact .inl hout
  · exact .inr ⟨d', hq, hT c' d' hT'⟩

/-- What follows is enough to show of a first step that may end out of the question. -/
theorem bind (hp : Follows out S T p q) (hkeeps : ∀ a, Keeps out out' (f a))
    (hf : ∀ a, Follows out' T U (f a) (g a)) : Follows out' S U (p >>= f) (q >>= g) := by
  intro c d b c' hcd h
  obtain ⟨a, c₁, hpc, hfc⟩ := exists_of_bind_eq_ok h
  rcases hp hcd hpc with hout | ⟨d₁, hqd, hT⟩
  · exact .inl (hkeeps a hout hfc)
  · rw [bind_eq_of_ok hqd]
    exact hf a hT hfc

theorem seq (hp : Follows Never S T p q) (hf : ∀ a, Follows out T U (f a) (g a)) :
    Follows out S U (p >>= f) (q >>= g) :=
  bind hp (fun _ _ _ _ h => h.elim) hf

theorem of_never (h : Follows Never S T p q) : Follows out S T p q := by
  intro c d a c' hcd hp
  exact .inr ((h hcd hp).resolve_left fun h => h)

theorem keeps_pure (a : α) : Keeps out out (Pure.pure a : Parser α) := by
  intro c b c' hout h
  obtain ⟨-, rfl⟩ := pure_eq_ok h
  exact hout

/-- A last step that only makes a value. -/
theorem value (hp : Follows out S T p q) {v : α → β} :
    Follows out S T (p >>= fun a => Pure.pure (v a)) (q >>= fun a => Pure.pure (v a)) :=
  bind hp (fun _ => keeps_pure _) fun _ => pure

theorem map (hp : Follows out S T p q) {v : α → β} : Follows out S T (v <$> p) (v <$> q) := by
  rw [map_eq_pure_bind, map_eq_pure_bind]
  exact hp.value

theorem ite_of {P : Prop} [Decidable P] (hthen : P → Follows out S T p q)
    (helse : ¬ P → Follows out S T p' q') :
    Follows out S T (if P then p else p') (if P then q else q') := by
  split
  · next h => exact hthen h
  · next h => exact helse h

theorem ite {P : Prop} [Decidable P] (hthen : Follows out S T p q) (helse : Follows out S T p' q') :
    Follows out S T (if P then p else p') (if P then q else q') :=
  ite_of (fun _ => hthen) fun _ => helse

theorem or (h : Follows out S T p q) (h' : Follows out S' T p q) :
    Follows out (fun c d => S c d ∨ S' c d) T p q := by
  rintro c d a c' (hcd | hcd) hp
  · exact h hcd hp
  · exact h' hcd hp

/-! ### Steps -/

theorem of_zero : Follows out (Level good 0) T p q :=
  fun _ _ _ _ h => absurd h not_level_zero

/-- As it stands where it does not matter that a token was taken. -/
theorem level (h : ∀ m, Follows out (Level good (m + 1)) (Level good m) p q) :
    Follows out (Level good m) (Level good m) p q := by
  cases m with
  | zero => exact of_zero
  | succ m => exact (h m).mono (fun _ _ => id) fun _ _ h => h.mono (Nat.le_succ m)

theorem get {f g : Cursor → Parser β}
    (h : ∀ c d, S c d → Follows out (fun c' d' => c' = c ∧ d' = d) T (f c) (g d)) :
    Follows out S T (MonadState.get >>= f) (MonadState.get >>= g) :=
  fun c d _ _ hcd hp => h c d hcd ⟨rfl, rfl⟩ hp

/-- Reading how many tokens are left, which bounds what comes. -/
theorem left {R : Nat → Cursor → Cursor → Prop}
    (hR : ∀ ⦃c d : Cursor⦄ ⦃n : Nat⦄, R n c d → n ≤ m → R m c d) {f g : Cursor → Parser β}
    (h : ∀ c d, d.rest.length ≤ m →
      Follows out (Level good d.rest.length) (R d.rest.length) (f c) (g d)) :
    Follows out (Level good m) (R m) (MonadState.get >>= f) (MonadState.get >>= g) := by
  refine get fun c d hcd => (h c d hcd.fits.size).mono ?_ fun _ _ hR' => hR hR' hcd.fits.size
  rintro _ _ ⟨rfl, rfl⟩
  exact ⟨hcd.sheds, ⟨Nat.le_refl _, hcd.fits.ended, hcd.fits.good⟩, hcd.braced⟩

theorem peek (hS : ∀ ⦃c d : Cursor⦄, S c d → c.peek = d.peek) {f g : Token → Parser β}
    (h : ∀ t, Follows out (fun c d => S c d ∧ c.peek = t) T (f t) (g t)) :
    Follows out S T (Parser.peek >>= f) (Parser.peek >>= g) := by
  intro c d b c' hcd hp
  rw [peek_bind] at hp ⊢
  rw [← hS hcd]
  exact h c.peek ⟨hcd, rfl⟩ hp

theorem advance (hfinish : t.kind ≠ .finish) (hbrace : t.kind ≠ .symbol .rBrace) :
    Follows Never (fun c d => Level good (m + 1) c d ∧ c.peek = t) (Level good m) Parser.advance
      Parser.advance := by
  rintro c d a c' ⟨hcd, rfl⟩ hp
  obtain ⟨rfl, -⟩ := advance_eq_ok hp
  obtain ⟨d', hd, -, hlevel⟩ := hcd.passes (passes_of_advance hp hfinish) hfinish
  exact .inr ⟨d', advance_of_passes hd hfinish, hlevel hbrace⟩

theorem pass (hfinish : t.kind ≠ .finish) (hbrace : t.kind ≠ .symbol .rBrace) :
    Follows Never (fun c d => Level good m c d ∧ c.peek = t) (Level good m) Parser.advance
      Parser.advance := by
  cases m with
  | zero => exact of_zero.mono (fun _ _ h => h.1) fun _ _ => id
  | succ m =>
      exact (advance hfinish hbrace).mono (fun _ _ => id) fun _ _ h => h.mono (Nat.le_succ m)

theorem check (kind : Kind) :
    Follows Never (Level good m) (Level good m) (Parser.check kind) (Parser.check kind) := by
  intro c d b c' hcd hp
  cases hp
  refine .inr ⟨d, ?_, hcd⟩
  rw [hcd.peek_eq]
  rfl

theorem expect {kind : Kind} (hfinish : kind ≠ .finish) : Follows Never (Level good (m + 1))
    (Behind good m kind) (Parser.expect kind) (Parser.expect kind) := by
  intro c d t c' hcd hp
  obtain ⟨rfl, hpasses⟩ := passes_of_expect hfinish hp
  obtain ⟨d', hd, hbehind⟩ := hcd.passes hpasses hfinish
  exact .inr ⟨d', expect_of_passes hd rfl hfinish, hbehind⟩

theorem expect_level {kind : Kind} (hfinish : kind ≠ .finish) (hbrace : kind ≠ .symbol .rBrace) :
    Follows Never (Level good (m + 1)) (Level good m) (Parser.expect kind)
      (Parser.expect kind) := by
  refine (expect hfinish).mono (fun _ _ => id) ?_
  intro c d hbehind
  exact hbehind.2 hbrace

theorem expectSign {s : Symbol} (hbrace : s ≠ .rBrace) :
    Follows Never (Level good (m + 1)) (Level good m) (Parser.expectSign s) (Parser.expectSign s) :=
  (expect_level (by nofun) (by simpa using hbrace)).value

/-- Behind a closing brace a semicolon may be missing. -/
theorem expectBrace : Follows Never (Level good m) (Shed good m) (Parser.expectSign .rBrace)
    (Parser.expectSign .rBrace) := by
  cases m with
  | zero => exact of_zero
  | succ m =>
      refine value ((expect (by nofun)).mono (fun _ _ => id) fun _ _ h => ?_)
      exact h.1.mono (Nat.le_succ m)

theorem expectWord (word : Keyword) : Follows Never (Level good (m + 1)) (Level good m)
    (Parser.expectWord word) (Parser.expectWord word) :=
  (expect_level (by nofun) (by nofun)).value

theorem expectName :
    Follows Never (Level good (m + 1)) (Level good m) Parser.expectName Parser.expectName :=
  (expect_level (by nofun) (by nofun)).value

/-- Taking a token that is not looked at before. -/
theorem advance_bind {f g : Token → Parser β}
    (hf : ∀ t, t.kind ≠ .finish → t.kind ≠ .symbol .rBrace →
      Follows out (Level good m) T (f t) (g t))
    (hfails : ∀ t, t.kind = .finish ∨ t.kind = .symbol .rBrace → ∀ c a c', f t c ≠ .ok a c') :
    Follows out (Level good m) T (Parser.advance >>= f) (Parser.advance >>= g) := by
  intro c d b c' hcd hp
  obtain ⟨t, c₁, hadvance, hft⟩ := exists_of_bind_eq_ok hp
  have hother : ¬ (t.kind = .finish ∨ t.kind = .symbol .rBrace) := fun h => hfails t h _ _ _ hft
  rw [not_or] at hother
  cases m with
  | zero => exact absurd hcd not_level_zero
  | succ m =>
      have hpasses := passes_of_advance hadvance hother.1
      obtain ⟨d₁, hd, -, hlevel⟩ := hcd.passes hpasses hother.1
      rw [bind_eq_of_ok (advance_of_passes hd hother.1)]
      exact hf t hother.1 hother.2 ((hlevel hother.2).mono (Nat.le_succ m)) hft

/-- One of two ways, by whether a token was taken. -/
theorem accept {kind : Kind} (hfinish : kind ≠ .finish) {f g : Bool → Parser β}
    (htrue : Follows out (Behind good m kind) T (f true) (g true))
    (hfalse : Follows out (Level good (m + 1)) T (f false) (g false)) :
    Follows out (Level good (m + 1)) T (Parser.accept kind >>= f) (Parser.accept kind >>= g) := by
  intro c d b c' hcd hp
  obtain ⟨found, c₁, haccept, hf⟩ := exists_of_bind_eq_ok hp
  rcases accept_cases hfinish haccept with ⟨rfl, t, rfl, hpasses⟩ | ⟨rfl, hne, rfl⟩
  · obtain ⟨d₁, hd, hbehind⟩ := hcd.passes hpasses hfinish
    rw [bind_eq_of_ok (accept_of_passes hd rfl hfinish)]
    exact htrue hbehind hf
  · rw [← peek_kind, hcd.peek_eq, peek_kind] at hne
    rw [bind_eq_of_ok (accept_of_ne hne)]
    exact hfalse hcd hf

theorem accept_level {kind : Kind} (hfinish : kind ≠ .finish) (hbrace : kind ≠ .symbol .rBrace)
    {f g : Bool → Parser β} (htrue : Follows out (Level good m) T (f true) (g true))
    (hfalse : Follows out (Level good (m + 1)) T (f false) (g false)) :
    Follows out (Level good (m + 1)) T (Parser.accept kind >>= f) (Parser.accept kind >>= g) := by
  refine accept hfinish (htrue.mono ?_ fun _ _ => id) hfalse
  intro c d hbehind
  exact hbehind.2 hbrace

theorem acceptBrace {f g : Bool → Parser β} (htrue : Follows out (Shed good m) T (f true) (g true))
    (hfalse : Follows out (Level good (m + 1)) T (f false) (g false)) :
    Follows out (Level good (m + 1)) T (Parser.acceptSign .rBrace >>= f)
      (Parser.acceptSign .rBrace >>= g) := by
  refine accept (by nofun) (htrue.mono ?_ fun _ _ => id) hfalse
  intro c d hbehind
  exact hbehind.1

theorem acceptSign {s : Symbol} (hbrace : s ≠ .rBrace) : Follows Never (Level good m) (Level good m)
    (Parser.acceptSign s) (Parser.acceptSign s) := by
  cases m with
  | zero => exact of_zero
  | succ m =>
      have htrue : Follows Never (Level good m) (Level good (m + 1)) (Pure.pure true)
          (Pure.pure true) := pure.mono (fun _ _ h => h.mono (Nat.le_succ m)) fun _ _ => id
      have hsame : Follows Never (Level good (m + 1)) (Level good (m + 1))
          (Parser.acceptSign s >>= Pure.pure) (Parser.acceptSign s >>= Pure.pure) :=
        accept_level (by nofun) (by simpa using hbrace) htrue pure
      rwa [bind_pure] at hsame

theorem optional {s : Symbol} (hbrace : s ≠ .rBrace)
    (hp : Follows Never (Level good m) (Level good m) p q) : Follows Never (Level good m)
      (Level good m) (Parser.optional s p) (Parser.optional s q) :=
  seq (acceptSign hbrace) fun _ => ite hp.map pure

theorem commaSeparated (hp : ∀ m, Follows Never (Level good (m + 1)) (Level good m) p q) (k : Nat) :
    ∀ m, Follows Never (Level good m) (Level good m) (Parser.commaSeparated p k)
      (Parser.commaSeparated q m) := by
  induction k with
  | zero => exact fun _ => unexpected
  | succ k ih =>
      intro m
      cases m with
      | zero => exact of_zero
      | succ m =>
          refine mono (T := Level good m) ?_ (fun _ _ => id) fun _ _ h => h.mono (Nat.le_succ m)
          exact seq (hp m) fun _ => seq (acceptSign (by nofun)) fun _ => ite (ih m).value pure

theorem type : Follows Never (Level good (m + 1)) (Level good m) Parser.type Parser.type := by
  intro c d ty c' hcd hp
  obtain ⟨ts, hts, hty⟩ := annotates_of_type hp
  obtain ⟨rest, hd, hrest, hfits⟩ := hcd.rest_of_append hts hty.kind_ne hty.length_pos
  obtain ⟨name, passed, hname, hread⟩ := type_of_annotates hty c.passed c'.rest
  obtain ⟨name', passed', -, hread'⟩ := type_of_annotates hty d.passed rest
  rw [← hts] at hread
  rw [← hd] at hread'
  -- the name of the type was passed last, which is no brace
  have hc' := congrArg Cursor.passed (EStateM.Result.ok.inj (hp.symm.trans hread)).2
  refine .inr ⟨_, hread', hrest, hfits, fun hbraced => ?_⟩
  simp [Braced, hc', hname] at hbraced

theorem expression {string string' : StringRule}
    (hgood : ∀ t, good t → ∀ quote, t.kind = .string quote → ∀ e, string t = .ok e →
      string' t = .ok e) :
    Follows Never (Level good (m + 1)) (Level good m) (expressionWith string)
      (expressionWith string') := by
  intro c d e c' hcd hp
  obtain ⟨ts, hts, hderives, hcloses, hc'⟩ := derives_of_expression hp
  have hpos := length_pos_of_derives hderives nofun
  have hkinds : ∀ t ∈ ts, t.kind ≠ .finish ∧ t.kind ≠ .symbol .rBrace := fun t ht =>
    ⟨hderives.kind_ne_finish t ht, hderives.kind_ne_rBrace t ht⟩
  obtain ⟨rest, hd, hrest, hfits⟩ := hcd.rest_of_append hts hkinds hpos
  have hderives' : Grammar.Derives string' .assign ts e := by
    refine hderives.mono fun t ht => hgood t (hcd.fits.good t ?_)
    rw [hd]
    exact List.mem_append_left _ ht
  have hread := expression_of_derives hderives' (nextKind_eq_of_sheds hrest ▸ hcloses) d.passed
  rw [← hd] at hread
  refine .inr ⟨_, hread, hrest, hfits, fun hbraced => ?_⟩
  obtain ⟨ts, last, rfl⟩ := List.eq_nil_or_concat' ts |>.resolve_left (by rintro rfl; simp at hpos)
  simp only [Braced, hc', List.reverse_append, List.reverse_cons, List.reverse_nil, List.nil_append,
    List.cons_append, List.head?_cons, Option.any_some, decide_eq_true_eq] at hbraced
  exact absurd hbraced (hkinds last (by simp)).2

/-! ### Behind a brace -/

/-- The first run passes its semicolon, and the second stands still. -/
theorem skip {f : Bool → Parser β} {q : Parser β} (h : Follows out (Level good m) T (f true) q) :
    Follows out (Lags good m) T (Parser.acceptSign .semicolon >>= f) q := by
  intro c d b c' hcd hp
  obtain ⟨found, c₁, haccept, hf⟩ := exists_of_bind_eq_ok hp
  rcases accept_cases (by nofun) haccept with ⟨rfl, t, -, hpasses⟩ | ⟨rfl, hne, -⟩
  · exact h (hcd.passes hpasses) hf
  · exact absurd hcd.nextKind_eq hne

/-- A loop that passes semicolons: what one round does is enough to know. -/
theorem loop {I : Type} {M : Nat} {R : Nat → Cursor → Cursor → Prop}
    (hR : ∀ ⦃c d : Cursor⦄ ⦃n m : Nat⦄, R n c d → n ≤ m → R m c d) {p q f g : I → Nat → Parser α}
    (hzero : ∀ i c a c', p i 0 c ≠ .ok a c')
    (hp : ∀ i k, p i (k + 1) = do if ← Parser.acceptSign .semicolon then p i k else f i k)
    (hq : ∀ i m, q i (m + 1) = do if ← Parser.acceptSign .semicolon then q i m else g i m)
    (hround : ∀ i k m, m < M →
      (∀ j, Follows Never (Loose good m) (R (m + 1)) (p j k) (q j m)) →
      Follows Never (Level good (m + 1)) (R (m + 1)) (f i k) (g i m)) (k : Nat) :
    ∀ i m, m ≤ M → Follows Never (Loose good m) (R m) (p i k) (q i m) := by
  induction k with
  | zero => exact fun i _ _ => fails (hzero i)
  | succ k ih =>
      intro i m hm
      have hagain : Follows Never (Level good m) (R m) (p i k) (q i m) :=
        (ih i m hm).mono (fun _ _ => .inl) fun _ _ => id
      rw [hp]
      refine or ?_ (skip hagain)
      cases m with
      | zero => exact of_zero
      | succ m =>
          have hrest : ∀ j, Follows Never (Loose good m) (R (m + 1)) (p j k) (q j m) := fun j =>
            (ih j m (by omega)).mono (fun _ _ => id) fun _ _ h => hR h (Nat.le_succ m)
          rw [hq]
          exact accept_level (by nofun) (by nofun) ((hrest i).mono (fun _ _ => .inl) fun _ _ => id)
            (hround i k m hm hrest)

/-- Whether what was closed goes on; at a semicolon it does not. If it does for the second run only,
the first one is stuck. -/
theorem resume {kind : Kind} (hkind : Resumes kind) {f g : Bool → Parser β}
    (htrue : Follows Stuck (Level good m) T (f true) (g true))
    (hfalse : Follows Stuck (Shed good m) T (f false) (g false))
    (hkeeps : Keeps Stuck Stuck (f false)) :
    Follows Stuck (Shed good m) T (Parser.accept kind >>= f) (Parser.accept kind >>= g) := by
  have hother : kind ≠ .finish ∧ kind ≠ .symbol .rBrace ∧ .symbol .semicolon ≠ kind := by
    rcases hkind with rfl | rfl <;> simp
  rintro c d b c' (hcd | ⟨hlags, hbraced⟩) hp
  · cases m with
    | zero => exact absurd hcd not_level_zero
    | succ m =>
        exact accept_level hother.1 hother.2.1
          (htrue.mono (fun _ _ h => h.mono (Nat.le_succ m)) fun _ _ => id)
          (hfalse.mono (fun _ _ => .inl) fun _ _ => id) hcd hp
  · have hne : nextKind c.rest ≠ kind := hlags.nextKind_eq ▸ hother.2.2
    rw [bind_eq_of_ok (accept_of_ne hne)] at hp
    by_cases hd : nextKind d.rest = kind
    · exact .inl (hkeeps (hlags.stuck (hd ▸ hkind)) hp)
    · rw [bind_eq_of_ok (accept_of_ne hd)]
      exact hfalse (.inr ⟨hlags, hbraced⟩) hp

end Follows

theorem keeps_resume {β : Type} {kind : Kind} (hkind : Resumes kind) {f : Bool → Parser β}
    (h : Keeps Stuck Stuck (f false)) : Keeps Stuck Stuck (accept kind >>= f) := by
  intro c b c' hstuck hp
  have hne : nextKind c.rest ≠ kind := by
    rw [hstuck.nextKind_eq]
    rcases hkind with rfl | rfl <;> simp
  rw [bind_eq_of_ok (accept_of_ne hne)] at hp
  exact h hstuck hp

/-! ### Ends -/

/-- How an end is read: as a semicolon, or as nothing at some tokens and behind a brace. -/
structure Separates (stop : Kind → Prop) (p : Parser Unit) : Prop where
  taken : ∀ ⦃t : Token⦄ ⦃c c' : Cursor⦄, Sign .semicolon t → Passes t c c' → p c = .ok () c'
  free : ∀ ⦃c : Cursor⦄, nextKind c.rest ≠ .symbol .semicolon → stop (nextKind c.rest) ∨ Braced c →
    p c = .ok () c
  cases : ∀ ⦃c c' : Cursor⦄ ⦃u : Unit⦄, p c = .ok u c' →
    (∃ t, Sign .semicolon t ∧ Passes t c c') ∨
      c' = c ∧ nextKind c.rest ≠ .symbol .semicolon ∧ (stop (nextKind c.rest) ∨ Braced c)

def Waits (P : Cursor → Prop) (q : Parser Unit) : Prop :=
  ∀ ⦃c : Cursor⦄ ⦃u : Unit⦄ ⦃c' : Cursor⦄, q c = .ok u c' ↔ P c ∧ c' = c

theorem waits_of_fails {q : Parser Unit} (h : ∀ c u c', q c ≠ .ok u c') :
    Waits (fun _ => False) q := by
  intro c u c'
  constructor
  · intro hq
    exact absurd hq (h c u c')
  · intro hnever
    exact hnever.1.elim

theorem Waits.or {P Q : Cursor → Prop} {q : Parser Unit} {test : Parser Bool} {b : Cursor → Bool}
    (htest : ∀ c, test c = .ok (b c) c) (hb : ∀ c, b c ↔ P c) (hq : Waits Q q) :
    Waits (fun c => P c ∨ Q c) (do if ← test then return () else q) := by
  intro c u c'
  rw [bind_eq_of_ok (htest c)]
  have hP := hb c
  cases htaken : b c with
  | true =>
      rw [htaken] at hP
      constructor
      · intro h
        obtain ⟨-, rfl⟩ := pure_eq_ok h
        exact ⟨.inl (hP.mp rfl), rfl⟩
      · rintro ⟨-, rfl⟩
        rfl
  | false =>
      rw [htaken] at hP
      have hnot : ¬ P c := fun h => nomatch hP.mpr h
      simpa [hnot] using @hq c u c'

theorem waits_check {Q : Cursor → Prop} {q : Parser Unit} (kind : Kind) (hq : Waits Q q) :
    Waits (fun c => nextKind c.rest = kind ∨ Q c) (do if ← check kind then return () else q) :=
  .or (fun _ => rfl) (fun _ => decide_eq_true_iff) hq

theorem waits_afterBrace {Q : Cursor → Prop} {q : Parser Unit} (hq : Waits Q q) :
    Waits (fun c => Braced c ∨ Q c) (do if ← afterBrace then return () else q) :=
  .or (fun _ => rfl) (fun _ => .rfl) hq

theorem separates_of_waits {stop : Kind → Prop} {P : Cursor → Prop} {q : Parser Unit}
    (hq : Waits P q) (hP : ∀ c, P c ↔ stop (nextKind c.rest) ∨ Braced c) :
    Separates stop (do if ← acceptSign .semicolon then return () else q) where
  taken t c c' ht hpasses := by
    have haccept : acceptSign .semicolon c = .ok true c' := accept_of_passes hpasses ht (by nofun)
    rw [bind_eq_of_ok haccept]
    rfl
  free c hne hstop := by
    have haccept : acceptSign .semicolon c = .ok false c := accept_of_ne hne
    rw [bind_eq_of_ok haccept]
    exact hq.mpr ⟨(hP c).mpr hstop, rfl⟩
  cases c c' u h := by
    obtain ⟨found, c₁, haccept, h₁⟩ := exists_of_bind_eq_ok h
    rcases accept_cases (by nofun) haccept with ⟨rfl, t, ht, hpasses⟩ | ⟨rfl, hne, rfl⟩
    · obtain ⟨-, rfl⟩ := pure_eq_ok h₁
      exact .inl ⟨t, ht, hpasses⟩
    · obtain ⟨hstop, rfl⟩ := hq.mp h₁
      exact .inr ⟨rfl, hne, (hP _).mp hstop⟩

theorem separates_memberEnd : Separates (· = .symbol .rBrace) memberEnd := by
  have hfails := waits_of_fails (q := peek >>= fail .memberTerminator) fun _ _ _ => nofun
  have hwaits := waits_check (.symbol .rBrace) (waits_afterBrace hfails)
  exact separates_of_waits hwaits fun _ => by simp

theorem separates_statementEnd :
    Separates (fun kind => kind = .symbol .rBrace ∨ kind = .finish) statementEnd := by
  have hfails := waits_of_fails (q := unexpected) fun _ _ _ => nofun
  have hwaits := waits_check (.symbol .rBrace) (waits_check .finish (waits_afterBrace hfails))
  exact separates_of_waits hwaits fun _ => by simp [or_assoc]

theorem Separates.keeps {stop : Kind → Prop} {p : Parser Unit} (h : Separates stop p) :
    Keeps Stuck Halted p := by
  intro c u c' hstuck hp
  rcases h.cases hp with ⟨t, -, hpasses⟩ | ⟨-, hne, -⟩
  · exact hstuck.passes hpasses
  · exact absurd hstuck.nextKind_eq hne

/-- Behind an end the second run may be ahead by a semicolon. -/
theorem Separates.follows {stop : Kind → Prop} {p : Parser Unit} (h : Separates stop p) :
    Follows Never (Shed good m) (Loose good m) p p := by
  rintro c d u c' (hcd | ⟨hlags, hbraced⟩) hp
  · rcases h.cases hp with ⟨t, ht, hpasses⟩ | ⟨rfl, hne, hstop⟩
    · cases m with
      | zero => exact absurd hcd not_level_zero
      | succ m =>
          obtain ⟨d', hd, -, hlevel⟩ := hcd.passes hpasses ht.kind_ne_finish
          exact .inr ⟨d', h.taken ht hd,
            .inl ((hlevel (ht.kind_ne_rBrace nofun)).mono (Nat.le_succ m))⟩
    · have hnext : nextKind c'.rest = nextKind d.rest := congrArg Token.kind hcd.peek_eq
      rw [hnext] at hne hstop
      exact .inr ⟨d, h.free hne (hstop.imp_right hcd.braced), .inl hcd⟩
  · rcases h.cases hp with ⟨t, ht, hpasses⟩ | ⟨-, hne, -⟩
    · have hcd := hlags.passes hpasses
      by_cases hd : nextKind d.rest = .symbol .semicolon
      · -- the second run takes a semicolon that the first one has still before it
        obtain ⟨t', us, hus, hkind⟩ := exists_cons_of_nextKind hd (by simp)
        have ht' : Sign .semicolon t' := hkind
        have hsheds := hcd.sheds
        have hfits : Fits good m ([t'] ++ us) := by
          rw [List.singleton_append, ← hus]
          exact hcd.fits
        rw [hus] at hsheds
        obtain ⟨vs, hvs, hsheds⟩ := hsheds.of_cons (ht'.kind_ne_rBrace nofun)
        have hd' : Passes t' d ⟨t' :: d.passed, us⟩ := ⟨hus, rfl⟩
        refine .inr ⟨_, h.taken ht' hd', .inr ⟨⟨t', vs, ht', hvs, hsheds⟩, ?_⟩⟩
        exact (hfits.mono (Nat.le_succ m)).of_append (by simpa using ht'.kind_ne_finish) (by simp)
      · exact .inr ⟨d, h.free hd (.inr hbraced), .inl hcd⟩
    · exact absurd hlags.nextKind_eq hne

end Parser

end ClassScript

import ClassScript.Proofs.Descent
import ClassScript.Proofs.SeparatorGrammar

/-!
# The bounds are never reached

Where a token for the end is ahead, the descent ends and does what the bounded parser does, if the
bound is at least the number of tokens that are left. Every round of a loop and every nested call
takes a token before the next, and no step goes past the end. Only the sign `<<` is looked at twice:
it becomes `<` without a token being taken, so the bound for types counts every token double.
-/

namespace ClassScript

/-! ## Going forward -/

namespace Cursor

theorem next_of_finish {c : Cursor} (h : c.peek.kind = .finish) : c.next = c := by
  obtain ⟨passed, _ | ⟨t, ts⟩⟩ := c
  · rfl
  · exact if_pos h

def limit (c : Cursor) : Nat :=
  c.tokens.findIdx (·.kind = .finish)

/-- Not past the end, the end is the first one of those that are left. -/
theorem limit_eq_of_le {c : Cursor} (h : c.index ≤ c.limit) :
    c.limit = c.index + c.rest.findIdx (·.kind = .finish) := by
  simp only [limit, tokens, index, List.findIdx_append, List.length_reverse] at h ⊢
  split at h
  · omega
  · next hpassed => rw [if_neg hpassed, Nat.add_comm]

/-- A later state of a cursor: the end stays where it is, and the cursor does not go past it. -/
structure Forward (c d : Cursor) : Prop where
  length : d.index + d.rest.length = c.index + c.rest.length
  index : c.index ≤ d.index
  limit : d.limit = c.limit
  inside : c.index ≤ c.limit → d.index ≤ d.limit

namespace Forward

variable {c d e : Cursor}

theorem refl (c : Cursor) : c.Forward c :=
  ⟨rfl, Nat.le_refl _, rfl, id⟩

theorem trans (h : c.Forward d) (h' : d.Forward e) : c.Forward e where
  length := h'.length.trans h.length
  index := Nat.le_trans h.index h'.index
  limit := h'.limit.trans h.limit
  inside := h'.inside ∘ h.inside

theorem index_le (h : c.Forward d) (hinside : c.index ≤ c.limit) : d.index ≤ c.limit :=
  h.limit ▸ h.inside hinside

theorem next (c : Cursor) : c.Forward c.next := by
  obtain ⟨passed, _ | ⟨t, ts⟩⟩ := c
  · exact refl _
  · by_cases hkind : t.kind = .finish
    · have hstays : Cursor.next ⟨passed, t :: ts⟩ = ⟨passed, t :: ts⟩ := next_of_finish hkind
      rw [hstays]
      exact refl _
    · rw [next_cons hkind]
      have hlimit : Cursor.limit ⟨t :: passed, ts⟩ = Cursor.limit ⟨passed, t :: ts⟩ := by
        simp [Cursor.limit, Cursor.tokens]
      refine ⟨by simp [Cursor.index]; omega, by simp [Cursor.index], hlimit, fun hinside => ?_⟩
      -- the token that is passed is not the end, which is further on
      rw [hlimit, limit_eq_of_le hinside]
      simp [Cursor.index, List.findIdx_cons, hkind]

/-- No token becomes one for the end, and none ceases to be one. -/
theorem replace {c : Cursor} {kind : Kind} {value : String} (hpeek : c.peek.kind ≠ .finish)
    (hkind : kind ≠ .finish) :
    c.Forward (c.replace { c.peek with kind := kind, value := value }) := by
  obtain ⟨passed, _ | ⟨t, ts⟩⟩ := c
  · exact absurd rfl hpeek
  · have hlimit : Cursor.limit (Cursor.replace ⟨passed, t :: ts⟩
        { Cursor.peek ⟨passed, t :: ts⟩ with kind := kind, value := value }) =
        Cursor.limit ⟨passed, t :: ts⟩ := by
      have ht : t.kind ≠ .finish := hpeek
      simp [Cursor.limit, Cursor.tokens, Cursor.replace, List.findIdx_append, List.findIdx_cons,
        hkind, ht]
    refine ⟨by simp [Cursor.index, Cursor.replace], Nat.le_refl _, hlimit, fun hinside => ?_⟩
    rw [hlimit]
    exact hinside

end Forward

end Cursor

/-! ## Two runs -/

namespace Attempt

variable {α β : Type}

def outcome (q : Attempt α) (c : Cursor) : Option (Except Diagnostic α × Cursor) :=
  q.run.run c

theorem outcome_lift_of_ok {p : Parser α} {a : α} {c d : Cursor} (h : p c = .ok a d) :
    outcome (liftM p) c = some (.ok a, d) := by
  change ofParser p c = _
  rw [ofParser, h]

theorem outcome_lift_of_error {p : Parser α} {fault : Diagnostic} {c d : Cursor}
    (h : p c = .error fault d) : outcome (liftM p) c = some (.error fault, d) := by
  change ofParser p c = _
  rw [ofParser, h]

theorem outcome_bind_of_ok {q : Attempt α} {g : α → Attempt β} {a : α} {c d : Cursor}
    (h : q.outcome c = some (.ok a, d)) : (q >>= g).outcome c = (g a).outcome d := by
  change (q.outcome c).bind _ = _
  rw [h]
  rfl

theorem outcome_bind_of_error {q : Attempt α} {g : α → Attempt β} {fault : Diagnostic}
    {c d : Cursor} (h : q.outcome c = some (.error fault, d)) :
    (q >>= g).outcome c = some (.error fault, d) := by
  change (q.outcome c).bind _ = _
  rw [h]
  rfl

end Attempt

namespace Descent

open Attempt

variable {α β : Type}

/-- A rule that calls the others takes one more level than they do. -/
theorem exists_depth_of_succ {P : Nat → Prop} (h : ∃ depth, ∀ n ≥ depth, P (n + 1)) :
    ∃ depth, ∀ n ≥ depth, P n := by
  obtain ⟨depth, h⟩ := h
  refine ⟨depth + 1, fun n hn => ?_⟩
  obtain ⟨k, rfl⟩ : ∃ k, n = k + 1 := ⟨n - 1, by omega⟩
  exact h k (by omega)

/-- A call ends: it has this outcome at all sufficient depths. -/
def Ends (q : Descent α) (c : Cursor) (r : Except Diagnostic α × Cursor) : Prop :=
  ∃ depth, ∀ n ≥ depth, (q n).outcome c = some r

namespace Ends

variable {q : Descent α} {g : Nat → α → Attempt β} {c d : Cursor}

theorem of_forall {r : Except Diagnostic α × Cursor} (h : ∀ n, (q n).outcome c = some r) :
    q.Ends c r :=
  ⟨0, fun n _ => h n⟩

theorem bind {a : α} {r : Except Diagnostic β × Cursor} (hq : q.Ends c (.ok a, d))
    (hg : Ends (fun n => g n a) d r) : Ends (fun n => q n >>= g n) c r := by
  obtain ⟨depth, hq⟩ := hq
  obtain ⟨depth', hg⟩ := hg
  refine ⟨max depth depth', fun n hn => ?_⟩
  rw [outcome_bind_of_ok (hq n (by omega)), hg n (by omega)]

theorem bind_error {fault : Diagnostic} (h : q.Ends c (.error fault, d)) :
    Ends (fun n => q n >>= g n) c (.error fault, d) := by
  obtain ⟨depth, h⟩ := h
  exact ⟨depth, fun n hn => outcome_bind_of_error (h n hn)⟩

theorem lift_bind {x : Parser α} {a : α} {r : Except Diagnostic β × Cursor} (hx : x c = .ok a d)
    (hg : Ends (fun n => g n a) d r) : Ends (fun n => liftM x >>= g n) c r :=
  bind (of_forall fun _ => outcome_lift_of_ok hx) hg

end Ends

/-- The outcome is that of a parser, and it is further on; a success leaves a cursor in `T`. -/
inductive Settles (T : Cursor → Prop) (c : Cursor) :
    Except Diagnostic α × Cursor → EStateM.Result Diagnostic Cursor α → Prop
  | ok {a : α} {d : Cursor} (hforward : c.Forward d) (hd : T d) : Settles T c (.ok a, d) (.ok a d)
  | error {fault : Diagnostic} {d : Cursor} (hforward : c.Forward d) :
      Settles T c (.error fault, d) (.error fault d)

def Tracks (S T : Cursor → Prop) (q : Descent α) (p : Parser α) : Prop :=
  ∀ c, S c → ∃ r, q.Ends c r ∧ Settles T c r (p c)

theorem Settles.after {T : Cursor → Prop} {c d : Cursor} {r : Except Diagnostic α × Cursor}
    {x : EStateM.Result Diagnostic Cursor α} (h : Settles T d r x) (hforward : c.Forward d) :
    Settles T c r x := by
  cases h with
  | ok hforward' hT => exact .ok (hforward.trans hforward') hT
  | error hforward' => exact .error (hforward.trans hforward')

namespace Tracks

variable {S S' T T' U : Cursor → Prop} {q q' : Descent α} {p p' : Parser α}
  {g : Nat → α → Attempt β} {f : α → Parser β}

theorem of_succ (hq : ∀ n, q (n + 1) = q' n) (h : Tracks S T q' p) : Tracks S T q p := by
  intro c hc
  obtain ⟨r, ⟨depth, hdepth⟩, hsettles⟩ := h c hc
  refine ⟨r, exists_depth_of_succ ⟨depth, fun n hn => ?_⟩, hsettles⟩
  rw [hq, hdepth n hn]

theorem of_eventually_eq {depth : Nat} (hq : ∀ n ≥ depth, q n = q' n) (h : Tracks S T q' p) :
    Tracks S T q p := by
  intro c hc
  obtain ⟨r, ⟨depth', hdepth⟩, hsettles⟩ := h c hc
  refine ⟨r, ⟨max depth depth', fun n hn => ?_⟩, hsettles⟩
  rw [hq n (by omega), hdepth n (by omega)]

theorem pure {a : α} : Tracks S S (fun _ => Pure.pure a) (Pure.pure a) := by
  intro c hc
  exact ⟨_, .of_forall fun _ => rfl, .ok (.refl c) hc⟩

theorem bind (hq : Tracks S T q p) (hg : ∀ a, Tracks T U (fun n => g n a) (f a)) :
    Tracks S U (fun n => q n >>= g n) (p >>= f) := by
  intro c hc
  obtain ⟨r, hends, hsettles⟩ := hq c hc
  generalize hx : p c = x at hsettles
  cases hsettles with
  | @ok a d hforward hd =>
      obtain ⟨r, hends', hsettles'⟩ := hg a d hd
      rw [bind_eq_of_ok hx]
      exact ⟨r, hends.bind hends', hsettles'.after hforward⟩
  | error hforward =>
      rw [bind_eq_of_error hx]
      exact ⟨_, hends.bind_error, .error hforward⟩

/-- A single step, and what follows it. -/
theorem after_step {x : Parser α} {a : α} {c d : Cursor} (hx : x c = .ok a d)
    (hforward : c.Forward d) (h : ∃ r, Ends (fun n => g n a) d r ∧ Settles T d r (f a d)) :
    ∃ r, Ends (fun n => liftM x >>= g n) c r ∧ Settles T c r ((x >>= f) c) := by
  obtain ⟨r, hends, hsettles⟩ := h
  rw [bind_eq_of_ok hx]
  exact ⟨r, .lift_bind hx hends, hsettles.after hforward⟩

theorem mono (h : Tracks S T q p) (hS : ∀ c, S' c → S c) (hT : ∀ c, T c → T' c) :
    Tracks S' T' q p := by
  intro c hc
  obtain ⟨r, hends, hsettles⟩ := h c (hS c hc)
  refine ⟨r, hends, ?_⟩
  generalize p c = x at hsettles
  cases hsettles with
  | ok hforward hd => exact .ok hforward (hT _ hd)
  | error hforward => exact .error hforward

theorem ite_of {P : Prop} [Decidable P] (hthen : P → Tracks S T q p)
    (helse : ¬ P → Tracks S T q' p') :
    Tracks S T (fun n => if P then q n else q' n) (if P then p else p') := by
  by_cases h : P
  · simp only [if_pos h]
    exact hthen h
  · simp only [if_neg h]
    exact helse h

theorem ite {P : Prop} [Decidable P] (hthen : Tracks S T q p) (helse : Tracks S T q' p') :
    Tracks S T (fun n => if P then q n else q' n) (if P then p else p') :=
  ite_of (fun _ => hthen) fun _ => helse

theorem value (h : Tracks S T q p) {v : α → β} :
    Tracks S T (fun n => q n >>= fun a => Pure.pure (v a)) (p >>= fun a => Pure.pure (v a)) :=
  bind h fun _ => pure

theorem map (h : Tracks S T q p) {v : α → β} : Tracks S T (fun n => v <$> q n) (v <$> p) := by
  simp only [map_eq_pure_bind]
  exact h.value

/-! ## Single steps -/

theorem fail {cause : GrammarCause} {t : Token} :
    Tracks S T (fun _ => liftM (Parser.fail cause t : Parser α)) (Parser.fail cause t) := by
  intro c _
  exact ⟨_, .of_forall fun _ => rfl, .error (.refl c)⟩

theorem fail_bind {cause : GrammarCause} {t : Token} :
    Tracks S T (fun n => liftM (Parser.fail cause t : Parser α) >>= g n)
      (Parser.fail cause t >>= f) := by
  intro c _
  exact ⟨_, .of_forall fun _ => rfl, .error (.refl c)⟩

theorem unexpected :
    Tracks S T (fun _ => liftM (Parser.unexpected : Parser α)) Parser.unexpected := by
  intro c _
  exact ⟨_, .of_forall fun _ => rfl, .error (.refl c)⟩

theorem ofExcept (x : Except Diagnostic α) :
    Tracks S S (fun _ => liftM (ofExcept x : Parser α)) (ofExcept x) := by
  intro c hc
  cases x with
  | ok a => exact ⟨_, .of_forall fun _ => rfl, .ok (.refl c) hc⟩
  | error fault => exact ⟨_, .of_forall fun _ => rfl, .error (.refl c)⟩

/-- A look at what comes next. -/
theorem look {v : Cursor → α} {x : Parser α} (hx : ∀ c, x c = .ok (v c) c) :
    Tracks S S (fun _ => liftM x) x := by
  intro c hc
  rw [hx c]
  exact ⟨_, .of_forall fun _ => outcome_lift_of_ok (hx c), .ok (.refl c) hc⟩

theorem check (kind : Kind) : Tracks S S (fun _ => liftM (Parser.check kind)) (Parser.check kind) :=
  look fun _ => rfl

theorem peek {g : Nat → Token → Attempt β} {f : Token → Parser β}
    (h : ∀ t, Tracks (fun c => S c ∧ c.peek = t) T (fun n => g n t) (f t)) :
    Tracks S T (fun n => liftM Parser.peek >>= g n) (Parser.peek >>= f) := by
  intro c hc
  exact after_step rfl (.refl c) (h c.peek c ⟨hc, rfl⟩)

theorem get {g : Nat → Cursor → Attempt β} {f : Cursor → Parser β}
    (h : ∀ c, Tracks (fun d => S d ∧ d = c) T (fun n => g n c) (f c)) :
    Tracks S T (fun n => liftM (get : Parser Cursor) >>= g n) (get >>= f) := by
  intro c hc
  exact after_step rfl (.refl c) (h c c ⟨hc, rfl⟩)

theorem lift_bind {x : Parser α} (hx : Tracks S T (fun _ => liftM x) x)
    (hf : ∀ a, Tracks T U (fun _ => liftM (f a)) (f a)) :
    Tracks S U (fun _ => liftM (x >>= f)) (x >>= f) := by
  have hlift : (liftM (x >>= f) : Attempt β) = liftM x >>= fun a => liftM (f a) := by
    funext c
    change outcome _ c = outcome _ c
    cases hresult : x c with
    | ok a d =>
        rw [outcome_bind_of_ok (outcome_lift_of_ok hresult)]
        change ofParser (x >>= f) c = ofParser (f a) d
        rw [ofParser, ofParser, bind_eq_of_ok hresult]
    | error fault d =>
        rw [outcome_bind_of_error (outcome_lift_of_error hresult),
          outcome_lift_of_error (bind_eq_of_error hresult)]
  rw [hlift]
  exact bind hx hf

theorem lift_ite {P : Prop} [Decidable P] (hthen : Tracks S T (fun _ => liftM p) p)
    (helse : Tracks S T (fun _ => liftM p') p') :
    Tracks S T (fun _ => liftM (if P then p else p')) (if P then p else p') := by
  split
  · exact hthen
  · exact helse

end Tracks

/-! ## Tokens that are left -/

/-- The tree of a token needs no bound, if it is a string. -/
def Legible (rule : Parser.StringRule) (t : Token) : Prop :=
  ∀ quote, t.kind = .string quote →
    ∃ depth, ∀ n ≥ depth, string t n = ofParser (ofExcept (rule t))

def Within (rule : Parser.StringRule) (m : Nat) (c : Cursor) : Prop :=
  Parser.Fits (Legible rule) m c.rest

/-- From at most `M` tokens a reader ends as a parser does, and takes one or more. -/
def Takes (rule : Parser.StringRule) (M : Nat) (q : Descent α) (p : Parser α) : Prop :=
  ∀ m < M, Tracks (Within rule (m + 1)) (Within rule m) q p

section Steps

variable {rule : Parser.StringRule} {m n : Nat} {c : Cursor} {t : Token}

namespace Within

theorem mono (h : Within rule m c) (hmn : m ≤ n) : Within rule n c :=
  Parser.Fits.mono h hmn

theorem not_zero (c : Cursor) : ¬ Within rule 0 c := by
  intro h
  obtain ⟨t, ht, -⟩ := h.ended
  rw [List.eq_nil_of_length_eq_zero (Nat.le_zero.mp h.size)] at ht
  cases ht

theorem rest_eq (h : Within rule m c) : ∃ ts, c.rest = c.peek :: ts := by
  obtain ⟨passed, _ | ⟨t, ts⟩⟩ := c
  · obtain ⟨t, ht, -⟩ := h.ended
    cases ht
  · exact ⟨ts, rfl⟩

theorem legible_peek (h : Within rule m c) : Legible rule c.peek := by
  obtain ⟨ts, hrest⟩ := h.rest_eq
  exact h.good c.peek (by rw [hrest]; exact List.mem_cons_self)

theorem next (h : Within rule (m + 1) c) (hpeek : c.peek.kind ≠ .finish) :
    Within rule m c.next := by
  obtain ⟨passed, _ | ⟨t, ts⟩⟩ := c
  · exact absurd rfl hpeek
  · have hkind : t.kind ≠ .finish := hpeek
    rw [Cursor.next_cons hkind]
    have hall : Parser.Fits (Legible rule) (m + 1) ([t] ++ ts) := h
    exact hall.of_append (by simpa using hkind) (by simp)

/-- One more token or the end: nothing is lost either way. -/
theorem next_level (h : Within rule m c) : Within rule m c.next := by
  by_cases hpeek : c.peek.kind = .finish
  · rwa [Cursor.next_of_finish hpeek]
  · exact next (h.mono (Nat.le_succ m)) hpeek

end Within

theorem check_of_peek {kind : Kind} (h : c.peek.kind = kind) :
    Parser.check kind c = .ok true c := by
  change EStateM.Result.ok (decide (c.peek.kind = kind)) c = _
  rw [decide_eq_true h]

theorem check_of_ne {kind : Kind} (h : c.peek.kind ≠ kind) :
    Parser.check kind c = .ok false c := by
  change EStateM.Result.ok (decide (c.peek.kind = kind)) c = _
  rw [decide_eq_false h]

theorem accept_of_peek {kind : Kind} (h : c.peek.kind = kind) :
    Parser.accept kind c = .ok true c.next := by
  rw [Parser.accept, bind_eq_of_ok (check_of_peek h)]
  rfl

namespace Tracks

variable {S T : Cursor → Prop} {q q' : Descent α} {p p' : Parser α}

theorem of_le_zero (hm : m ≤ 0) : Tracks (Within rule m) T q p :=
  fun c hc => absurd (hc.mono hm) (Within.not_zero c)

theorem of_zero : Tracks (Within rule 0) T q p :=
  of_le_zero (Nat.le_refl 0)

/-- A reader that takes a token or more does no harm to a bound. -/
theorem level (h : ∀ m, Tracks (Within rule (m + 1)) (Within rule m) q p) :
    Tracks (Within rule m) (Within rule m) q p := by
  cases m with
  | zero => exact of_zero
  | succ m => exact (h m).mono (fun _ => id) fun _ hc => hc.mono (Nat.le_succ m)

theorem widen (h : Tracks S (Within rule n) q p) (hn : n ≤ m) : Tracks S (Within rule m) q p :=
  h.mono (fun _ => id) fun _ hc => hc.mono hn

/-- What is known of the next token does not matter. -/
theorem anywhere {R : Cursor → Prop} (h : Tracks S T q p) : Tracks (fun c => S c ∧ R c) T q p :=
  h.mono (fun _ hc => hc.1) fun _ => id

theorem advance (ht : t.kind ≠ .finish) : Tracks (fun c => Within rule (m + 1) c ∧ c.peek = t)
    (Within rule m) (fun _ => liftM Parser.advance) Parser.advance := by
  rintro c ⟨hc, rfl⟩
  exact ⟨_, .of_forall fun _ => rfl, .ok (.next c) (hc.next ht)⟩

theorem advance_level :
    Tracks (Within rule m) (Within rule m) (fun _ => liftM Parser.advance) Parser.advance := by
  intro c hc
  exact ⟨_, .of_forall fun _ => rfl, .ok (.next c) hc.next_level⟩

theorem pass (ht : t.kind ≠ .finish) (h : ∀ n < m, Tracks (Within rule n) T q p) :
    Tracks (fun c => Within rule m c ∧ c.peek = t) T
      (fun n => liftM Parser.advance >>= fun _ => q n) (Parser.advance >>= fun _ => p) := by
  cases m with
  | zero => exact of_zero.anywhere
  | succ m => exact bind (advance ht) fun _ => h m (Nat.lt_succ_self m)

theorem advance_bind {g : Nat → Token → Attempt β} {f : Token → Parser β}
    (hfinish : ∀ t, t.kind = .finish → Tracks (Within rule (m + 1)) T (fun n => g n t) (f t))
    (h : ∀ t, t.kind ≠ .finish → Legible rule t →
      Tracks (Within rule m) T (fun n => g n t) (f t)) :
    Tracks (Within rule (m + 1)) T (fun n => liftM Parser.advance >>= g n)
      (Parser.advance >>= f) := by
  intro c hc
  refine after_step rfl (.next c) ?_
  by_cases hpeek : c.peek.kind = .finish
  · exact hfinish c.peek hpeek c.next hc.next_level
  · exact h c.peek hpeek hc.legible_peek c.next (hc.next hpeek)

theorem accept_bind {kind : Kind} {g : Nat → Bool → Attempt α} {f : Bool → Parser α}
    (htaken : Tracks (fun d => ∃ c, S c ∧ c.peek.kind = kind ∧ d = c.next) T
      (fun n => g n true) (f true))
    (hleft : Tracks (fun c => S c ∧ c.peek.kind ≠ kind) T (fun n => g n false) (f false)) :
    Tracks S T (fun n => liftM (Parser.accept kind) >>= g n) (Parser.accept kind >>= f) := by
  intro c hc
  by_cases hpeek : c.peek.kind = kind
  · exact after_step (accept_of_peek hpeek) (.next c) (htaken c.next ⟨c, hc, hpeek, rfl⟩)
  · exact after_step (Parser.accept_of_ne hpeek) (.refl c) (hleft c ⟨hc, hpeek⟩)

theorem accept_value {kind : Kind} (htaken : ∀ c, S c → c.peek.kind = kind → T c.next)
    (hleft : ∀ c, S c → T c) :
    Tracks S T (fun _ => liftM (Parser.accept kind)) (Parser.accept kind) := by
  intro c hc
  by_cases hpeek : c.peek.kind = kind
  · have haccept := accept_of_peek hpeek
    rw [haccept]
    exact ⟨_, .of_forall fun _ => outcome_lift_of_ok haccept, .ok (.next c) (htaken c hc hpeek)⟩
  · have haccept : Parser.accept kind c = .ok false c := Parser.accept_of_ne hpeek
    rw [haccept]
    exact ⟨_, .of_forall fun _ => outcome_lift_of_ok haccept, .ok (.refl c) (hleft c hc)⟩

/-- A token that announces a part is gone before the part begins. -/
theorem accept {kind : Kind} (hkind : kind ≠ .finish)
    (hthen : ∀ n < m, Tracks (Within rule n) T q p) (helse : Tracks (Within rule m) T q' p') :
    Tracks (Within rule m) T
      (fun n => liftM (Parser.accept kind) >>= fun b => if b then q n else q' n)
      (Parser.accept kind >>= fun b => if b then p else p') := by
  refine accept_bind ?_ helse.anywhere
  rintro d ⟨c, hc, hpeek, rfl⟩
  cases m with
  | zero => exact absurd hc (Within.not_zero c)
  | succ m => exact hthen m (Nat.lt_succ_self m) c.next (hc.next (hpeek ▸ hkind))

theorem acceptSign {s : Symbol} (hthen : ∀ n < m, Tracks (Within rule n) T q p)
    (helse : Tracks (Within rule m) T q' p') :
    Tracks (Within rule m) T
      (fun n => liftM (Parser.acceptSign s) >>= fun b => if b then q n else q' n)
      (Parser.acceptSign s >>= fun b => if b then p else p') :=
  accept (by simp) hthen helse

theorem check_bind {kind : Kind} (hthen : Tracks (fun c => S c ∧ c.peek.kind = kind) T q p)
    (helse : Tracks S T q' p') :
    Tracks S T (fun n => liftM (Parser.check kind) >>= fun b => if b then q n else q' n)
      (Parser.check kind >>= fun b => if b then p else p') := by
  intro c hc
  by_cases hpeek : c.peek.kind = kind
  · exact after_step (check_of_peek hpeek) (.refl c) (hthen c ⟨hc, hpeek⟩)
  · exact after_step (check_of_ne hpeek) (.refl c) (helse c hc)

theorem expect_of_next {kind : Kind} (h : ∀ c, S c → c.peek.kind = kind → T c.next) :
    Tracks S T (fun _ => liftM (Parser.expect kind)) (Parser.expect kind) := by
  intro c hc
  by_cases hpeek : c.peek.kind = kind
  · have hexpect : Parser.expect kind c = .ok c.peek c.next := bind_eq_of_ok (check_of_peek hpeek)
    rw [hexpect]
    exact ⟨_, .of_forall fun _ => outcome_lift_of_ok hexpect, .ok (.next c) (h c hc hpeek)⟩
  · have hexpect : Parser.expect kind c = .error (.grammatical .unexpected c.peek) c :=
      bind_eq_of_ok (check_of_ne hpeek)
    rw [hexpect]
    exact ⟨_, .of_forall fun _ => outcome_lift_of_error hexpect, .error (.refl c)⟩

theorem expect {kind : Kind} (hkind : kind ≠ .finish) :
    Tracks (Within rule (m + 1)) (Within rule m) (fun _ => liftM (Parser.expect kind))
      (Parser.expect kind) :=
  expect_of_next fun _ hc hpeek => hc.next (hpeek ▸ hkind)

theorem expectSign (s : Symbol) : Tracks (Within rule (m + 1)) (Within rule m)
    (fun _ => liftM (Parser.expectSign s)) (Parser.expectSign s) :=
  lift_bind (expect (by simp)) fun _ => pure

theorem expectWord (word : Keyword) : Tracks (Within rule (m + 1)) (Within rule m)
    (fun _ => liftM (Parser.expectWord word)) (Parser.expectWord word) :=
  lift_bind (expect (by simp)) fun _ => pure

theorem expectName : Tracks (Within rule (m + 1)) (Within rule m)
    (fun _ => liftM Parser.expectName) Parser.expectName :=
  lift_bind (expect (by simp)) fun _ => pure

theorem expectSign_level (s : Symbol) : Tracks (Within rule m) (Within rule m)
    (fun _ => liftM (Parser.expectSign s)) (Parser.expectSign s) :=
  level fun _ => expectSign s

theorem expectName_level : Tracks (Within rule m) (Within rule m)
    (fun _ => liftM Parser.expectName) Parser.expectName :=
  level fun _ => expectName

theorem expectSoft (word : String) : Tracks (Within rule m) (Within rule m)
    (fun _ => liftM (Parser.expectSoft word)) (Parser.expectSoft word) := by
  refine lift_bind (look fun _ => rfl) fun t => lift_ite ?_ unexpected
  exact lift_bind advance_level fun _ => pure

theorem acceptSign_level {s : Symbol} : Tracks (Within rule m) (Within rule m)
    (fun _ => liftM (Parser.acceptSign s)) (Parser.acceptSign s) :=
  accept_value (fun _ hc _ => hc.next_level) fun _ => id

end Tracks

namespace Takes

variable {M N : Nat} {q : Descent α} {p : Parser α}

theorem mono (h : Takes rule M q p) (hN : N ≤ M) : Takes rule N q p :=
  fun m hm => h m (Nat.lt_of_lt_of_le hm hN)

theorem level (h : Takes rule M q p) (hm : m ≤ M) : Tracks (Within rule m) (Within rule m) q p := by
  cases m with
  | zero => exact .of_zero
  | succ m => exact (h m hm).widen (Nat.le_succ m)

end Takes

namespace Tracks

variable {q : Descent α} {p : Parser α}

/-- A parser that is bounded by the number of tokens that are left. -/
theorem sized {T : Cursor → Prop} {f : Cursor → Parser α}
    (h : ∀ c, c.rest.length ≤ m → Tracks (Within rule c.rest.length) T q (f c)) :
    Tracks (Within rule m) T q (MonadState.get >>= f) := by
  intro c hc
  exact h c hc.size c ⟨Nat.le_refl _, hc.ended, hc.good⟩

theorem optional {s : Symbol} (h : ∀ n < m, Tracks (Within rule n) (Within rule n) q p) :
    Tracks (Within rule m) (Within rule m) (fun n => Attempt.optional s (q n))
      (Parser.optional s p) := by
  refine acceptSign (fun n hn => ?_) pure
  exact ((h n hn).widen (Nat.le_of_lt hn)).map

/-- A list goes on only behind a comma. -/
theorem commaSeparated_succ {S : Cursor → Prop} {qs : Descent (List α)} {k : Nat}
    (hqs : ∀ n, qs (n + 1) = do
      let first ← q n
      if ← Parser.acceptSign .comma then return first :: (← qs n) else return [first])
    (hfirst : Tracks S (Within rule m) q p)
    (hmore : ∀ n < m, Tracks (Within rule n) (Within rule n) qs (Parser.commaSeparated p k)) :
    Tracks S (Within rule m) qs (Parser.commaSeparated p (k + 1)) := by
  rw [Parser.commaSeparated]
  refine of_succ hqs (bind hfirst fun first => acceptSign (fun n hn => ?_) pure)
  exact ((hmore n hn).widen (Nat.le_of_lt hn)).value

end Tracks

theorem Takes.sized {q : Descent α} {F : Nat → Parser α} (h : ∀ n, Takes rule n q (F n)) :
    Tracks (Within rule (m + 1)) (Within rule m) q (do F (← get).rest.length) := by
  refine .sized fun c hc => ?_
  cases hlength : c.rest.length with
  | zero => exact .of_zero
  | succ n => exact (h (n + 1) n (Nat.lt_succ_self n)).widen (by omega)

theorem Takes.commaSeparated {q : Descent α} {p : Parser α} {qs : Descent (List α)}
    (hqs : ∀ n, qs (n + 1) = do
      let first ← q n
      if ← Parser.acceptSign .comma then return first :: (← qs n) else return [first])
    (h : Takes rule m q p) {k : Nat} (hk : m ≤ k) :
    Takes rule m qs (Parser.commaSeparated p k) := by
  induction k generalizing m with
  | zero => exact fun n hn => absurd hn (by omega)
  | succ k ih =>
      intro n hn
      refine .commaSeparated_succ hqs (h n hn) fun l hl => ?_
      exact (ih (h.mono (by omega)) (by omega) : Takes rule n _ _).level (by omega)

end Steps

end Descent

end ClassScript

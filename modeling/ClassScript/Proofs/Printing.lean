import ClassScript.Proofs.ListGraph
import ClassScript.Proofs.WellFormed
import ClassScript.Run.Builtins

/-!
# How lists are printed

A list is printed as its elements in brackets, and cut short only where it stands inside itself. The
rule is about one place at a time: it looks at the lists around that place, and at nothing else that
was printed before. So a list that several places share is printed in full at each of them, as long
as it is not inside itself, and where no list is, printing is plain recursion.

Around a place stand only lists that are different from each other. That is why printing ends, and
why a bound on the depth that allows for every list of the store is never felt.
-/

namespace ClassScript

namespace State

/-- The text of a value at a place with the lists `around` it. -/
inductive Prints (s : State) : (around : List ListId) → Value → String → Prop
  | leaf {around : List ListId} {v : Value} {text : String} (hv : Lists.cell? v = none)
      (htext : s.leafText v = .ok text) : s.Prints around v text
  | enclosed {around : List ListId} {id : ListId} (hid : id ∈ around) :
      s.Prints around (.list id) "[...]"
  | opened {around : List ListId} {id : ListId} {texts : List String} (hid : id ∉ around)
      (hlength : (s.lists.elements id).toList.length = texts.length)
      (hitems : ∀ w text, (w, text) ∈ (s.lists.elements id).toList.zip texts →
        s.Prints (id :: around) w text) :
      s.Prints around (.list id) ("[ " ++ ", ".intercalate texts ++ " ]")

/-- Printing as plain recursion, without an eye on the lists around a place. There is no text if
lists are nested deeper than `depth`. -/
def plainText (s : State) : (depth : Nat) → Value → Option String
  | 0, .list _ => none
  | depth + 1, .list id =>
    (fun texts => "[ " ++ ", ".intercalate texts ++ " ]") <$>
      (s.lists.elements id).toList.mapM (s.plainText depth)
  | _, v => (s.leafText v).toOption

structure Printable (s : State) (v : Value) : Prop where
  cells : ∀ id, s.lists.Holds v id → id < s.lists.size
  object : ∀ handle, v = .object handle → ∃ c, s.heap.get handle = .ok c
  objects : ∀ id handle, s.lists.Holds v id → .object handle ∈ s.lists.elements id →
    ∃ c, s.heap.get handle = .ok c

variable {s : State}

theorem Printable.element {id : ListId} (h : s.Printable (.list id)) {w : Value}
    (hw : w ∈ s.lists.elements id) : s.Printable w where
  cells i hi := h.cells i (hi.of_element hw)
  object handle heq := h.objects id handle (Lists.holds_self _ id) (heq ▸ hw)
  objects i handle hi := h.objects i handle (hi.of_element hw)

theorem Printable.leafText {v : Value} (h : s.Printable v) : ∃ text, s.leafText v = .ok text := by
  cases v with
  | object handle =>
      obtain ⟨c, hc⟩ := h.object handle rfl
      exact ⟨_, by simp only [State.leafText, hc, bind, Except.bind]; rfl⟩
  | number _ | string _ | boolean _ | function _ | list _ | null => exact ⟨_, rfl⟩

theorem Sound.cell {v : Value} (h : s.Sound v) {id : ListId} (hid : s.lists.Holds v id) :
    s.Sound (.list id) := by
  induction hid with
  | base hid =>
      cases v with
      | list i =>
          obtain rfl := List.mem_singleton.mp hid
          exact h
      | number _ | string _ | boolean _ | function _ | object _ | null => cases hid
  | step _ hinside ih => exact ih.element _ (Array.mem_toList_iff.mpr (Lists.mem_inner.mp hinside))

/-- Everything that a run gives to its caller can be printed. -/
theorem Sound.printable {v : Value} (h : s.Sound v) : s.Printable v where
  cells _ hid := (h.cell hid) _ (.base (List.mem_singleton_self _))
  object _ heq := Sound.get (heq ▸ h)
  objects _ _ hid hobject :=
    Sound.get ((h.cell hid).element _ (Array.mem_toList_iff.mpr hobject))

/-! ## Texts of elements -/

theorem mapM_eq_pure {m : Type → Type} [Monad m] [LawfulMonad m] {f : Value → m String}
    {items : List Value} {texts : List String} (hlength : items.length = texts.length)
    (h : ∀ w text, (w, text) ∈ items.zip texts → f w = pure text) :
    items.mapM f = pure texts := by
  induction items generalizing texts with
  | nil =>
      obtain rfl := List.length_eq_zero_iff.mp hlength.symm
      rfl
  | cons w items ih =>
      cases texts with
      | nil => cases hlength
      | cons text texts =>
          have hrest := ih (Nat.succ.inj hlength) fun x t hx => h x t (List.mem_cons_of_mem _ hx)
          rw [List.mapM_cons, h w text List.mem_cons_self, hrest]
          simp

theorem exists_texts {P : Value → String → Prop} {items : List Value}
    (h : ∀ w ∈ items, ∃ text, P w text) :
    ∃ texts : List String, items.length = texts.length ∧
      ∀ w text, (w, text) ∈ items.zip texts → P w text := by
  induction items with
  | nil => exact ⟨[], rfl, fun _ _ hmem => absurd hmem List.not_mem_nil⟩
  | cons w items ih =>
      obtain ⟨text, htext⟩ := h w List.mem_cons_self
      obtain ⟨texts, hlength, htexts⟩ := ih fun x hx => h x (List.mem_cons_of_mem _ hx)
      refine ⟨text :: texts, congrArg Nat.succ hlength, fun x t hmem => ?_⟩
      rcases List.mem_cons.mp hmem with heq | hmem
      · cases heq
        exact htext
      · exact htexts x t hmem

/-! ## Lists that are not open yet -/

def unopened (s : State) (around : List ListId) : Nat :=
  Reach.unseen (List.range s.lists.size) around

theorem unopened_cons_lt {around : List ListId} {id : ListId} (hid : id < s.lists.size)
    (hclosed : id ∉ around) : s.unopened (id :: around) < s.unopened around :=
  Reach.unseen_append_lt (List.mem_range.mpr hid) (List.mem_singleton_self id) hclosed

theorem unopened_le (s : State) (around : List ListId) : s.unopened around ≤ s.lists.size :=
  Nat.le_trans (List.length_filter_le _ _) (Nat.le_of_eq List.length_range)

/-- Every place has a text, since there are fewer lists to open at the places inside it. -/
theorem Printable.exists_prints {v : Value} (h : s.Printable v) (around : List ListId) :
    ∃ text, s.Prints around v text := by
  induction hn : s.unopened around using Nat.strong_induction_on generalizing around v with
  | h n ih =>
      cases v with
      | list id =>
          by_cases hid : id ∈ around
          · exact ⟨_, .enclosed hid⟩
          · have hless := unopened_cons_lt (h.cells id (Lists.holds_self _ id)) hid
            rw [hn] at hless
            obtain ⟨texts, hlength, htexts⟩ := exists_texts fun w hw =>
              ih _ hless (h.element (Array.mem_toList_iff.mp hw)) (id :: around) rfl
            exact ⟨_, .opened hid hlength htexts⟩
      | number _ | string _ | boolean _ | function _ | object _ | null =>
          obtain ⟨text, htext⟩ := h.leafText
          exact ⟨text, .leaf rfl htext⟩

/-- A depth that allows for the lists that are not open yet is enough. -/
theorem Prints.render_eq {around : List ListId} {v : Value} {text : String}
    (h : s.Prints around v text) (hcells : ∀ id, s.lists.Holds v id → id < s.lists.size)
    {depth : Nat} (hdepth : s.unopened around ≤ depth) :
    s.lists.render s.leafText listText depth around v = .ok text := by
  induction h generalizing depth with
  | @leaf around v text hv htext =>
      cases v with
      | list id => cases hv
      | number _ | string _ | boolean _ | function _ | object _ | null =>
          cases depth <;> exact htext
  | enclosed hid =>
      cases depth with
      | zero => rfl
      | succ depth => rw [Lists.render, if_pos hid]
  | @opened around id texts hid hlength _ ih =>
      have hless := unopened_cons_lt (hcells id (Lists.holds_self _ id)) hid
      cases depth with
      | zero => omega
      | succ depth =>
          rw [Lists.render, if_neg hid, mapM_eq_pure hlength fun w text hw => ?_]
          · rfl
          · have hmem := Array.mem_toList_iff.mp (List.of_mem_zip hw).1
            exact ih w text hw (fun i hi => hcells i (hi.of_element hmem)) (by omega)

theorem Printable.textOf_eq_ok_iff {v : Value} (h : s.Printable v) {text : String} :
    s.textOf v = .ok text ↔ s.Prints [] v text := by
  have hrender : ∀ {text}, s.Prints [] v text → s.textOf v = .ok text := fun hprints =>
    hprints.render_eq h.cells (s.unopened_le [])
  refine ⟨fun htext => ?_, hrender⟩
  obtain ⟨text', hprints⟩ := h.exists_prints []
  obtain rfl : text' = text := Except.ok.inj ((hrender hprints).symm.trans htext)
  exact hprints

/-! ## Lists that are not inside themselves -/

/-- Where no list is inside itself, no place is inside its own list, and plain recursion ends. -/
theorem Prints.plainText_eq {around : List ListId} {v : Value} {text : String}
    (h : s.Prints around v text) (hcells : ∀ id, s.lists.Holds v id → id < s.lists.size)
    (hacyclic : ∀ id, s.lists.Holds v id → ¬ s.lists.Contains id id)
    (haround : ∀ outer ∈ around, ∀ id, v = .list id → s.lists.Contains outer id)
    {depth : Nat} (hdepth : s.unopened around ≤ depth) : s.plainText depth v = some text := by
  induction h generalizing depth with
  | @leaf around v text hv htext =>
      cases v with
      | list id => cases hv
      | number _ | string _ | boolean _ | function _ | object _ | null =>
          cases depth <;> simp [plainText, htext, Except.toOption]
  | @enclosed around id hid =>
      exact absurd (haround id hid id rfl) (hacyclic id (Lists.holds_self _ id))
  | @opened around id texts hid hlength _ ih =>
      have hless := unopened_cons_lt (hcells id (Lists.holds_self _ id)) hid
      cases depth with
      | zero => omega
      | succ depth =>
          rw [plainText, mapM_eq_pure hlength fun w text hw => ?_]
          · rfl
          · have hmem := Array.mem_toList_iff.mp (List.of_mem_zip hw).1
            refine ih w text hw (fun i hi => hcells i (hi.of_element hmem))
              (fun i hi => hacyclic i (hi.of_element hmem)) ?_ (by omega)
            -- a list around the element is the one just opened, or was already around it
            rintro outer houter inside rfl
            have hinside : s.lists.Contains id inside := ⟨_, hmem, Lists.holds_self _ inside⟩
            rcases List.mem_cons.mp houter with rfl | houter
            · exact hinside
            · exact (haround outer houter id rfl).trans hinside

/-- A list that is printed in full does not look like one that is cut short. -/
theorem Prints.eq_cut_iff {around : List ListId} {id : ListId} {text : String}
    (h : s.Prints around (.list id) text) : text = "[...]" ↔ id ∈ around := by
  cases h with
  | leaf hv _ => cases hv
  | enclosed hid => exact ⟨fun _ => hid, fun _ => rfl⟩
  | opened hid _ _ =>
      -- the bracket is followed by a blank there, and by a dot here
      refine ⟨fun heq => ?_, fun hmem => absurd hmem hid⟩
      have hchars := congrArg String.toList heq
      simp at hchars

/-- Every value whose lists and objects are there has a text. It is the one that the rule for lists
gives: a list is cut short exactly where it is one of the lists around, and anywhere else its
elements are printed between brackets. If no list in the value is inside itself, plain recursion
gives the same text. -/
theorem textOf_prints {v : Value} (h : s.Printable v) :
    (∃ text, s.textOf v = .ok text) ∧
      (∀ text, s.textOf v = .ok text ↔ s.Prints [] v text) ∧
      (∀ around id text, s.Prints around (.list id) text → (text = "[...]" ↔ id ∈ around)) ∧
      ((∀ id, s.lists.Holds v id → ¬ s.lists.Contains id id) →
        ∀ depth, s.lists.size ≤ depth → s.plainText depth v = (s.textOf v).toOption) := by
  obtain ⟨text, hprints⟩ := h.exists_prints []
  have htext := h.textOf_eq_ok_iff.mpr hprints
  refine ⟨⟨text, htext⟩, fun _ => h.textOf_eq_ok_iff, fun _ _ _ hlist => hlist.eq_cut_iff, ?_⟩
  intro hacyclic depth hdepth
  rw [htext]
  refine hprints.plainText_eq h.cells hacyclic (fun _ houter => absurd houter List.not_mem_nil) ?_
  exact Nat.le_trans (s.unopened_le []) hdepth

/-- Two lists that have a third one twice. One of them also has itself, and an object. -/
theorem textOf_prints_shared :
    let s := { State.start with
      lists := #[#[.list 2, .list 2, .list 0, .object 0], #[.list 2, .list 2], #[.null]] }
    (s.Printable (.list 0) ∧
      s.Prints [] (.list 0) "[ [ null ], [ null ], [...], [class Object] ]") ∧
      s.Printable (.list 1) ∧ (∀ id, s.lists.Holds (.list 1) id → ¬ s.lists.Contains id id) ∧
        s.plainText 3 (.list 1) = some "[ [ null ], [ null ] ]" := by
  intro s
  have hcells : ∀ v, v = .list 0 ∨ v = .list 1 → ∀ id, s.lists.Holds v id → id < 3 := by
    have hwithin : ∀ i < 2, ∀ id ∈ s.lists.within (.list i), id < 3 := by decide
    rintro v (rfl | rfl) id hid
    · exact hwithin 0 (by decide) id (Lists.mem_within.mpr hid)
    · exact hwithin 1 (by decide) id (Lists.mem_within.mpr hid)
  have hprintable : ∀ v, v = .list 0 ∨ v = .list 1 → s.Printable v := by
    intro v hv
    refine ⟨hcells v hv, ?_, fun id handle hid hobject => ?_⟩
    · rintro handle rfl
      simp at hv
    · have hthree : ∀ i < 3, i = 0 ∨ i = 1 ∨ i = 2 := by decide
      obtain rfl | rfl | rfl := hthree id (hcells v hv id hid)
      all_goals simp [s, Lists.elements] at hobject
      exact hobject ▸ ⟨_, rfl⟩
  have hacyclic : ∀ id, s.lists.Holds (.list 1) id → ¬ s.lists.Contains id id := by
    have hwithin : ∀ id ∈ s.lists.within (.list 1), ∀ w ∈ s.lists.elements id,
        id ∉ s.lists.within w := by decide
    rintro id hid ⟨w, hw, hinside⟩
    exact hwithin id (Lists.mem_within.mpr hid) w hw (Lists.mem_within.mpr hinside)
  have hfirst := hprintable _ (.inl rfl)
  have hsecond := hprintable _ (.inr rfl)
  refine ⟨⟨hfirst, ((textOf_prints hfirst).2.1 _).mp rfl⟩, hsecond, hacyclic, ?_⟩
  exact (textOf_prints hsecond).2.2.2 hacyclic 3 (by decide)

end State

end ClassScript

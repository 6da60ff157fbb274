import ClassScript.Proofs.Horizon

/-!
# Copies of lists stay within the horizon

A new instance gets copies of the lists in the members of its class. A copy goes through a value and
makes a cell for each list that it meets for the first time. The cell is empty while the elements of
the list are copied, and a list that is met again in the meantime gets the cell as it is. What every
step of this upholds, the whole copy upholds; a state that is closed stays closed.
-/

namespace ClassScript

namespace Lists

theorem elements_push (ls : Lists) (items : Array Value) (id : ListId) :
    Lists.elements (ls.push items) id = if id = ls.size then items else ls.elements id := by
  simp only [elements, Array.getD_eq_getD_getElem?, Array.getElem?_push]
  by_cases hid : id = ls.size <;> simp [hid]

/-! ## Steps of a copy -/

section Steps

variable (depth : Nat) (c : Copying)

theorem copyWith_zero (v : Value) : copyWith 0 v c = (v, c) := by
  cases v <;> rfl

theorem copyWith_of_ne_list {v : Value} (h : ∀ id, v ≠ .list id) : copyWith depth v c = (v, c) := by
  cases v with
  | list id => exact absurd rfl (h id)
  | number _ | string _ | boolean _ | function _ | object _ | null => cases depth <;> rfl

/-- A list that has its cell. -/
theorem copyWith_of_made {id cell : ListId} (h : c.copies.get? id = some cell) :
    copyWith (depth + 1) (.list id) c = (.list cell, c) := by
  rw [copyWith]
  simp only [bind, StateT.bind, get, getThe, MonadStateOf.get, StateT.get, pure]
  rw [h]
  rfl

/-- A list that has no cell yet. -/
theorem copyWith_of_new {id : ListId} (h : c.copies.get? id = none) :
    copyWith (depth + 1) (.list id) c =
      let r := (((c.enter id).lists.elements id).toList.mapM (copyWith depth)) (c.enter id)
      (.list c.lists.size, r.2.fill c.lists.size r.1) := by
  rw [copyWith]
  simp only [bind, StateT.bind, get, getThe, MonadStateOf.get, StateT.get, pure]
  rw [h]
  rfl

theorem mapM_copyWith_cons (v : Value) (items : List Value) :
    (v :: items).mapM (copyWith depth) c =
      let first := copyWith depth v c
      let rest := items.mapM (copyWith depth) first.2
      (first.1 :: rest.1, rest.2) := by
  rw [List.mapM_cons]
  rfl

end Steps

/-! ## What every step upholds -/

/-- What holds of a copy as long as it is being made, and of the values that it comes across. -/
structure Copying.Upholds (I : Copying → Prop) (P : Copying → Value → Prop) : Prop where
  mono : ∀ {c c'}, c.lists.size ≤ c'.lists.size → ∀ {v}, P c v → P c' v
  made : ∀ {c id cell}, I c → c.copies.get? id = some cell → P c (.list cell)
  element : ∀ {c id}, I c → P c (.list id) → ∀ v ∈ c.lists.elements id, P c v
  enter : ∀ {c} id, I c → I (c.enter id)
  fill : ∀ {c items} cell, I c → (∀ v ∈ items, P c v) → I (c.fill cell items)

theorem Copying.size_fill (c : Copying) (cell : ListId) (items : List Value) :
    (c.fill cell items).lists.size = c.lists.size :=
  Array.size_setIfInBounds

theorem mem_elements_fill {c : Copying} {cell id : ListId} {items : List Value} {v : Value}
    (h : v ∈ (c.fill cell items).lists.elements id) : v ∈ items ∨ v ∈ c.lists.elements id := by
  simp only [Copying.fill, elements, Array.getD_eq_getD_getElem?, Array.getElem?_setIfInBounds] at h
  split at h
  · split at h
    · exact Or.inl (List.mem_toArray.mp h)
    · exact absurd h (Array.not_mem_empty v)
  · exact Or.inr (by simpa only [elements, Array.getD_eq_getD_getElem?] using h)

theorem Copying.size_enter (c : Copying) (id : ListId) :
    (c.enter id).lists.size = c.lists.size + 1 :=
  Array.size_push _

structure Copying.Upheld (I : Copying → Prop) (P : Copying → Value → Prop) (c c' : Copying)
    (values : List Value) : Prop where
  grows : c.lists.size ≤ c'.lists.size
  state : I c'
  values : ∀ v ∈ values, P c' v

namespace Copying.Upholds

variable {I : Copying → Prop} {P : Copying → Value → Prop}

theorem mapM (h : Upholds I P) {f : Value → StateM Copying Value}
    (hf : ∀ {c v}, I c → P c v → Upheld I P c (f v c).2 [(f v c).1]) {c : Copying} (hc : I c)
    {items : List Value} (hitems : ∀ v ∈ items, P c v) :
    Upheld I P c (items.mapM f c).2 (items.mapM f c).1 := by
  induction items generalizing c with
  | nil => exact ⟨Nat.le_refl _, hc, fun _ hv => absurd hv List.not_mem_nil⟩
  | cons v items ih =>
      have hfirst := hf hc (hitems v List.mem_cons_self)
      have hrest := ih hfirst.state fun w hw =>
        h.mono hfirst.grows (hitems w (List.mem_cons_of_mem _ hw))
      rw [List.mapM_cons]
      refine ⟨Nat.le_trans hfirst.grows hrest.grows, hrest.state, fun w hw => ?_⟩
      rcases List.mem_cons.mp hw with rfl | hw
      · exact h.mono hrest.grows (hfirst.values _ (List.mem_singleton_self _))
      · exact hrest.values w hw

/-- What every step upholds, the whole copy upholds. -/
theorem copyWith (h : Upholds I P) (depth : Nat) {c : Copying} {v : Value} (hc : I c)
    (hv : P c v) :
    Upheld I P c (copyWith depth v c).2 [(Lists.copyWith depth v c).1] := by
  induction depth generalizing c v with
  | zero =>
      rw [copyWith_zero]
      exact ⟨Nat.le_refl _, hc, List.forall_mem_singleton.mpr hv⟩
  | succ depth ih =>
      by_cases hlist : ∃ id, v = .list id
      · obtain ⟨id, rfl⟩ := hlist
        cases hmade : c.copies.get? id with
        | some cell =>
            rw [copyWith_of_made depth c hmade]
            exact ⟨Nat.le_refl _, hc, List.forall_mem_singleton.mpr (h.made hc hmade)⟩
        | none =>
            rw [copyWith_of_new depth c hmade]
            have hgrows : c.lists.size ≤ (c.enter id).lists.size := by
              rw [size_enter]
              exact Nat.le_succ _
            have henter := h.enter id hc
            have hcell : P (c.enter id) (.list c.lists.size) :=
              h.made henter (Assoc.get?_insert_self ..)
            have hitems := h.element henter (h.mono hgrows hv)
            have hrest := h.mapM (fun hc hv => ih hc hv) henter
              fun w hw => hitems w (Array.mem_toList_iff.mp hw)
            have hall := Nat.le_trans hgrows hrest.grows
            refine ⟨?_, h.fill _ hrest.state hrest.values, List.forall_mem_singleton.mpr ?_⟩
            · rw [size_fill]
              exact hall
            · refine h.mono ?_ hcell
              rw [size_fill]
              exact hrest.grows
      · rw [copyWith_of_ne_list _ c fun id hid => hlist ⟨id, hid⟩]
        exact ⟨Nat.le_refl _, hc, List.forall_mem_singleton.mpr hv⟩

end Copying.Upholds

theorem copy_eq (ls : Lists) (v : Value) :
    ls.copy v =
      let r := copyWith (ls.size + 1) v { lists := ls }
      (r.1, r.2.lists) :=
  rfl

theorem copy_list (ls : Lists) (id : ListId) : (ls.copy (.list id)).1 = .list ls.size := by
  rw [copy_eq, copyWith_of_new _ _ rfl]

theorem size_copy_le (ls : Lists) (v : Value) : ls.size ≤ (ls.copy v).2.size := by
  have h : Copying.Upholds (fun _ => True) fun _ _ => True := by
    constructor <;> intros <;> trivial
  exact (h.copyWith (ls.size + 1) (c := { lists := ls }) trivial trivial).grows

end Lists

section

variable {H : Horizon} {s : State}

theorem State.keeps_lists (s : State) {ls ls' : Lists} (h : ls.size ≤ ls'.size) :
    State.Keeps { s with lists := ls } { s with lists := ls' } := by
  intro n hn
  cases n with
  | container handle => exact hn
  | frame id => exact hn
  | list id => exact Nat.lt_of_lt_of_le hn h

/-- A closed state with more lists, or with other elements in them. -/
theorem Horizon.Closed.lists (h : H.Closed s) {ls : Lists} (hsize : s.lists.size ≤ ls.size)
    (hlist : ∀ id, ∀ v ∈ ls.elements id, v.Within H s ∨ v ∈ s.lists.elements id) :
    H.Closed { s with lists := ls } := by
  have hkeeps : s.Keeps { s with lists := ls } := s.keeps_lists hsize
  refine h.grow (fun _ => hkeeps) rfl rfl rfl ?_ ?_ ?_ ?_
  · intro n hn
    cases n with
    | container handle => exact hn
    | frame id => exact hn
    | list id => exact hkeeps (.list id) hn
  · intro id frame hframe b hb
    exact Or.inr ⟨frame, hframe, hb⟩
  · intro id v hv
    exact (hlist id v hv).imp_left (·.mono fun _ => hkeeps)
  · intro handle c _ hc
    exact Or.inr hc

/-- A copy that is being made in a closed state, where the cells of the copy are within reach. -/
structure Horizon.Copies (H : Horizon) (s : State) (c : Lists.Copying) : Prop where
  closed : H.Closed { s with lists := c.lists }
  cells : ∀ cell ∈ c.copies.values, (Node.list cell).Within H { s with lists := c.lists }

theorem Horizon.Copies.enter {c : Lists.Copying} (h : H.Copies s c) (id : ListId) :
    H.Copies s (c.enter id) := by
  have hsize : c.lists.size ≤ (c.enter id).lists.size := by
    rw [Lists.Copying.size_enter]
    exact Nat.le_succ _
  refine ⟨h.closed.lists hsize fun i v hv => ?_, fun cell hcell => ?_⟩
  · change v ∈ Lists.elements (c.lists.push #[]) i at hv
    rw [Lists.elements_push] at hv
    split at hv
    · exact absurd hv (Array.not_mem_empty v)
    · exact Or.inr hv
  · rcases Assoc.mem_values_insert hcell with rfl | hcell
    · -- stale points are older than the cell
      refine ⟨fun hstale => Nat.lt_irrefl _ (h.closed.past _ hstale), fun _ => ?_⟩
      change c.lists.size < (c.lists.push #[]).size
      rw [Array.size_push]
      exact Nat.lt_succ_self _
    · exact (h.cells cell hcell).mono fun _ => s.keeps_lists hsize

theorem Horizon.Copies.fill {c : Lists.Copying} (h : H.Copies s c) (cell : ListId)
    {items : List Value} (hitems : ∀ v ∈ items, v.Within H { s with lists := c.lists }) :
    H.Copies s (c.fill cell items) := by
  have hsize : c.lists.size ≤ (c.fill cell items).lists.size :=
    Nat.le_of_eq (Lists.Copying.size_fill c cell items).symm
  refine ⟨h.closed.lists hsize fun i v hv => ?_, fun cell' hcell => ?_⟩
  · rcases Lists.mem_elements_fill hv with hv | hv
    · exact Or.inl (hitems v hv)
    · exact Or.inr hv
  · exact (h.cells cell' hcell).mono fun _ => s.keeps_lists hsize

theorem Horizon.upholds_copies (H : Horizon) (s : State) :
    Lists.Copying.Upholds (H.Copies s) fun c v => v.Within H { s with lists := c.lists } where
  mono hsize _ hv := hv.mono fun _ => s.keeps_lists hsize
  made h hcell := h.cells _ (Assoc.mem_values_of_get? hcell)
  element h hlist := h.closed.list _ hlist
  enter id h := h.enter id
  fill cell h hitems := h.fill cell hitems

def State.copied (s : State) (v : Value) : State :=
  { s with lists := (s.lists.copy v).2 }

theorem State.keeps_copied (s : State) (v : Value) : s.Keeps (s.copied v) :=
  s.keeps_lists (s.lists.size_copy_le v)

theorem Horizon.Closed.copied (h : H.Closed s) {v : Value} (hv : v.Within H s) :
    H.Closed (s.copied v) ∧ (s.lists.copy v).1.Within H (s.copied v) := by
  have hstart : H.Copies s { lists := s.lists } := ⟨h, fun _ hcell => absurd hcell List.not_mem_nil⟩
  have hend := (H.upholds_copies s).copyWith (s.lists.size + 1) hstart hv
  exact ⟨hend.state.closed, hend.values _ (List.mem_singleton_self _)⟩

end

/-- Copies of members are within the horizon, and the state with their lists is closed. -/
theorem Horizon.Closed.copyMembers {H : Horizon} {members : List (String × Member)} {s : State}
    (h : H.Closed s) (hm : ∀ entry ∈ members, entry.2.Within H s) :
    let t : State := { s with lists := (Container.copyMembers members s.lists).2 }
    H.Keeps s t ∧ H.Closed t ∧
      ∀ entry ∈ (Container.copyMembers members s.lists).1, entry.2.Within H t := by
  induction members generalizing s with
  | nil => exact ⟨.refl s, h, fun _ hentry => absurd hentry List.not_mem_nil⟩
  | cons head members ih =>
      obtain ⟨name, m⟩ := head
      have hhead : m.Within H s := hm _ List.mem_cons_self
      have hkeeps : H.Keeps s (s.copied m.value) := fun _ => s.keeps_copied m.value
      have hrest : ∀ entry ∈ members, entry.2.Within H (s.copied m.value) := fun entry hentry =>
        (hm entry (List.mem_cons_of_mem _ hentry)).mono hkeeps
      obtain ⟨hcopied, hcopy⟩ := h.copied hhead.value
      obtain ⟨hkeeps', hclosed, hmembers⟩ := ih hcopied hrest
      refine ⟨hkeeps.trans hkeeps', hclosed, ?_⟩
      intro entry hentry
      rcases List.mem_cons.mp hentry with rfl | hentry
      · exact ((hhead.mono hkeeps).setValue hcopy).mono hkeeps'
      · exact hmembers entry hentry

end ClassScript

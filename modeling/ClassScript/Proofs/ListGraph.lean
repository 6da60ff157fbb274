import ClassScript.Proofs.Copying
import Mathlib.Data.List.Basic
import Mathlib.Data.Set.Function

/-!
# Graphs of lists

Lists hold lists, also themselves, so that the lists in a value are the points of a graph. A copy of
a value has a graph of its own. It is made of new cells only, and it looks like the old one: a
one-to-one map between the cells of the two graphs takes a list to one with the same elements in the
same order, apart from the lists among them, which are taken along. So two places that share a list
share its copy, and a list inside itself has a copy inside itself.

While a copy is made, the cells of the lists around the place where it is are still empty, and
elsewhere they are used already. What is known at every moment is the order in which lists got their
cells, and which of the cells are empty.
-/

namespace ClassScript

namespace Lists

def inner (ls : Lists) (id : ListId) : List ListId :=
  (ls.elements id).toList.filterMap cell?

theorem mem_inner {ls : Lists} {id id' : ListId} :
    id' ∈ ls.inner id ↔ .list id' ∈ ls.elements id := by
  unfold inner
  rw [List.mem_filterMap]
  constructor
  · rintro ⟨v, hv, hcell⟩
    cases v with
    | list i =>
        cases hcell
        exact Array.mem_toList_iff.mp hv
    | number _ | string _ | boolean _ | function _ | object _ | null => cases hcell
  · intro h
    exact ⟨.list id', Array.mem_toList_iff.mpr h, rfl⟩

/-- A list is in a value, at any depth. -/
def Holds (ls : Lists) (v : Value) (id : ListId) : Prop :=
  Reach.Reachable ls.inner (cell? v).toList id

def within (ls : Lists) (value : Value) : List ListId :=
  Reach.closure ls.inner ls.size (cell? value).toList

variable {ls : Lists} {v : Value} {id : ListId}

theorem mem_within : id ∈ ls.within v ↔ ls.Holds v id := by
  have hpoints : ∀ a b, b ∈ ls.inner a → a ∈ List.range ls.size := fun a b hb =>
    List.mem_range.mpr (lt_size_of_mem_elements (mem_inner.mp hb))
  exact Reach.mem_closure_iff hpoints (Nat.le_of_eq List.length_range)

theorem holds_self (ls : Lists) (id : ListId) : ls.Holds (.list id) id :=
  .base (List.mem_singleton_self id)

/-- What an element of a list holds, the list holds. -/
theorem Holds.of_element {w : Value} (h : ls.Holds w id) {outer : ListId}
    (hw : w ∈ ls.elements outer) : ls.Holds (.list outer) id := by
  refine h.mem_of_closed (fun i hi => ?_) fun i hi j hj => .step hi hj
  cases w with
  | list j =>
      obtain rfl := List.mem_singleton.mp hi
      exact .step (holds_self ls outer) (mem_inner.mpr hw)
  | number _ | string _ | boolean _ | function _ | object _ | null => cases hi

/-- A list in a value holds no list that the value does not hold. -/
theorem Holds.trans (hv : ls.Holds v id) {inside : ListId} (h : ls.Holds (.list id) inside) :
    ls.Holds v inside := by
  refine h.mem_of_closed (fun i hi => ?_) fun i hi j hj => .step hi hj
  obtain rfl := List.mem_singleton.mp hi
  exact hv

def Contains (ls : Lists) (outer inside : ListId) : Prop :=
  ∃ w ∈ ls.elements outer, ls.Holds w inside

theorem Contains.trans {outer inside : ListId} (h : ls.Contains outer id)
    (hinside : ls.Contains id inside) : ls.Contains outer inside := by
  obtain ⟨w, hw, hid⟩ := h
  obtain ⟨x, hx, hin⟩ := hinside
  exact ⟨w, hw, hid.trans (hin.of_element hx)⟩

end Lists

def Value.mapList (f : ListId → ListId) : Value → Value
  | .list id => .list (f id)
  | v => v

namespace Lists

variable {ls : Lists}

/-! ## Copies that are half built -/

/-- The cell of a list, if lists get their cells in the order of `cells`. -/
def cellFor (ls : Lists) (cells : List ListId) (id : ListId) : ListId :=
  ls.size + cells.idxOf id

theorem cellFor_append {cells : List ListId} {id : ListId} (h : id ∈ cells)
    (more : List ListId) : ls.cellFor (cells ++ more) id = ls.cellFor cells id := by
  rw [cellFor, cellFor, List.idxOf_append_of_mem h]

theorem mapList_cellFor_append (ls : Lists) {cells : List ListId} {v : Value}
    (h : ∀ id, v = .list id → id ∈ cells) (more : List ListId) :
    v.mapList (ls.cellFor (cells ++ more)) = v.mapList (ls.cellFor cells) := by
  cases v with
  | list id => exact congrArg Value.list (cellFor_append (h id rfl) more)
  | number _ | string _ | boolean _ | function _ | object _ | null => rfl

/-- The cells of a copy. Those for the lists in `pending` are empty. -/
def cellsOf (ls : Lists) (pending cells : List ListId) : List (Array Value) :=
  cells.map fun id =>
    if id ∈ pending then #[] else (ls.elements id).map (Value.mapList (ls.cellFor cells))

/-- The cell of one list gets its elements. -/
theorem set_cellsOf (ls : Lists) {pending cells : List ListId} {id : ListId} (hnodup : cells.Nodup)
    (hid : id ∈ cells) (hnew : id ∉ pending) :
    (ls.cellsOf (id :: pending) cells).set (cells.idxOf id)
      ((ls.elements id).map (Value.mapList (ls.cellFor cells))) = ls.cellsOf pending cells := by
  refine List.ext_getElem (by simp [cellsOf]) fun k hset _ => ?_
  have hk : k < cells.length := by simpa [cellsOf] using hset
  rw [List.getElem_set]
  simp only [cellsOf, List.getElem_map]
  split
  · next heq =>
      subst heq
      rw [List.getElem_idxOf, if_neg hnew]
  · next hne =>
      have hother : cells[k] ≠ id := by
        rintro rfl
        exact hne (hnodup.idxOf_getElem k hk)
      simp [hother]

/-- A copy of which the lists in `cells` have their cells, and those in `pending` are still being
copied. -/
structure HalfBuilt (ls : Lists) (pending cells : List ListId) (c : Copying) : Prop where
  nodup : cells.Nodup
  begun : ∀ id ∈ pending, id ∈ cells
  /-- Lists inside of those that are copied have a cell, too. -/
  inside : ∀ id ∈ cells, id ∉ pending → ∀ i, .list i ∈ ls.elements id → i ∈ cells
  copies : ∀ id, c.copies.get? id = if id ∈ cells then some (ls.cellFor cells id) else none
  lists : c.lists = ls ++ (ls.cellsOf pending cells).toArray

namespace HalfBuilt

variable {pending cells : List ListId} {c : Copying} {id : ListId}

theorem size (h : HalfBuilt ls pending cells c) : c.lists.size = ls.size + cells.length := by
  simp [h.lists, cellsOf]

theorem elements (h : HalfBuilt ls pending cells c) (hid : id < ls.size) :
    c.lists.elements id = ls.elements id := by
  simp [h.lists, Lists.elements, Array.getD_eq_getD_getElem?, Array.getElem?_append_left hid]

/-- A list gets its cell, which is empty. -/
theorem enter (h : HalfBuilt ls pending cells c) (hnew : id ∉ cells) :
    HalfBuilt ls (id :: pending) (cells ++ [id]) (c.enter id) where
  nodup := by
    refine List.nodup_append.mpr ⟨h.nodup, List.pairwise_singleton _ id, ?_⟩
    rintro a ha b hb rfl
    exact hnew (List.mem_singleton.mp hb ▸ ha)
  begun i hi := by
    rcases List.mem_cons.mp hi with rfl | hi
    · exact List.mem_append_right _ (List.mem_singleton_self _)
    · exact List.mem_append_left _ (h.begun i hi)
  inside i hi hdone j hj := by
    obtain ⟨hne, hdone⟩ := not_or.mp (mt List.mem_cons.mpr hdone)
    have hi : i ∈ cells := (List.mem_append.mp hi).resolve_right (mt List.mem_singleton.mp hne)
    exact List.mem_append_left _ (h.inside i hi hdone j hj)
  copies i := by
    by_cases hi : i = id
    · subst hi
      have hlast : ls.cellFor (cells ++ [i]) i = c.lists.size := by
        rw [cellFor, List.idxOf_append_of_notMem hnew, h.size]
        simp
      simp [Copying.enter, hlast]
    · have hsame := h.copies i
      simp only [Copying.enter, Assoc.get?_insert_of_ne _ (Ne.symm hi), hsame, List.mem_append,
        List.mem_singleton, hi, or_false]
      split
      · next hmem => rw [cellFor_append hmem]
      · rfl
  lists := by
    have hcells :
        ls.cellsOf (id :: pending) (cells ++ [id]) = ls.cellsOf pending cells ++ [#[]] := by
      rw [cellsOf, List.map_append, List.map_singleton, if_pos List.mem_cons_self]
      refine congrArg (· ++ [#[]]) (List.map_congr_left fun i hi => ?_)
      have hne : i ≠ id := fun heq => hnew (heq ▸ hi)
      simp only [List.mem_cons, hne, false_or]
      split
      · rfl
      · next hdone =>
          refine Array.map_congr_left fun v hv => mapList_cellFor_append ls (fun j hj => ?_) _
          exact h.inside i hi hdone j (hj ▸ hv)
    rw [Copying.enter, hcells, h.lists]
    simp

/-- The elements of a list are copied, and put into its cell. -/
theorem fill (h : HalfBuilt ls (id :: pending) cells c) (hnew : id ∉ pending)
    (hinside : ∀ i, .list i ∈ ls.elements id → i ∈ cells) :
    HalfBuilt ls pending cells (c.fill (ls.cellFor cells id)
      ((ls.elements id).toList.map (Value.mapList (ls.cellFor cells)))) where
  nodup := h.nodup
  begun i hi := h.begun i (List.mem_cons_of_mem _ hi)
  inside i hi hdone j hj := by
    by_cases hid : i = id
    · subst hid
      exact hinside j hj
    · exact h.inside i hi (mt List.mem_cons.mp (not_or.mpr ⟨hid, hdone⟩)) j hj
  copies := h.copies
  lists := by
    have hset := set_cellsOf ls h.nodup (h.begun id List.mem_cons_self) hnew
    have hlate : ls.size ≤ ls.cellFor cells id := Nat.le_add_right _ _
    rw [Copying.fill, h.lists, ← hset]
    dsimp only
    rw [Array.setIfInBounds_append_right hlate, ← Array.toList_map, Array.toArray_toList, cellFor,
      Nat.add_sub_cancel_left, List.setIfInBounds_toArray]

end HalfBuilt

/-- How a copy goes on from the lists in `cells`: those in `more` get cells as well, and the copies
of some items have the cells of all these lists in them. -/
structure Extended (ls : Lists) (pending cells more : List ListId) (items values : List Value)
    (c : Copying) : Prop where
  state : HalfBuilt ls pending (cells ++ more) c
  values : values = items.map (Value.mapList (ls.cellFor (cells ++ more)))
  found : ∀ id, .list id ∈ items → id ∈ cells ++ more
  held : ∀ id ∈ more, ∃ v ∈ items, ls.Holds v id

section Extended

variable {pending cells more more' : List ListId} {c : Copying} {id : ListId} {v w : Value}
  {items values : List Value}

/-- A value of which nothing has to be copied any more. -/
theorem HalfBuilt.stay (h : HalfBuilt ls pending cells c) (hv : ∀ id, v = .list id → id ∈ cells) :
    Extended ls pending cells [] [v] [v.mapList (ls.cellFor cells)] c := by
  refine ⟨?_, ?_, fun id hid => ?_, fun _ hid => absurd hid List.not_mem_nil⟩
  · rw [List.append_nil]
    exact h
  · rw [List.append_nil, List.map_singleton]
  · rw [List.append_nil]
    exact hv id (List.mem_singleton.mp hid).symm

theorem HalfBuilt.extended_nil (h : HalfBuilt ls pending cells c) :
    Extended ls pending cells [] [] [] c where
  state := by
    rw [List.append_nil]
    exact h
  values := rfl
  found _ hid := absurd hid List.not_mem_nil
  held _ hid := absurd hid List.not_mem_nil

/-- One value after the other. The cells that the first one has stay what they are. -/
theorem Extended.cons {c' : Copying} (h : Extended ls pending cells more [v] [w] c')
    (h' : Extended ls pending (cells ++ more) more' items values c) :
    Extended ls pending cells (more ++ more') (v :: items) (w :: values) c := by
  have hv : ∀ id, v = .list id → id ∈ cells ++ more := fun id hid =>
    h.found id (List.mem_singleton.mpr hid.symm)
  have hw : w = v.mapList (ls.cellFor (cells ++ more)) := List.singleton_inj.mp h.values
  refine ⟨?_, ?_, fun id hid => ?_, fun id hid => ?_⟩
  · rw [← List.append_assoc]
    exact h'.state
  · rw [← List.append_assoc, List.map_cons, mapList_cellFor_append ls hv, ← hw, ← h'.values]
  · rw [← List.append_assoc]
    rcases List.mem_cons.mp hid with hid | hid
    · exact List.mem_append_left _ (hv id hid.symm)
    · exact h'.found id hid
  · rcases List.mem_append.mp hid with hid | hid
    · obtain ⟨x, hx, hheld⟩ := h.held id hid
      exact ⟨x, List.mem_cons.mpr (Or.inl (List.mem_singleton.mp hx)), hheld⟩
    · obtain ⟨x, hx, hheld⟩ := h'.held id hid
      exact ⟨x, List.mem_cons_of_mem _ hx, hheld⟩

/-- A list that has no cell yet: it gets one, its elements are copied, and the cell is filled. -/
theorem HalfBuilt.extend (h : HalfBuilt ls pending cells c) (hnew : id ∉ cells) {c' : Copying}
    (h' : Extended ls (id :: pending) (cells ++ [id]) more (ls.elements id).toList values c') :
    Extended ls pending cells (id :: more) [.list id] [.list c.lists.size]
      (c'.fill c.lists.size values) := by
  have hcells : cells ++ [id] ++ more = cells ++ id :: more := by simp
  obtain ⟨hstate, hvalues, hfound, hheld⟩ := h'
  rw [hcells] at hstate hvalues hfound
  have hcell : ls.cellFor (cells ++ id :: more) id = c.lists.size := by
    rw [cellFor, List.idxOf_append_of_notMem hnew, h.size]
    simp
  have hfill := hstate.fill (fun hpending => hnew (h.begun id hpending)) fun i hi =>
    hfound i (Array.mem_toList_iff.mpr hi)
  rw [hcell, ← hvalues] at hfill
  refine ⟨hfill, ?_, fun i hi => ?_, fun i hi => ⟨.list id, List.mem_singleton_self _, ?_⟩⟩
  · rw [List.map_singleton, Value.mapList, hcell]
  · cases List.mem_singleton.mp hi
    exact List.mem_append_right _ List.mem_cons_self
  · rcases List.mem_cons.mp hi with rfl | hi
    · exact holds_self ls i
    · obtain ⟨v, hv, hin⟩ := hheld i hi
      exact hin.of_element (Array.mem_toList_iff.mp hv)

end Extended

def uncopied (ls : Lists) (cells : List ListId) : Nat :=
  Reach.unseen (List.range ls.size) cells

theorem uncopied_append_le (ls : Lists) (cells more : List ListId) :
    ls.uncopied (cells ++ more) ≤ ls.uncopied cells :=
  Reach.unseen_anti _ fun _ => List.mem_append_left _

theorem uncopied_append_lt {cells : List ListId} {id : ListId} (hid : id < ls.size)
    (hnew : id ∉ cells) : ls.uncopied (cells ++ [id]) < ls.uncopied cells := by
  have hin : id ∈ List.range ls.size := List.mem_range.mpr hid
  have hcopied : id ∈ cells ++ [id] := List.mem_append_right _ (List.mem_singleton_self id)
  exact Reach.unseen_lt (fun _ => List.mem_append_left _) hin hcopied hnew

/-- A depth that is enough to copy every value whose lists are there. -/
def Copyable (ls : Lists) (depth : Nat) : Prop :=
  ∀ {v : Value} {pending cells : List ListId} {c : Copying}, HalfBuilt ls pending cells c →
    ls.uncopied cells < depth → (∀ id, ls.Holds v id → id < ls.size) →
    ∃ more, Extended ls pending cells more [v] [(copyWith depth v c).1] (copyWith depth v c).2

theorem Copyable.mapM {depth : Nat} (hcopy : ls.Copyable depth) {items : List Value}
    {pending cells : List ListId} {c : Copying} (h : HalfBuilt ls pending cells c)
    (hdepth : ls.uncopied cells < depth)
    (hitems : ∀ v ∈ items, ∀ id, ls.Holds v id → id < ls.size) :
    ∃ more, Extended ls pending cells more items (items.mapM (copyWith depth) c).1
      (items.mapM (copyWith depth) c).2 := by
  induction items generalizing cells c with
  | nil => exact ⟨[], h.extended_nil⟩
  | cons v items ih =>
      obtain ⟨more, hfirst⟩ := hcopy h hdepth (hitems v List.mem_cons_self)
      have hless := Nat.lt_of_le_of_lt (ls.uncopied_append_le cells more) hdepth
      obtain ⟨more', hrest⟩ := ih hfirst.state hless fun w hw =>
        hitems w (List.mem_cons_of_mem _ hw)
      rw [mapM_copyWith_cons]
      exact ⟨more ++ more', hfirst.cons hrest⟩

/-- Each list is entered at most once, so that the number of lists is deep enough. -/
theorem copyable (ls : Lists) (depth : Nat) : ls.Copyable depth := by
  induction depth with
  | zero => exact fun _ hdepth => absurd hdepth (Nat.not_lt_zero _)
  | succ depth ih =>
      intro v pending cells c h hdepth hv
      cases v with
      | list id =>
          have hcopies := h.copies id
          by_cases hold : id ∈ cells
          · rw [if_pos hold] at hcopies
            rw [copyWith_of_made depth c hcopies]
            refine ⟨[], h.stay fun i heq => ?_⟩
            cases heq
            exact hold
          · rw [if_neg hold] at hcopies
            have hid := hv id (holds_self ls id)
            have henter := h.enter hold
            have hless := uncopied_append_lt hid hold
            obtain ⟨more, hmore⟩ := ih.mapM henter (by omega) fun w hw i hi =>
              hv i (hi.of_element (Array.mem_toList_iff.mp hw))
            rw [copyWith_of_new depth c hcopies, henter.elements hid]
            exact ⟨id :: more, h.extend hold hmore⟩
      | number _ | string _ | boolean _ | function _ | object _ | null =>
          exact ⟨[], h.stay fun _ heq => nomatch heq⟩

/-! ## Whole copies -/

variable {v : Value} {id : ListId}

theorem halfBuilt_start (ls : Lists) : HalfBuilt ls [] [] { lists := ls } where
  nodup := List.nodup_nil
  begun _ hid := hid
  inside _ hid := absurd hid List.not_mem_nil
  copies _ := rfl
  lists := by simp [cellsOf]

/-- A copy numbers the lists of a value in the order in which it comes across them. -/
theorem exists_copy_eq (hv : ∀ id, ls.Holds v id → id < ls.size) :
    ∃ cells : List ListId, cells.Nodup ∧ (∀ id, id ∈ cells ↔ ls.Holds v id) ∧
      ls.copy v = (v.mapList (ls.cellFor cells), ls ++ (ls.cellsOf [] cells).toArray) := by
  have hdepth : ls.uncopied [] < ls.size + 1 := by
    have hle := Reach.unseen_le_length (List.range ls.size) ([] : List ListId)
    rw [List.length_range] at hle
    exact Nat.lt_succ_of_le hle
  obtain ⟨cells, hcells⟩ := ls.copyable (ls.size + 1) ls.halfBuilt_start hdepth hv
  have hstate := hcells.state
  have hvalue := List.singleton_inj.mp hcells.values
  rw [List.nil_append] at hstate hvalue
  refine ⟨cells, hstate.nodup, fun id => ⟨fun hid => ?_, fun hid => ?_⟩,
    Prod.ext hvalue hstate.lists⟩
  · obtain ⟨w, hw, hheld⟩ := hcells.held id hid
    exact List.mem_singleton.mp hw ▸ hheld
  · refine hid.mem_of_closed (fun i hi => ?_) fun i hi j hj => ?_
    · cases v with
      | list k =>
          obtain rfl := List.mem_singleton.mp hi
          exact hcells.found i (List.mem_singleton_self _)
      | number _ | string _ | boolean _ | function _ | object _ | null => cases hi
    · exact hstate.inside i hi List.not_mem_nil j (mem_inner.mp hj)

/-- A map that takes each list of a value to one with the same elements, with the lists among them
taken along, takes the paths in the value to those in its image. -/
theorem bijOn_holds {ls' : Lists} {f : ListId → ListId} (hinj : Set.InjOn f {id | ls.Holds v id})
    (helements : ∀ id, ls.Holds v id →
      ls'.elements (f id) = (ls.elements id).map (Value.mapList f)) :
    Set.BijOn f {id | ls.Holds v id} {id | ls'.Holds (v.mapList f) id} := by
  refine ⟨fun id h => ?_, hinj, fun i h => ?_⟩
  · induction h with
    | base h =>
        cases v with
        | list i =>
            obtain rfl := List.mem_singleton.mp h
            exact holds_self _ _
        | number _ | string _ | boolean _ | function _ | object _ | null => cases h
    | step ha hb ih =>
        refine Reach.Reachable.step ih (mem_inner.mpr ?_)
        rw [helements _ ha]
        exact Array.mem_map.mpr ⟨_, mem_inner.mp hb, rfl⟩
  · refine Reach.Reachable.mem_of_closed (p := fun i => ∃ id, ls.Holds v id ∧ f id = i)
      (fun i hi => ?_) ?_ h
    · cases v with
      | list id =>
          obtain rfl := List.mem_singleton.mp hi
          exact ⟨id, holds_self ls id, rfl⟩
      | number _ | string _ | boolean _ | function _ | object _ | null => cases hi
    · -- a list inside the image of `id` comes from one inside `id`
      rintro _ ⟨id, hid, rfl⟩ j hj
      rw [mem_inner, helements id hid] at hj
      obtain ⟨w, hw, hmap⟩ := Array.mem_map.mp hj
      cases w with
      | list inside =>
          cases hmap
          exact ⟨inside, .step hid (mem_inner.mpr hw), rfl⟩
      | number _ | string _ | boolean _ | function _ | object _ | null => cases hmap

theorem elements_cellFor (ls : Lists) {cells : List ListId} (hid : id ∈ cells) :
    Lists.elements (ls ++ (ls.cellsOf [] cells).toArray) (ls.cellFor cells id) =
      (ls.elements id).map (Value.mapList (ls.cellFor cells)) := by
  have hlt := List.idxOf_lt_length_of_mem hid
  rw [cellFor, elements, Array.getD_eq_getD_getElem?,
    Array.getElem?_append_right (Nat.le_add_right _ _), Nat.add_sub_cancel_left]
  simp [cellsOf, hlt]

/-- The new cells are those that the lists of a copy get. -/
theorem exists_cellFor_iff {cells : List ListId} (hnodup : cells.Nodup) {i : ListId} :
    (∃ id ∈ cells, ls.cellFor cells id = i) ↔ ls.size ≤ i ∧ i < ls.size + cells.length := by
  constructor
  · rintro ⟨id, hid, rfl⟩
    exact ⟨Nat.le_add_right _ _, Nat.add_lt_add_left (List.idxOf_lt_length_of_mem hid) _⟩
  · rintro ⟨hle, hlt⟩
    have hk : i - ls.size < cells.length := Nat.sub_lt_left_of_lt_add hle hlt
    refine ⟨cells[i - ls.size], List.getElem_mem hk, ?_⟩
    rw [cellFor, hnodup.idxOf_getElem, Nat.add_sub_of_le hle]

/-- A copy of a value whose lists are all there is a fresh graph of lists that looks like the old
one. Its lists are exactly the new cells. A one-to-one map leads to them from the lists of the
value, and through this map the copy and its lists are what the value and its lists are. All lists
from before are left alone. -/
theorem copy_isomorphic (hv : ∀ id, ls.Holds v id → id < ls.size) :
    ∃ f : ListId → ListId,
      Set.BijOn f {id | ls.Holds v id} {id | (ls.copy v).2.Holds (ls.copy v).1 id} ∧
      (∀ id, (ls.copy v).2.Holds (ls.copy v).1 id ↔ ls.size ≤ id ∧ id < (ls.copy v).2.size) ∧
      (ls.copy v).1 = v.mapList f ∧
      (∀ id, ls.Holds v id →
        (ls.copy v).2.elements (f id) = (ls.elements id).map (Value.mapList f)) ∧
      ∀ id < ls.size, (ls.copy v).2[id]? = ls[id]? := by
  obtain ⟨cells, hnodup, hcells, hcopy⟩ := exists_copy_eq hv
  have hinj : Set.InjOn (ls.cellFor cells) {id | ls.Holds v id} := fun id hid _ _ heq =>
    (List.idxOf_inj ((hcells id).mpr hid)).mp (Nat.add_left_cancel heq)
  have helements := fun id hid => ls.elements_cellFor ((hcells id).mpr hid)
  have hbij := bijOn_holds hinj helements
  rw [hcopy]
  refine ⟨ls.cellFor cells, hbij, fun i => ?_, rfl, helements, fun id hid => ?_⟩
  · have hsize : (ls ++ (ls.cellsOf [] cells).toArray).size = ls.size + cells.length := by
      simp [cellsOf]
    rw [hsize, ← exists_cellFor_iff hnodup]
    constructor
    · intro hi
      obtain ⟨id, hid, rfl⟩ := hbij.surjOn hi
      exact ⟨id, (hcells id).mpr hid, rfl⟩
    · rintro ⟨id, hid, rfl⟩
      exact hbij.mapsTo ((hcells id).mp hid)
  · exact Array.getElem?_append_left hid

/-- A list that has another one at two places and is inside of it as well. -/
theorem copy_isomorphic_shared :
    let ls : Lists := #[#[.list 1, .list 2], #[.list 2], #[.null, .list 0]]
    (∀ id, ls.Holds (.list 0) id → id < ls.size) ∧ (ls.copy (.list 0)).1 = .list 3 ∧
      ∃ f : ListId → ListId, Set.BijOn f {id | ls.Holds (.list 0) id}
        {id | (ls.copy (.list 0)).2.Holds (ls.copy (.list 0)).1 id} := by
  intro ls
  have hthere : ∀ id ∈ ls.within (.list 0), id < ls.size := by decide
  have hlists : ∀ id, ls.Holds (.list 0) id → id < ls.size := fun id hid =>
    hthere id (mem_within.mpr hid)
  obtain ⟨f, hf, _⟩ := copy_isomorphic hlists
  exact ⟨hlists, rfl, f, hf⟩

end Lists

end ClassScript

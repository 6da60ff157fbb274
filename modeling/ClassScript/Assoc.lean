/-!
# Association lists

Finite maps as lists of entries, one for each key, in the order in which the keys came.
-/

namespace ClassScript

/-- A finite map. -/
structure Assoc (κ α : Type) where
  entries : List (κ × α) := []
deriving Repr, Inhabited

namespace Assoc

variable {κ α β : Type} [DecidableEq κ]

/-- Replace the entry of a key, or add one at the end. -/
def insertEntry (k : κ) (a : α) : List (κ × α) → List (κ × α)
  | [] => [(k, a)]
  | (k', a') :: entries =>
    if k' = k then (k, a) :: entries else (k', a') :: insertEntry k a entries

def findEntry (k : κ) : List (κ × α) → Option α
  | [] => none
  | (k', a) :: entries => if k' = k then some a else findEntry k entries

def get? (t : Assoc κ α) (k : κ) : Option α :=
  findEntry k t.entries

def contains (t : Assoc κ α) (k : κ) : Bool :=
  (t.get? k).isSome

def insert (t : Assoc κ α) (k : κ) (a : α) : Assoc κ α :=
  ⟨insertEntry k a t.entries⟩

def keys (t : Assoc κ α) : List κ :=
  t.entries.map Prod.fst

def values (t : Assoc κ α) : List α :=
  t.entries.map Prod.snd

def size (t : Assoc κ α) : Nat :=
  t.entries.length

theorem findEntry_insertEntry (k k' : κ) (a : α) (entries : List (κ × α)) :
    findEntry k' (insertEntry k a entries) = if k = k' then some a else findEntry k' entries := by
  induction entries with
  | nil => simp [insertEntry, findEntry]
  | cons entry entries ih =>
    obtain ⟨l, b⟩ := entry
    by_cases hl : l = k
    · subst hl
      by_cases hk : l = k' <;> simp [insertEntry, findEntry, hk]
    · by_cases hl' : l = k'
      · subst hl'
        simp [insertEntry, findEntry, hl, Ne.symm hl]
      · simp [insertEntry, findEntry, hl, hl', ih]

@[simp]
theorem get?_insert_self (t : Assoc κ α) (k : κ) (a : α) : (t.insert k a).get? k = some a := by
  simp [get?, insert, findEntry_insertEntry]

theorem get?_insert_of_ne (t : Assoc κ α) {k k' : κ} (h : k ≠ k') (a : α) :
    (t.insert k a).get? k' = t.get? k' := by
  simp [get?, insert, findEntry_insertEntry, h]

theorem mem_of_findEntry {k : κ} {a : α} {entries : List (κ × α)}
    (h : findEntry k entries = some a) : (k, a) ∈ entries := by
  induction entries with
  | nil => simp [findEntry] at h
  | cons entry entries ih =>
    obtain ⟨l, b⟩ := entry
    rw [findEntry] at h
    split at h
    · next hl => simp_all
    · exact List.mem_cons_of_mem _ (ih h)

theorem mem_values_of_get? {t : Assoc κ α} {k : κ} {a : α} (h : t.get? k = some a) :
    a ∈ t.values :=
  List.mem_map.mpr ⟨(k, a), mem_of_findEntry h, rfl⟩

theorem mem_insertEntry {k : κ} {a : α} {entries : List (κ × α)} {entry : κ × α}
    (h : entry ∈ insertEntry k a entries) : entry = (k, a) ∨ entry ∈ entries := by
  induction entries with
  | nil => simpa [insertEntry] using h
  | cons head entries ih =>
    obtain ⟨l, b⟩ := head
    rw [insertEntry] at h
    split at h
    · rcases List.mem_cons.mp h with h | h
      · exact Or.inl h
      · exact Or.inr (List.mem_cons_of_mem _ h)
    · rcases List.mem_cons.mp h with h | h
      · exact Or.inr (h ▸ List.mem_cons_self)
      · exact (ih h).imp_right (List.mem_cons_of_mem _)

theorem mem_values_insert {t : Assoc κ α} {k : κ} {a b : α} (h : b ∈ (t.insert k a).values) :
    b = a ∨ b ∈ t.values := by
  obtain ⟨entry, hentry, rfl⟩ := List.mem_map.mp h
  rcases mem_insertEntry hentry with rfl | hentry
  · exact Or.inl rfl
  · exact Or.inr (List.mem_map.mpr ⟨entry, hentry, rfl⟩)

/-- A new value of a key that differs from the old one only in what `f` does not see. -/
theorem map_insertEntry {f : κ × α → β} {k : κ} {a old : α} {entries : List (κ × α)}
    (h : findEntry k entries = some old) (hf : f (k, a) = f (k, old)) :
    (insertEntry k a entries).map f = entries.map f := by
  induction entries with
  | nil => simp [findEntry] at h
  | cons entry entries ih =>
    obtain ⟨l, b⟩ := entry
    rw [findEntry] at h
    rw [insertEntry]
    split
    · next hl =>
      rw [if_pos hl] at h
      cases h
      simp [hf, hl]
    · next hl =>
      rw [if_neg hl] at h
      simp [ih h]

end Assoc

end ClassScript

import ClassScript.Proofs.NullSafety

/-!
# Classes and instances as a session goes on

A class is made once, from what its body declares and from the tables of its parent. An instance is
made once, from the members of its class. Nothing keeps them in step afterwards, and nothing has to:
no code changes what a class has for its instances, and no member of an instance gets another form.
So at any later moment of a session each class stands to its parent, and each instance to its class,
as they did when they were made.
-/

namespace ClassScript

/-! ## Instances and their classes -/

theorem Assoc.get?_eq_none_iff {κ α : Type} [DecidableEq κ] {t : Assoc κ α} {k : κ} :
    t.get? k = none ↔ k ∉ t.keys := by
  obtain ⟨entries⟩ := t
  show findEntry k entries = none ↔ k ∉ entries.map Prod.fst
  induction entries with
  | nil => simp [findEntry]
  | cons entry entries ih =>
      obtain ⟨l, a⟩ := entry
      by_cases hl : l = k
      · simp [findEntry, hl]
      · simp [findEntry, hl, ih, Ne.symm hl]

/-- What an instance has of a member of its class. It has the same value too, if that is not a list
and cannot be changed; this is so for methods. -/
structure Member.Presents (d m : Member) : Prop where
  access : m.access = d.access
  ty : m.ty = d.ty
  owner : m.owner = d.owner
  form : m.form = d.form
  value : d.readonly = true → (∀ id, d.value ≠ .list id) → m.value = d.value

theorem Member.Presents.stays {d m m' : Member} (h : d.Presents m) (hstays : m.Stays m') :
    d.Presents m' where
  access := hstays.access.trans h.access
  ty := hstays.ty.trans h.ty
  owner := hstays.owner.trans h.owner
  form := hstays.form.trans h.form
  value hreadonly hlist := by
    have hreadonly' : m.readonly = true := by rw [readonly, h.form]; exact hreadonly
    exact (hstays.value hreadonly').trans (h.value hreadonly hlist)

theorem Lists.copy_of_ne_list (ls : Lists) {v : Value} (h : ∀ id, v ≠ .list id) :
    (ls.copy v).1 = v := by
  cases v with
  | list id => exact absurd rfl (h id)
  | null | number _ | string _ | boolean _ | function _ | object _ => rfl

namespace Container

structure Mirrors (c cls : Container) : Prop where
  names : c.members.keys = cls.members.keys
  member : ∀ name d, cls.members.get? name = some d →
    ∃ m, c.members.get? name = some m ∧ d.Presents m

theorem keys_copyMembers (members : List (String × Member)) (ls : Lists) :
    (copyMembers members ls).1.map Prod.fst = members.map Prod.fst := by
  induction members generalizing ls with
  | nil => rfl
  | cons member members ih =>
      obtain ⟨name, m⟩ := member
      exact congrArg (name :: ·) (ih (ls.copy m.value).2)

theorem findEntry_copyMembers {members : List (String × Member)} {name : String} {d : Member}
    (h : Assoc.findEntry name members = some d) (ls : Lists) :
    ∃ m, Assoc.findEntry name (copyMembers members ls).1 = some m ∧ d.Presents m := by
  induction members generalizing ls with
  | nil => cases h
  | cons member members ih =>
      obtain ⟨other, m⟩ := member
      rw [Assoc.findEntry] at h
      rw [copyMembers, Assoc.findEntry]
      split at h
      · next hother =>
          cases h
          exact ⟨_, if_pos hother, rfl, rfl, rfl, rfl, fun _ hlist => ls.copy_of_ne_list hlist⟩
      · next hother =>
          rw [if_neg hother]
          exact ih h (ls.copy m.value).2

theorem mirrors_instantiate (cls : Container) (handle : Handle) (ls : Lists) :
    (cls.instantiate handle ls).1.Mirrors cls where
  names := keys_copyMembers cls.members.entries ls
  member _ _ hd := findEntry_copyMembers hd ls

theorem Mirrors.stays {c c' cls cls' : Container} (h : c.Mirrors cls) (hc : c.Stays c')
    (hcls : cls'.members = cls.members) : c'.Mirrors cls' where
  names := by
    rw [hcls, ← h.names]
    exact hc.names false
  member name d hd := by
    rw [hcls] at hd
    obtain ⟨m, hm, hpresents⟩ := h.member name d hd
    obtain ⟨m', hm', hstays⟩ := hc.member false name m hm
    exact ⟨m', hm', hpresents.stays hstays⟩

theorem Mirrors.get?_eq_none {c cls : Container} (h : c.Mirrors cls) {name : String}
    (hnone : cls.members.get? name = none) : c.members.get? name = none := by
  rw [Assoc.get?_eq_none_iff, h.names]
  exact Assoc.get?_eq_none_iff.mp hnone

end Container

/-! ## How a session goes on -/

/-- A state comes to be from another one: code makes changes on terms, calls begin and end, and
garbage is collected. -/
inductive State.Proceeds (s : State) : State → Prop
  | refl : s.Proceeds s
  | change {t : State} {c : Change} (h : s.Proceeds t) (hc : c.Proper Terms.unbound t) :
      s.Proceeds (t.apply c)
  | control {t : State} (h : s.Proceeds t) (depth : Nat) (context : List (Option String)) :
      s.Proceeds (t.control depth context)
  | collect {t : State} (h : s.Proceeds t) : s.Proceeds t.collectGarbage.1

namespace State.Proceeds

variable {s t u : State}

theorem trans (hst : s.Proceeds t) (htu : t.Proceeds u) : s.Proceeds u := by
  induction htu with
  | refl => exact hst
  | change _ hc ih => exact .change ih hc
  | control _ depth context ih => exact .control ih depth context
  | collect _ ih => exact .collect ih

theorem permits (h : s.Proceeds t) {cs : List Change} (hcs : Terms.unbound.Permits t cs) :
    s.Proceeds (t.after cs) := by
  induction cs generalizing t with
  | nil => exact h
  | cons c cs ih => exact ih (.change h hcs.1) hcs.2

theorem persists (h : s.Proceeds t) : s.heap.Persists t.heap := by
  induction h with
  | refl => exact .refl s.heap
  | change _ hc ih => exact ih.trans (State.persists_apply _ (hc.own trivial))
  | control _ depth context ih => exact ih
  | collect _ ih => exact ih.trans (State.persists_collectGarbage _)

end State.Proceeds

namespace Session

variable {s t : Session}

theorem Reaches.proceeds (h : s.Reaches t) {stale : Node → Prop} (hs : s.state.Intact stale)
    (hsafe : s.state.NullSafe) : s.state.Proceeds t.state := by
  induction h with
  | refl => exact .refl
  | run hreaches text file ih =>
      obtain ⟨⟨stale', ht⟩, _⟩ := hreaches.intact hs
      obtain ⟨cs, hcs, hrun⟩ := run_permits ht (hreaches.nullSafe hs hsafe) text file
      rw [hrun]
      exact ih.permits hcs
  | collect _ ih => exact .collect ih

theorem Reachable.proceeds (h : s.Reachable) : ∃ sink, (State.startOn sink).Proceeds s.state := by
  obtain ⟨config, fuel, sink, hreaches⟩ := h
  exact ⟨sink, hreaches.proceeds (State.intact_startOn sink) (State.NullSafe.startOn sink)⟩

end Session

/-! ## What each class declares -/

/-- The parent of the class under a handle, if it has one. The parent is there, and older. -/
inductive Heap.Parent (h : Heap) (handle : Handle) (c : Container) : Option Container → Prop
  | root (hkind : c.kind = .classOf none) : h.Parent handle c none
  | child {up : Handle} {p : Container} (hkind : c.kind = .classOf (some up)) (hlt : up < handle)
      (hp : h.get up = .ok p) (hclass : p.isClass = true) : h.Parent handle c (some p)

/-- The class under a handle, while there is one, has for its instances what `own` declares, and the
rest exactly as its parent has it. -/
def State.Inherits (s : State) (handle : Handle) (own : Own) : Prop :=
  ∀ c, s.heap.get handle = .ok c → c.isClass = true →
    ∃ parent, s.heap.Parent handle c parent ∧ c.Derives own parent

theorem State.Inherits.exists_parent {s : State} {handle up : Handle} {own : Own} {c : Container}
    (h : s.Inherits handle own) (hc : s.heap.get handle = .ok c)
    (hkind : c.kind = .classOf (some up)) :
    ∃ p, s.heap.get up = .ok p ∧ c.Derives own (some p) := by
  obtain ⟨parent, hparent, hderives⟩ := h c hc (Container.isClass_of_kind hkind)
  cases hparent with
  | root hkind' => cases hkind.symm.trans hkind'
  | child hkind' _ hp _ =>
      cases hkind.symm.trans hkind'
      exact ⟨_, hp, hderives⟩

abbrev Book := Handle → Own

def Book.add (book : Book) (handle : Handle) (own : Own) : Book :=
  fun k => if k = handle then own else book k

theorem Book.add_self (book : Book) (handle : Handle) (own : Own) :
    book.add handle own handle = own :=
  if_pos rfl

theorem Book.add_of_lt (book : Book) {handle k : Handle} (h : k < handle) (own : Own) :
    book.add handle own k = book k :=
  if_neg (Nat.ne_of_lt h)

/-- A state in which every class stands to its parent, and every instance to its class, as they did
when they were made. -/
structure State.Recorded (s : State) (book : Book) : Prop where
  rooted : s.Rooted
  nullSafe : s.NullSafe
  inherits : ∀ handle, s.Inherits handle (book handle)
  /-- The first classes are there from the start. -/
  body : ∀ handle c, s.heap.get handle = .ok c → c.isClass = true →
    Builtin.heap.slots.size ≤ handle → (book handle).OfBody c.name
  mirrors : ∀ handle c cls p, s.heap.get handle = .ok c → c.kind = .instanceOf cls →
    s.heap.get cls = .ok p → p.isClass = true → c.Mirrors p
  older : ∀ handle c cls, s.heap.get handle = .ok c → c.kind = .instanceOf cls → cls < handle

/-! ### The start -/

/-- What a class has, whether it declares it or not. -/
def Own.ofClass (c : Container) : Own :=
  ⟨c.members.get?, c.binaryOps.get?, c.unaryOps.get?⟩

theorem Container.derives_ofClass (c : Container) {parent : Option Container}
    (h : ∀ p, parent = some p → p.members = {} ∧ p.binaryOps = {} ∧ p.unaryOps = {}) :
    c.Derives (.ofClass c) parent := by
  cases parent with
  | none => exact ⟨fun _ => (Option.or_none).symm, fun _ => (Option.or_none).symm,
      fun _ => (Option.or_none).symm⟩
  | some p =>
      obtain ⟨hmembers, hbinary, hunary⟩ := h p rfl
      refine ⟨fun name => ?_, fun op => ?_, fun op => ?_⟩
      · rw [Option.bind_some, hmembers]; exact (Option.or_none).symm
      · rw [Option.bind_some, hbinary]; exact (Option.or_none).symm
      · rw [Option.bind_some, hunary]; exact (Option.or_none).symm

/-- The class of strings is the only one of the first classes that has members, and `Object` is the
parent of the others. -/
def Builtin.book : Book := fun handle =>
  match Builtin.heap.get handle with
  | .ok c => .ofClass c
  | .error _ => ⟨fun _ => none, fun _ => none, fun _ => none⟩

theorem State.recorded_startOn (sink : Sink) : (startOn sink).Recorded Builtin.book where
  rooted := ⟨_, rfl, rfl⟩
  nullSafe := .startOn sink
  inherits handle c hc _ := by
    have hbook : Builtin.book handle = .ofClass c := by
      have hget : Builtin.heap.get handle = .ok c := hc
      rw [Builtin.book, hget]
    have hobject : ∀ p, some (Builtin.plainClass "Object" none) = some p →
        p.members = {} ∧ p.binaryOps = {} ∧ p.unaryOps = {} := by
      rintro p ⟨⟩
      exact ⟨rfl, rfl, rfl⟩
    rw [hbook]
    rcases startOn_get hc with ⟨rfl, rfl⟩ | ⟨rfl, rfl⟩ | ⟨rfl, rfl⟩
    · exact ⟨none, .root rfl, Container.derives_ofClass _ nofun⟩
    · exact ⟨_, .child rfl (by decide) rfl rfl, Container.derives_ofClass _ hobject⟩
    · exact ⟨_, .child rfl (by decide) rfl rfl, Container.derives_ofClass _ hobject⟩
  body handle c hc _ hle := absurd (Heap.lt_size_of_get hc) (Nat.not_lt.mpr hle)
  mirrors handle c cls p hc hkind := by
    rcases startOn_get hc with ⟨_, rfl⟩ | ⟨_, rfl⟩ | ⟨_, rfl⟩ <;> cases hkind
  older handle c cls hc hkind := by
    rcases startOn_get hc with ⟨_, rfl⟩ | ⟨_, rfl⟩ | ⟨_, rfl⟩ <;> cases hkind

/-! ### Changes -/

theorem Terms.Upholds.kept {T : Terms True} {s t : State} (h : T.Upholds s t) {handle : Handle}
    {c c' : Container} (hc : s.heap.get handle = .ok c) (hc' : t.heap.get handle = .ok c') :
    c.Stays c' ∧ (c.isClass = true → c'.members = c.members) := by
  obtain ⟨found, hfound, hstays⟩ := h.container handle c hc
  cases hfound.symm.trans hc'
  exact ⟨hstays, h.template trivial handle c c' hc hc'⟩

namespace State

variable {s t : State} {book : Book} {handle : Handle} {own : Own}

/-- A class that was there before. -/
theorem Inherits.upholds (h : s.Inherits handle own) {T : Terms True} (hst : T.Upholds s t)
    {c c' : Container} (hc : s.heap.get handle = .ok c) (hc' : t.heap.get handle = .ok c')
    (hclass : c.isClass = true) :
    ∃ parent, t.heap.Parent handle c' parent ∧ c'.Derives own parent := by
  obtain ⟨hstays, hmembers⟩ := hst.kept hc hc'
  obtain ⟨parent, hparent, hderives⟩ := h c hc hclass
  have hderives' := hderives.child hstays (hmembers hclass)
  cases hparent with
  | root hkind => exact ⟨none, .root (hstays.kind.trans hkind), hderives'⟩
  | child hkind hlt hp hpclass =>
      obtain ⟨p', hp', hpstays⟩ := hst.container _ _ hp
      refine ⟨some p', .child (hstays.kind.trans hkind) hlt hp' (hpstays.isClass_eq.trans hpclass),
        hderives'.parent hpstays ((hst.kept hp hp').2 hpclass)⟩

/-- A class that is new. -/
theorem inherits_of_drafted {T : Terms True} (hst : T.Upholds s t) {c : Container}
    (hdrafted : c.Drafted own s) :
    ∃ parent, t.heap.Parent s.heap.slots.size c parent ∧ c.Derives own parent := by
  obtain ⟨_, up, p, hkind, hp, hpclass, hderives⟩ := hdrafted
  obtain ⟨p', hp', hpstays⟩ := hst.container up p hp
  exact ⟨some p', .child hkind (Heap.lt_size_of_get hp) hp' (hpstays.isClass_eq.trans hpclass),
    hderives.parent hpstays ((hst.kept hp hp').2 hpclass)⟩

theorem Rooted.upholds (h : s.Rooted) {T : Terms True} (hst : T.Upholds s t)
    (hobject : t.objectClass = s.objectClass) : t.Rooted := by
  obtain ⟨c, hc, hclass⟩ := h
  obtain ⟨c', hc', hstays⟩ := hst.container _ c hc
  exact ⟨c', by rw [hobject, hc'], hstays.isClass_eq.trans hclass⟩

namespace Recorded

/-- A new instance comes from a container that is there. -/
theorem older_apply (h : s.Recorded book) {change : Change}
    (hchange : change.Proper Terms.unbound s)
    (hclass : ∀ c, change = .addClass c → c.Drafted own s) {c : Container} {cls : Handle}
    (hc : (s.apply change).heap.get handle = .ok c) (hkind : c.kind = .instanceOf cls) :
    cls < handle := by
  rcases get_apply_cases (hchange.own trivial) hc with ⟨old, hold, hlasts⟩ | ⟨rfl, hnew | hnew⟩
  · exact h.older handle old cls hold (hlasts.kind.symm.trans hkind)
  · obtain ⟨_, _, _, hkind', _⟩ := hclass c hnew
    cases hkind.symm.trans hkind'
  · obtain ⟨template, i, rfl, rfl⟩ := hnew
    cases hkind
    exact Heap.lt_size_of_get (show s.heap.get cls = .ok template from hchange)

theorem mirrors_apply (h : s.Recorded book) {change : Change}
    (hchange : change.Proper Terms.unbound s)
    (hclass : ∀ c, change = .addClass c → c.Drafted own s) {c p : Container} {cls : Handle}
    (hc : (s.apply change).heap.get handle = .ok c) (hkind : c.kind = .instanceOf cls)
    (hp : (s.apply change).heap.get cls = .ok p) (hpclass : p.isClass = true) : c.Mirrors p := by
  have hst := hchange.upholds
  have hlt := h.older_apply hchange hclass hc hkind
  rcases get_apply_cases (hchange.own trivial) hc with ⟨old, hold, hlasts⟩ | ⟨rfl, hnew | hnew⟩
  · -- the class is older than the instance, so it is not new either
    rcases get_apply_cases (hchange.own trivial) hp with ⟨q, hq, _⟩ | ⟨rfl, _⟩
    · obtain ⟨hqstays, hmembers⟩ := hst.kept hq hp
      have hqclass : q.isClass = true := hqstays.isClass_eq.symm.trans hpclass
      have hmirrors := h.mirrors handle old cls q hold (hlasts.kind.symm.trans hkind) hq hqclass
      exact hmirrors.stays (hst.kept hold hc).1 (hmembers hqclass)
    · exact absurd hlt (Nat.not_lt.mpr (Nat.le_of_lt (Heap.lt_size_of_get hold)))
  · obtain ⟨_, _, _, hkind', _⟩ := hclass c hnew
    cases hkind.symm.trans hkind'
  · obtain ⟨template, i, rfl, rfl⟩ := hnew
    cases hkind
    obtain ⟨hstays, hmembers⟩ := hst.kept (show s.heap.get cls = .ok template from hchange) hp
    exact (template.mirrors_instantiate cls s.lists).stays (.refl _)
      (hmembers (hstays.isClass_eq.symm.trans hpclass))

/-- One change. If it adds a class, this is the class that `own` is about. -/
theorem apply_add (h : s.Recorded book) {change : Change} (hchange : change.Proper Terms.unbound s)
    (hclass : ∀ c, change = .addClass c → c.Drafted own s) :
    (s.apply change).Recorded (book.add s.heap.slots.size own) where
  rooted := h.rooted.upholds hchange.upholds (s.apply_objectClass (hchange.own trivial))
  nullSafe := hchange.upholds.nullSafe trivial h.nullSafe
  inherits handle c hc hisClass := by
    rcases get_apply_cases (hchange.own trivial) hc with ⟨old, hold, hlasts⟩ | ⟨rfl, hnew | hnew⟩
    · rw [book.add_of_lt (Heap.lt_size_of_get hold)]
      rw [Container.isClass, hlasts.kind] at hisClass
      exact (h.inherits handle).upholds hchange.upholds hold hc hisClass
    · rw [book.add_self]
      exact inherits_of_drafted hchange.upholds (hclass c hnew)
    · obtain ⟨_, _, _, rfl⟩ := hnew
      cases hisClass
  body handle c hc hisClass hle := by
    rcases get_apply_cases (hchange.own trivial) hc with ⟨old, hold, hlasts⟩ | ⟨rfl, hnew | hnew⟩
    · rw [book.add_of_lt (Heap.lt_size_of_get hold), hlasts.name]
      rw [Container.isClass, hlasts.kind] at hisClass
      exact h.body handle old hold hisClass hle
    · rw [book.add_self]
      exact (hclass c hnew).1
    · obtain ⟨_, _, _, rfl⟩ := hnew
      cases hisClass
  mirrors _ _ _ _ := h.mirrors_apply hchange hclass
  older _ _ _ := h.older_apply hchange hclass

theorem apply (h : s.Recorded book) {change : Change} (hchange : change.Proper Terms.unbound s) :
    ∃ book', (s.apply change).Recorded book' ∧
      ∀ handle < s.heap.slots.size, book' handle = book handle := by
  -- where no class is added, any entry will do
  have hown : ∃ own, ∀ c, change = .addClass c → c.Drafted own s := by
    cases change with
    | addClass c =>
        obtain ⟨own, hdrafted⟩ := (hchange trivial).2 h.rooted
        refine ⟨own, ?_⟩
        rintro _ ⟨⟩
        exact hdrafted
    | frame | list _ | bind _ _ _ | setItem _ _ _ | setMember _ _ _ | addInstance _ _
    | register _ _ | print _ | foreign _ => exact ⟨book 0, nofun⟩
  obtain ⟨own, hown⟩ := hown
  exact ⟨_, h.apply_add hchange hown, fun handle hlt => book.add_of_lt hlt own⟩

theorem control (h : s.Recorded book) (depth : Nat) (context : List (Option String)) :
    (s.control depth context).Recorded book :=
  ⟨h.rooted, h.nullSafe.control depth context, h.inherits, h.body, h.mirrors, h.older⟩

/-- A class that is kept keeps its parent. -/
theorem collectGarbage (h : s.Recorded book) : s.collectGarbage.1.Recorded book where
  rooted := by
    obtain ⟨c, hc, hclass⟩ := h.rooted
    have hlive : s.Live (.container s.objectClass) := .base (by simp [anchors])
    exact ⟨c, get_collectGarbage.mpr ⟨hc, hlive⟩, hclass⟩
  nullSafe := h.nullSafe.collectGarbage
  inherits handle c hc hclass := by
    obtain ⟨hc, hlive⟩ := get_collectGarbage.mp hc
    obtain ⟨parent, hparent, hderives⟩ := h.inherits handle c hc hclass
    refine ⟨parent, ?_, hderives⟩
    cases hparent with
    | root hkind => exact .root hkind
    | @child up p hkind hlt hp hpclass =>
        have hup : s.Live (.container up) := by
          refine .step hlive ?_
          simp only [Store.arrows, hc]
          exact Container.mem_nodes_of_above? (by rw [hkind]; rfl)
        exact .child hkind hlt (get_collectGarbage.mpr ⟨hp, hup⟩) hpclass
  body handle c hc := h.body handle c (get_collectGarbage.mp hc).1
  mirrors handle c cls p hc hkind hp :=
    h.mirrors handle c cls p (get_collectGarbage.mp hc).1 hkind (get_collectGarbage.mp hp).1
  older handle c cls hc := h.older handle c cls (get_collectGarbage.mp hc).1

/-- What one step keeps, a session keeps. -/
theorem proceeds (h : s.Recorded book) (hst : s.Proceeds t) :
    ∃ book', t.Recorded book' ∧ ∀ handle < s.heap.slots.size, book' handle = book handle := by
  induction hst with
  | refl => exact ⟨book, h, fun _ _ => rfl⟩
  | change hst hchange ih =>
      obtain ⟨book₁, ht, hbook₁⟩ := ih
      obtain ⟨book₂, hu, hbook₂⟩ := ht.apply hchange
      refine ⟨book₂, hu, fun handle hlt => ?_⟩
      rw [hbook₂ handle (Nat.lt_of_lt_of_le hlt hst.persists.size), hbook₁ handle hlt]
  | control _ depth context ih =>
      obtain ⟨book', ht, hbook'⟩ := ih
      exact ⟨book', ht.control depth context, hbook'⟩
  | collect _ ih =>
      obtain ⟨book', ht, hbook'⟩ := ih
      exact ⟨book', ht.collectGarbage, hbook'⟩

end Recorded

end State

end ClassScript

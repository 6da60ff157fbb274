import ClassScript.Proofs.Templates

/-!
# Inheritance

When a class is declared, it gets the tables of its parent and changes them. Nobody looks at the
parent again to find a member or an operator of an instance. Still, what is found is what a walk
from the class of the instance upwards would find: the declaration of the nearest class that has
one. Overloads of the class itself and inherited ones are never put together.

The code here runs without a host. A session runs as if it had none, since it declares no function
of one.
-/

namespace ClassScript

/-! ## The walk along a chain -/

def Book.nearest {α : Type} (book : Book) (chain : List Handle) (look : Own → Option α) :
    Option α :=
  chain.findSome? fun k => look (book k)

theorem Book.nearest_cons {α : Type} (book : Book) (k : Handle) (chain : List Handle)
    (look : Own → Option α) :
    book.nearest (k :: chain) look = (look (book k)).or (book.nearest chain look) := by
  rw [nearest, List.findSome?_cons]
  cases look (book k) <;> rfl

/-- A class has for its instances what the nearest class of a chain declares. -/
structure Container.Flattens (c : Container) (book : Book) (chain : List Handle) : Prop where
  member : ∀ name, c.members.get? name = book.nearest chain (·.member name)
  binary : ∀ op, c.binaryOps.get? op = book.nearest chain (·.binary op)
  unary : ∀ op, c.unaryOps.get? op = book.nearest chain (·.unary op)

section Walk

variable {book : Book} {chain : List Handle} {k : Handle} {c p : Container}

theorem Container.Derives.flattens_root (h : c.Derives (book k) none) : c.Flattens book [k] where
  member name := by rw [h.member, Book.nearest_cons]; rfl
  binary op := by rw [h.binary, Book.nearest_cons]; rfl
  unary op := by rw [h.unary, Book.nearest_cons]; rfl

theorem Container.Derives.flattens_child (h : c.Derives (book k) (some p))
    (hp : p.Flattens book chain) : c.Flattens book (k :: chain) where
  member name := by rw [h.member, Option.bind_some, hp.member, Book.nearest_cons]
  binary op := by rw [h.binary, Option.bind_some, hp.binary, Book.nearest_cons]
  unary op := by rw [h.unary, Option.bind_some, hp.unary, Book.nearest_cons]

/-- A walk goes through copies of copies, as many as there are classes on the chain. -/
theorem Heap.Chain.flattens {s : State} {cls : Handle} (hchain : s.heap.Chain cls chain)
    (hinherits : ∀ k ∈ chain, s.Inherits k (book k)) (hc : s.heap.get cls = .ok c) :
    c.Flattens book chain := by
  induction hchain generalizing c with
  | root hroot hkind =>
      cases hroot.symm.trans hc
      obtain ⟨parent, hparent, hderives⟩ :=
        hinherits _ List.mem_cons_self _ hc (Container.isClass_of_kind hkind)
      cases hparent with
      | root => exact hderives.flattens_root
      | child hkind' => cases hkind.symm.trans hkind'
  | child hchild hkind _ _ ih =>
      cases hchild.symm.trans hc
      obtain ⟨p, hp, hderives⟩ := (hinherits _ List.mem_cons_self).exists_parent hc hkind
      exact hderives.flattens_child (ih (fun k hk => hinherits k (List.mem_cons_of_mem _ hk)) hp)

end Walk

/-! ## What is found of an instance -/

namespace State

variable {s : State} {handle cls : Handle} {name : String} {c : Container} {m : Member}

theorem locate_of_get? (hc : s.heap.get handle = .ok c) (hkind : c.kind = .instanceOf cls)
    (hm : c.members.get? name = some m) : s.locate handle name = .ok (⟨handle, false⟩, m) := by
  simp [locate, hc, Container.isClass, hkind, hm, bind, Except.bind, pure, Except.pure]

theorem isStatic_of_locate {slot : MemberSlot} (hc : s.heap.get handle = .ok c)
    (hnone : c.members.get? name = none) (h : s.locate handle name = .ok (slot, m)) :
    slot.isStatic = true := by
  obtain ⟨found, hfound, h⟩ := exists_answer_of_bind_eq_ok h
  cases hc.symm.trans hfound
  have hown : (if c.isClass then none else c.members.get? name) = none := by
    split
    · rfl
    · exact hnone
  simp only [hown] at h
  obtain ⟨owner?, _, h⟩ := exists_answer_of_bind_eq_ok h
  cases owner? with
  | none => cases h
  | some owner =>
      obtain ⟨o, _, h⟩ := exists_answer_of_bind_eq_ok h
      split at h
      · cases h
        rfl
      · cases h

theorem operandClass_instance {p : Container} (hc : s.heap.get handle = .ok c)
    (hkind : c.kind = .instanceOf cls) (hp : s.heap.get cls = .ok p) :
    s.operandClass (.object handle) = .ok (some p) := by
  simp [operandClass, hc, hkind, hp, bind, Except.bind, pure, Except.pure]

/-- What is found of an instance is what the nearest class of a chain declares. If none declares a
member of a name, only a static member is found. -/
structure Finds (s : State) (book : Book) (chain : List Handle) (handle : Handle) : Prop where
  member : ∀ name d, book.nearest chain (·.member name) = some d →
    ∃ m, s.locate handle name = .ok (⟨handle, false⟩, m) ∧ d.Presents m
  missing : ∀ name, book.nearest chain (·.member name) = none →
    ∀ slot m, s.locate handle name = .ok (slot, m) → slot.isStatic = true
  operators : ∃ cls, s.operandClass (.object handle) = .ok (some cls) ∧
    (∀ op, cls.binaryOps.get? op = book.nearest chain (·.binary op)) ∧
    ∀ op, cls.unaryOps.get? op = book.nearest chain (·.unary op)

theorem finds_of_mirrors {p : Container} {book : Book} {chain : List Handle}
    (hc : s.heap.get handle = .ok c) (hkind : c.kind = .instanceOf cls)
    (hp : s.heap.get cls = .ok p) (hmirrors : c.Mirrors p) (hflattens : p.Flattens book chain) :
    s.Finds book chain handle where
  member name d hd := by
    rw [← hflattens.member] at hd
    obtain ⟨m, hm, hpresents⟩ := hmirrors.member name d hd
    exact ⟨m, locate_of_get? hc hkind hm, hpresents⟩
  missing name hnone slot m hlocate := by
    rw [← hflattens.member] at hnone
    exact isStatic_of_locate hc (hmirrors.get?_eq_none hnone) hlocate
  operators := ⟨p, operandClass_instance hc hkind hp, hflattens.binary, hflattens.unary⟩

namespace Recorded

variable {book : Book}

theorem chain (h : s.Recorded book) (hc : s.heap.get handle = .ok c) (hclass : c.isClass = true) :
    ∃ chain, s.heap.Chain handle chain := by
  induction handle using Nat.strongRecOn generalizing c with
  | ind handle ih =>
      obtain ⟨parent, hparent, _⟩ := h.inherits handle c hc hclass
      cases hparent with
      | root hkind => exact ⟨[handle], .root hc hkind⟩
      | child hkind hlt hp hpclass =>
          obtain ⟨chain, hchain⟩ := ih _ hlt hp hpclass
          exact ⟨handle :: chain, .child hc hkind hlt hchain⟩

theorem finds (h : s.Recorded book) {other : Book} {chain : List Handle}
    (hchain : s.heap.Chain cls chain) (hinherits : ∀ k ∈ chain, s.Inherits k (other k))
    (hc : s.heap.get handle = .ok c) (hkind : c.kind = .instanceOf cls) :
    s.Finds other chain handle := by
  have hcls : ∃ p, s.heap.get cls = .ok p ∧ p.isClass = true := by
    cases hchain with
    | root hp hpkind => exact ⟨_, hp, Container.isClass_of_kind hpkind⟩
    | child hp hpkind => exact ⟨_, hp, Container.isClass_of_kind hpkind⟩
  obtain ⟨p, hp, hpclass⟩ := hcls
  exact finds_of_mirrors hc hkind hp (h.mirrors handle c cls p hc hkind hp hpclass)
    (hchain.flattens hinherits hp)

/-- A class that a change has just added, on the heap of every later state. -/
theorem later {own : Own} {new : Container} {t : State} (hs : s.Recorded book)
    (hnew : (Change.addClass new).Proper Terms.unbound s) (hdrafted : new.Drafted own s)
    (h : (s.apply (.addClass new)).Proceeds t) :
    t.Inherits s.heap.slots.size own ∧
      ∀ c, t.heap.get s.heap.slots.size = .ok c → c.name = new.name ∧ c.kind = new.kind := by
  have hadded : (s.apply (.addClass new)).heap.get s.heap.slots.size = .ok new :=
    Heap.get_alloc_self _ _
  have hlt := Heap.lt_size_of_get hadded
  have hrecorded := hs.apply_add hnew (by rintro _ ⟨⟩; exact hdrafted)
  obtain ⟨book', ht, hbook'⟩ := hrecorded.proceeds h
  refine ⟨?_, fun c hc => ?_⟩
  · have hinherits := ht.inherits s.heap.slots.size
    rwa [hbook' _ hlt, book.add_self] at hinherits
  · obtain ⟨old, hold, hlasts⟩ := h.persists.same _ c hlt hc
    cases hadded.symm.trans hold
    exact ⟨hlasts.name, hlasts.kind⟩

end Recorded

end State

/-! ## Declarations -/

namespace Evaluator

open Exec

variable {ev : Evaluator} {scope : Scope} {decl : ClassDecl} {s t : State}

/-- The parts of a declaration: the parent is found before the body runs. -/
theorem exists_of_declareClass (h : ev.declareClass scope decl s = .ok () t) :
    ∃ found parent, s.parentOf scope decl.name none decl.bases = .ok found ∧
      s.heap.get (found.getD s.objectClass) = .ok parent ∧
      ev.defineClass scope decl (found.getD s.objectClass) parent
        (s.apply (.register decl.name parent.name)) = .ok () t := by
  obtain ⟨_, _, hget, h⟩ := exists_of_bind_eq_ok h
  cases hget
  cases hlocal : (s.frames.local? scope.inner decl.name).isSome with
  | true =>
      rw [hlocal] at h
      cases h
  | false =>
      rw [hlocal] at h
      obtain ⟨found, _, hfound, h⟩ := exists_of_bind_eq_ok h
      obtain ⟨hfound, rfl⟩ := ask_eq_ok hfound
      obtain ⟨parent, _, hparent, h⟩ := exists_of_bind_eq_ok h
      obtain ⟨hparent, rfl⟩ := ask_eq_ok hparent
      exact ⟨found, parent, hfound, hparent, h⟩

/-- The class comes on the heap, and its name into the frame, when the body has run. -/
theorem exists_of_defineClass {handle : Handle} {parent : Container}
    (h : ev.defineClass scope decl handle parent s = .ok () t) :
    ∃ d u, asCodeOf (some decl.name)
        (ev.addMembers scope (inherit decl.name handle parent) decl.members) s = .ok d u ∧
      t = (u.apply (.addClass d.finished)).apply
        (.bind scope.inner decl.name ⟨.classType, .object u.heap.slots.size, true⟩) := by
  obtain ⟨d, u, hbody, h⟩ := exists_of_bind_eq_ok h
  obtain ⟨_, _, halloc, h⟩ := exists_of_bind_eq_ok h
  cases halloc
  obtain ⟨b, _, hask, h⟩ := exists_of_bind_eq_ok h
  obtain ⟨hb, rfl⟩ := ask_eq_ok hask
  cases h
  refine ⟨d, u, hbody, ?_⟩
  unfold Frames.newConstant at hb
  split at hb
  · cases hb
  · cases hb
    rfl

/-- What a declaration has made: a class under a new handle. At any later moment, while it is there,
the class has for its instances what the items of the body say, and the rest exactly as its parent
has it. -/
structure Makes (ev : Evaluator) (scope : Scope) (decl : ClassDecl) (s t : State) (handle : Handle)
    (items : List Item) : Prop where
  /-- The body was run on the way from `s` to `t`. -/
  declares : ∃ before after, s.Proceeds before ∧
    DeclaresAll ev scope decl.name before decl.members items after ∧ after.Proceeds t
  covers : (Own.ofItems decl.name items).Covers decl.members
  last : t.heap.slots.size = handle + 1
  there : ∃ c, t.heap.get handle = .ok c
  bound : scope.inner < s.frames.size →
    t.frames.local? scope.inner decl.name = some ⟨.classType, .object handle, true⟩
  derives : ∃ found, s.parentOf scope decl.name none decl.bases = .ok found ∧
    ∀ u, t.Proceeds u → ∀ c, u.heap.get handle = .ok c →
      c.name = decl.name ∧ c.kind = .classOf (some (found.getD s.objectClass)) ∧
        ∃ parent, u.heap.get (found.getD s.objectClass) = .ok parent ∧
          c.Derives (.ofItems decl.name items) (some parent)
  inherits : ∀ u, t.Proceeds u → u.Inherits handle (.ofItems decl.name items)

structure Drafts (ev : Evaluator) (scope : Scope) (decl : ClassDecl) (s u : State) (up : Handle)
    (d : Draft) (items : List Item) : Prop where
  proceeds : s.Proceeds u
  size : s.frames.size ≤ u.frames.size
  recorded : ∃ book, u.Recorded book
  declares : ∃ before after, s.Proceeds before ∧
    DeclaresAll ev scope decl.name before decl.members items after ∧ after.Proceeds u
  named : d.finished.name = decl.name ∧ d.finished.kind = .classOf (some up)
  drafted : d.finished.Drafted (.ofItems decl.name items) u
  nullSafe : d.finished.NullSafe

theorem Orderly.drafts (hev : ev.Orderly True) {book : Book} (hs : s.Recorded book)
    {found : Option Handle} {parent : Container} {d : Draft} {u : State}
    (hfound : s.parentOf scope decl.name none decl.bases = .ok found)
    (hparent : s.heap.get (found.getD s.objectClass) = .ok parent)
    (hbody : asCodeOf (some decl.name)
      (ev.addMembers scope (inherit decl.name (found.getD s.objectClass) parent) decl.members)
        (s.apply (.register decl.name parent.name)) = .ok d u) :
    ∃ items, ev.Drafts scope decl s u (found.getD s.objectClass) d items := by
  have hregister : (Change.register decl.name parent.name).Proper Terms.unbound s := trivial
  have hregistered := State.Proceeds.refl.change hregister
  have hfits : Terms.unbound.Fits (s.apply (.register decl.name parent.name)) :=
    ⟨Nat.zero_le _, fun _ => hregister.upholds.nullSafe trivial hs.nullSafe⟩
  obtain ⟨items, after, hitems, hafter, hreflects⟩ := hev.declaresAll_classBody hfits hbody
  obtain ⟨cs, hcs, rfl, hsafe⟩ := (hev.classBody scope decl _ hfits fun _ =>
    hs.nullSafe.member _ parent hparent).exists_of_ok hbody
  have hproceeds := hregistered.permits hcs
  obtain ⟨book', hu, _⟩ := hs.proceeds hproceeds
  obtain ⟨hname, hkind, _⟩ := hreflects.finished
  exact ⟨items, {
    proceeds := hproceeds
    size := hcs.upholds.size
    recorded := ⟨book', hu⟩
    declares := ⟨_, after, hregistered.control _ _, hitems, hafter ▸ .control .refl _ _⟩
    named := ⟨hname, hkind⟩
    drafted := hcs.drafted trivial hparent (State.isClass_of_parent hfound hparent) hu.rooted
      hitems hreflects
    nullSafe := Draft.nullSafe_finished (hsafe trivial) }⟩

/-- A declaration that succeeds. -/
theorem Orderly.makes (hev : ev.Orderly True) {book : Book} (hs : s.Recorded book)
    (h : ev.declareClass scope decl s = .ok () t) :
    s.Proceeds t ∧ ∃ handle items, ev.Makes scope decl s t handle items := by
  obtain ⟨found, parent, hfound, hparent, h⟩ := exists_of_declareClass h
  obtain ⟨d, u, hbody, rfl⟩ := exists_of_defineClass h
  obtain ⟨items, hdrafts⟩ := hev.drafts hs hfound hparent hbody
  obtain ⟨book', hu⟩ := hdrafts.recorded
  have hnew : (Change.addClass d.finished).Proper Terms.unbound u :=
    fun _ => ⟨hdrafts.nullSafe, fun _ => ⟨_, hdrafts.drafted⟩⟩
  have hbind : (Change.bind scope.inner decl.name
      ⟨.classType, .object u.heap.slots.size, true⟩).Proper Terms.unbound
        (u.apply (.addClass d.finished)) :=
    ⟨fun _ hlt => absurd hlt (Nat.not_lt_zero _), fun _ => Or.inl (Nat.zero_le _),
      fun _ _ => nofun⟩
  -- what is later than the binding of the name is later than the class
  have hlater := fun {w} hw => hu.later (t := w) hnew hdrafts.drafted
    ((State.Proceeds.refl.change hbind).trans hw)
  obtain ⟨before, after, hbefore, hitems, hafter⟩ := hdrafts.declares
  refine ⟨(hdrafts.proceeds.change hnew).change hbind, u.heap.slots.size, items, {
    declares := ⟨before, after, hbefore, hitems, (hafter.change hnew).change hbind⟩
    covers := hitems.covers
    last := by simp [State.apply, Heap.alloc]
    there := ⟨d.finished, Heap.get_alloc_self _ _⟩
    bound := fun hlt => Frames.local?_define_self (Nat.lt_of_lt_of_le hlt hdrafts.size) _ _
    derives := ⟨found, hfound, fun w hw c hc => ?_⟩
    inherits := fun w hw => (hlater hw).1 }⟩
  obtain ⟨hname, hkind⟩ := (hlater hw).2 c hc
  have hkind' := hkind.trans hdrafts.named.2
  exact ⟨hname.trans hdrafts.named.1, hkind', (hlater hw).1.exists_parent hc hkind'⟩

end Evaluator

/-! ## Sessions -/

namespace Session

/-- A session goes on as `Proceeds` says, from one program to the next and from each change that a
run makes to those after it; and so does all code, from any state `s` that there can be then. If the
code declares a class, the class has at every later moment what its body declares, for every name
and operator that the body declares anything for, and otherwise exactly what its parent has. Every
class on the heap goes back to the first classes on a chain, and was made like this. So whatever the
classes of a chain declare, what an instance has is what the nearest of them declares. -/
theorem inherits_by_chain {session : Session} (h : session.Reachable) :
    (∀ later, session.Reaches later → session.state.Proceeds later.state) ∧
      (∀ text file, ∃ changes, (session.run text file).2.state = session.state.after changes ∧
        ∀ before more, before ++ more <+: changes →
          (session.state.after before).Proceeds (session.state.after (before ++ more))) ∧
      ∀ s, session.state.Proceeds s →
        (∀ maxDepth fuel scope,
          let ev := ClassScript.evaluator { maxDepth } fuel
          (∀ e, s.Proceeds ((ev.eval scope e).final s)) ∧
            (∀ stmt, s.Proceeds ((ev.exec scope stmt).final s)) ∧
            ∀ decl t, ev.declareClass scope decl s = .ok () t →
              s.Proceeds t ∧ ∃ handle items, ev.Makes scope decl s t handle items) ∧
        (∃ book : Book, (∀ k, s.Inherits k (book k)) ∧
          ∀ cls p, s.heap.get cls = .ok p → p.isClass = true →
            (∃ chain, s.heap.Chain cls chain) ∧
              (Builtin.heap.slots.size ≤ cls → (book cls).OfBody p.name)) ∧
        ∀ (book : Book) cls chain, s.heap.Chain cls chain → (∀ k ∈ chain, s.Inherits k (book k)) →
          (∀ p, s.heap.get cls = .ok p → p.Flattens book chain) ∧
            ∀ handle c, s.heap.get handle = .ok c → c.kind = .instanceOf cls →
              s.Finds book chain handle := by
  obtain ⟨sink, hstart⟩ := h.proceeds
  obtain ⟨stale, hintact⟩ := h.intact
  refine ⟨fun later hlater => hlater.proceeds hintact h.nullSafe, fun text file => ?_,
    fun s hs => ?_⟩
  · obtain ⟨changes, hchanges, hrun⟩ := run_permits hintact h.nullSafe text file
    refine ⟨changes, hrun, fun before more hmore => ?_⟩
    rw [State.after_append]
    exact State.Proceeds.refl.permits (hchanges.of_isPrefix hmore).of_append
  obtain ⟨book, hbook, _⟩ := (State.recorded_startOn sink).proceeds (hstart.trans hs)
  refine ⟨fun maxDepth fuel scope => ?_, ⟨book, hbook.inherits, fun cls p hp hclass => ?_⟩,
    fun other cls chain hchain hinherits => ?_⟩
  · have hev : (ClassScript.evaluator { maxDepth } fuel).Orderly True :=
      orderly_evaluator (Host.conducted_none True) fuel
    have hfits : Terms.unbound.Fits s := ⟨Nat.zero_le _, fun _ => hbook.nullSafe⟩
    refine ⟨fun e => ?_, fun stmt => ?_, fun decl t hrun => hev.makes hbook hrun⟩
    · obtain ⟨cs, hcs, hfinal⟩ := (hev.eval scope e hfits).exists_final
      rw [hfinal]
      exact State.Proceeds.refl.permits hcs
    · obtain ⟨cs, hcs, hfinal⟩ :=
        (hev.exec scope stmt hfits fun _ => Or.inl (Nat.zero_le _)).exists_final
      rw [hfinal]
      exact State.Proceeds.refl.permits hcs
  · exact ⟨hbook.chain hp hclass, hbook.body cls p hp hclass⟩
  · exact ⟨fun p hp => hchain.flattens hinherits hp, fun handle c hc hkind =>
      hbook.finds hchain hinherits hc hkind⟩

/-- A class with some methods that give back the name of the class. -/
def herald (name : String) (bases : List Ty) (methods : List String) : ClassDecl where
  name := name
  bases := bases
  members := methods.map fun method =>
    { access := .everywhere, isStatic := false,
      body := .method
        { name := method, params := [], returnType := none, body := .ret (some (.string name)) } }

/-- A class `A`, a class `B` that inherits from it and declares one of its methods anew, and an
instance of `B`. -/
theorem inherits_by_chain_override :
    let ev := ClassScript.evaluator {} 20
    let scope := (State.startOn {}).globals
    let decl := herald "B" [.named "A"] ["f"]
    let s := (ev.exec scope (.classDecl (herald "A" [] ["f", "g"]))).final (State.startOn {})
    let t := (ev.declareClass scope decl).final s
    let u := (ev.eval scope (.call (.var "B") [])).final t
    (∃ items, ev.Makes scope decl s t 4 items) ∧ (∃ book, u.Finds book [4, 3, 0] 5) ∧
      (u.locate 5 "f").toOption.map (·.2.owner) = some "B" ∧
      (u.locate 5 "g").toOption.map (·.2.owner) = some "A" := by
  intro ev scope decl s t u
  have hfresh : (fresh {} 20 {}).Reachable := ⟨{}, 20, {}, .refl⟩
  obtain ⟨_, _, hstate⟩ := inherits_by_chain hfresh
  have hs : (State.startOn {}).Proceeds s :=
    ((hstate (State.startOn {}) .refl).1 _ 20 scope).2.1 _
  have hsucceeds : (match ev.declareClass scope decl s with
      | .ok _ _ => true
      | .error _ _ => false) = true := by decide +kernel
  have hrun : ev.declareClass scope decl s = .ok () t := by
    cases hrun : ev.declareClass scope decl s with
    | error why v => rw [hrun] at hsucceeds; cases hsucceeds
    | ok _ v => simp [t, Exec.final, hrun]
  obtain ⟨ht, handle, items, hmakes⟩ := ((hstate s hs).1 _ 20 scope).2.2 decl t hrun
  have hhandle : handle = 4 := by
    have hsize : t.heap.slots.size = 5 := by decide +kernel
    exact Nat.succ.inj (hmakes.last.symm.trans hsize)
  have hu : t.Proceeds u := ((hstate t (hs.trans ht)).1 _ 20 scope).1 _
  obtain ⟨_, ⟨book, hinherits, _⟩, hfinds⟩ := hstate u ((hs.trans ht).trans hu)
  have hget : ∀ k kind, (u.heap.get k).toOption.map Container.kind = some kind →
      ∃ c, u.heap.get k = .ok c ∧ c.kind = kind := by
    intro k kind hkind
    cases hc : u.heap.get k with
    | error f => rw [hc] at hkind; cases hkind
    | ok c => rw [hc] at hkind; exact ⟨c, rfl, Option.some.inj hkind⟩
  obtain ⟨_, hobject, hobject'⟩ := hget 0 (.classOf none) (by decide +kernel)
  obtain ⟨_, ha, ha'⟩ := hget 3 (.classOf (some 0)) (by decide +kernel)
  obtain ⟨_, hb, hb'⟩ := hget 4 (.classOf (some 3)) (by decide +kernel)
  obtain ⟨_, hc, hc'⟩ := hget 5 (.instanceOf 4) (by decide +kernel)
  have hchain : u.heap.Chain 4 [4, 3, 0] :=
    .child hb hb' (by decide) (.child ha ha' (by decide) (.root hobject hobject'))
  refine ⟨⟨items, hhandle ▸ hmakes⟩, ⟨book, ?_⟩, by decide +kernel, by decide +kernel⟩
  exact (hfinds book 4 [4, 3, 0] hchain fun k _ => hinherits k).2 5 _ hc hc'

end Session

end ClassScript

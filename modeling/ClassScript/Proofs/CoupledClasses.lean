import ClassScript.Proofs.CoupledCalls

/-!
# Coupled class declarations

A class in the making has what it inherits and what its body has declared. When it is done it is
added to the heap, under a name that the registry has known since the body began.
-/

namespace ClassScript

/-! ## Drafts -/

/-- What is known of a class in the making, from its first member to its last. -/
structure Draft.Begun (H : Horizon) (s : State) (name : String) (handle : Handle)
    (parent : Container) (d : Draft) : Prop where
  within : d.cls.Within H s
  name_eq : d.cls.name = name
  kind_eq : d.cls.kind = .classOf (some handle)
  above : d.cls.Extends parent

theorem Container.mem_origins_insert {c : Container} {isStatic : Bool} {name : String}
    {m : Member} {static : Bool} {o : Origin}
    (h : o ∈ (c.setTable isStatic ((c.table isStatic).insert name m)).origins static) :
    o.owner = m.owner ∨ o ∈ c.origins static := by
  have hinsert : ∀ {entries : List (String × Member)},
      o ∈ (Assoc.insertEntry name m entries).map (fun entry => entry.2.origin entry.1) →
        o.owner = m.owner ∨ o ∈ entries.map fun entry => entry.2.origin entry.1 := by
    intro entries h
    obtain ⟨entry, hentry, rfl⟩ := List.mem_map.mp h
    rcases Assoc.mem_insertEntry hentry with rfl | hentry
    · exact Or.inl rfl
    · exact Or.inr (List.mem_map.mpr ⟨entry, hentry, rfl⟩)
  cases isStatic <;> cases static
  · exact hinsert h
  · exact Or.inr h
  · exact Or.inr h
  · exact hinsert h

namespace Draft.Begun

variable {H : Horizon} {s t : State} {name : String} {handle : Handle} {parent : Container}
  {d : Draft}

theorem mono (hst : H.Keeps s t) (h : d.Begun H s name handle parent) :
    d.Begun H t name handle parent :=
  { h with within := h.within.mono hst }

theorem put (h : d.Begun H s name handle parent) (isStatic : Bool) (member : String) {m : Member}
    (hm : m.Within H s) (howner : m.owner = d.cls.name) :
    (d.put isStatic member m).Begun H s name handle parent := by
  have hcls : (d.put isStatic member m).cls =
      d.cls.setTable isStatic ((d.cls.table isStatic).insert member m) := by
    cases isStatic <;> rfl
  have hname : (d.put isStatic member m).cls.name = d.cls.name := by cases isStatic <;> rfl
  have horigins : ∀ static, ∀ o ∈ (d.put isStatic member m).cls.origins static,
      o.owner = d.cls.name ∨ o ∈ d.cls.origins static := by
    intro static o h
    rw [hcls] at h
    exact (Container.mem_origins_insert h).imp_left fun h => h.trans howner
  refine ⟨?_, hname.trans h.name_eq, ?_, ⟨fun o ho => ?_, fun o ho => ?_⟩⟩
  · rw [hcls]
    refine h.within.setTable isStatic fun m' hm' => ?_
    rcases Assoc.mem_values_insert hm' with rfl | hm'
    · exact hm
    · exact h.within.table isStatic m' hm'
  · refine Eq.trans ?_ h.kind_eq
    cases isStatic <;> rfl
  · rw [hname]
    rcases horigins false o ho with hown | ho
    · exact Or.inl hown
    · exact h.above.members o ho
  · rw [hname]
    rcases horigins true o ho with hown | ho
    · exact hown
    · exact h.above.statics o ho

theorem insert (h : d.Begun H s name handle parent) (isStatic : Bool) (member : String)
    {m : Member} (hm : m.Within H s) (howner : m.owner = d.cls.name) :
    H.Agree (fun d => d.Begun H s name handle parent) (d.insert isStatic member m)
      (d.insert isStatic member m) := by
  unfold Draft.insert
  split
  · exact .error _ (Horizon.tolerates_of_ne nofun)
  · exact .ok _ (h.put isStatic member hm howner)

theorem methodFunction (h : d.Begun H s name handle parent) (isStatic : Bool) (member : String) :
    H.Agree (fun f => f.Within H s) (d.methodFunction isStatic member)
      (d.methodFunction isStatic member) := by
  unfold Draft.methodFunction
  split
  · cases hm : (d.cls.table isStatic).get? member with
    | none => exact .ok _ (Function.Within.empty _)
    | some m =>
        have hvalue := (h.within.table isStatic m (Assoc.mem_values_of_get? hm)).value
        obtain ⟨access, ty, value, owner, form⟩ := m
        cases value with
        | function f =>
            cases form with
            | field readonly => exact .ok f hvalue
            | property getter setter => exact .error _ (Horizon.tolerates_of_ne (by simp))
        | number _ | string _ | boolean _ | object _ | list _ | null =>
            exact .error _ (Horizon.tolerates_of_ne (by simp))
  · exact .ok _ (Function.Within.empty _)

theorem addMethod (h : d.Begun H s name handle parent) (access : Access) (isStatic : Bool)
    (member : String) {o : Overload} (ho : o.code.Within H s) :
    H.Agree (fun d => d.Begun H s name handle parent) (d.addMethod access isStatic member o)
      (d.addMethod access isStatic member o) := by
  unfold Draft.addMethod
  refine (h.methodFunction isStatic member).bind fun f hf => ?_
  refine (Horizon.agree_add hf ho).bind fun f hf => ?_
  exact .ok _ (h.put isStatic member ⟨hf, nofun⟩ rfl)

/-- A change that leaves the members alone. -/
theorem replace {d' : Draft} (h : d.Begun H s name handle parent) (hwithin : d'.cls.Within H s)
    (hlasts : d.cls.Lasts d'.cls) : d'.Begun H s name handle parent where
  within := hwithin
  name_eq := hlasts.name.trans h.name_eq
  kind_eq := hlasts.kind.trans h.kind_eq
  above := by
    refine ⟨fun o ho => ?_, fun o ho => ?_⟩
    · rw [hlasts.origins] at ho
      rw [hlasts.name]
      exact h.above.members o ho
    · rw [hlasts.origins] at ho
      rw [hlasts.name]
      exact h.above.statics o ho

theorem addConstructor (h : d.Begun H s name handle parent) {o : Overload}
    (ho : o.code.Within H s) :
    H.Agree (fun d => d.Begun H s name handle parent) (d.addConstructor o)
      (d.addConstructor o) := by
  unfold Draft.addConstructor
  refine (Horizon.agree_add h.within.constructors ho).bind fun f hf => ?_
  exact .ok _ (h.replace { h.within with constructors := hf } ⟨rfl, rfl, fun _ => rfl⟩)

/-- The function that an operator of a name adds to. -/
theorem within_existing {κ : Type} [DecidableEq κ] {table : Assoc κ Function} {op : κ}
    (h : ∀ f ∈ table.values, f.Within H s) (declared : Prop) [Decidable declared]
    (member : String) :
    ((if declared then table.get? op else none).getD { name := member }).Within H s := by
  cases hf : if declared then table.get? op else none with
  | none => exact Function.Within.empty member
  | some f =>
      split at hf
      · exact h f (Assoc.mem_values_of_get? hf)
      · cases hf

theorem addBinary (h : d.Begun H s name handle parent) (op : BinOp) (member : String)
    {o : Overload} (ho : o.code.Within H s) :
    H.Agree (fun d => d.Begun H s name handle parent) (d.addBinary op member o)
      (d.addBinary op member o) := by
  unfold Draft.addBinary
  refine (Horizon.agree_add (within_existing h.within.binaryOps _ member) ho).bind fun f hf => ?_
  refine .ok _ (h.replace { h.within with binaryOps := fun g hg => ?_ } ⟨rfl, rfl, fun _ => rfl⟩)
  rcases Assoc.mem_values_insert hg with rfl | hg
  · exact hf
  · exact h.within.binaryOps g hg

theorem addUnary (h : d.Begun H s name handle parent) (op : UnOp) (member : String)
    {o : Overload} (ho : o.code.Within H s) :
    H.Agree (fun d => d.Begun H s name handle parent) (d.addUnary op member o)
      (d.addUnary op member o) := by
  unfold Draft.addUnary
  refine (Horizon.agree_add (within_existing h.within.unaryOps _ member) ho).bind fun f hf => ?_
  refine .ok _ (h.replace { h.within with unaryOps := fun g hg => ?_ } ⟨rfl, rfl, fun _ => rfl⟩)
  rcases Assoc.mem_values_insert hg with rfl | hg
  · exact hf
  · exact h.within.unaryOps g hg

/-- A class that is done has all that its draft had. -/
theorem finished (h : d.Begun H s name handle parent) (hnothing : H.native .nothing) :
    Draft.Begun H s name handle parent { d with cls := d.finished } := by
  unfold Draft.finished
  split
  · refine h.replace ?_ ⟨rfl, rfl, fun _ => rfl⟩
    exact { h.within with constructors := h.within.constructors.push hnothing }
  · exact h

end Draft.Begun

/-- A class begins with what it inherits. -/
theorem Draft.begun_inherit {H : Horizon} {s : State} (name : String) {handle : Handle}
    {parent : Container} (hhandle : (Node.container handle).Within H s)
    (hparent : parent.Within H s) :
    (Evaluator.inherit name handle parent).Begun H s name handle parent where
  within :=
    { above := fun i hi => by
        cases hi
        exact hhandle
      constructors := Function.Within.empty name
      members := hparent.members
      statics := fun _ hm => absurd hm List.not_mem_nil
      binaryOps := hparent.binaryOps
      unaryOps := hparent.unaryOps }
  name_eq := rfl
  kind_eq := rfl
  above := ⟨fun _ ho => Or.inr ho, fun _ ho => absurd ho List.not_mem_nil⟩

/-! ## Class bodies -/

namespace Horizon

variable {H : Horizon} {known : List (String × String)} {s s' : State} {ev ev' : Evaluator}

theorem Alike.overload (h : H.Alike s s') (scope : Scope) (decl : FunctionDecl) :
    s'.overload scope decl = s.overload scope decl := by
  simp only [State.overload, h.currentClass]

theorem Alike.accessor (h : H.Alike s s') (scope : Scope) :
    s'.accessor scope = s.accessor scope := by
  funext decl
  simp only [State.accessor, h.currentClass]

namespace Matches

theorem initialValue (hev : H.Matches ev ev') {scope : Scope} (name : String) (ty : Option Ty)
    (value : Option Expr) (hs : H.Alike s s') (hscope : scope.Within H s) :
    H.Coupled known (fun t r => r.2.Within H t) s s' (ev.initialValue scope name ty value s)
      (ev'.initialValue scope name ty value s') := by
  cases ty with
  | none =>
      cases value with
      | none => exact .pure trivial
      | some e =>
          refine .bind hs (hev.eval e hs hscope) fun t t' v ht _ hv => ?_
          exact .ask_bind (ht.typeOf hv) fun _ _ => .pure hv
  | some ty =>
      cases value with
      | none => exact .bind hs (.defaultValue ty hs) fun _ _ _ _ _ hv => .pure hv
      | some e =>
          refine .bind hs (hev.eval e hs hscope) fun t t' v ht _ hv => ?_
          refine .ask_bind (ht.typeOf hv) fun valueTy _ => ?_
          refine .ask_bind (ht.fits hv valueTy ty) fun fits _ => ?_
          cases fits with
          | false => exact .fault nofun
          | true => exact .pure hv

variable {name : String} {handle : Handle} {parent : Container}

theorem addMember (hev : H.Matches ev ev') {scope : Scope} {d : Draft} (m : MemberDecl)
    (hs : H.Alike s s') (hscope : scope.Within H s) (hd : d.Begun H s name handle parent) :
    H.Coupled known (fun t d => d.Begun H t name handle parent) s s' (ev.addMember scope d m s)
      (ev'.addMember scope d m s') := by
  unfold Evaluator.addMember
  cases m.body with
  | field member readonly ty value =>
      refine .bind hs (hev.initialValue member ty value hs hscope) fun t t' r _ hst hr => ?_
      exact .ofExcept ((hd.mono hst).insert m.isStatic member ⟨hr, nofun⟩ rfl)
  | property member ty getter setter value =>
      refine .bind hs (hev.initialValue member ty value hs hscope) fun t t' r ht hst hr => ?_
      refine .get_bind ?_
      rw [ht.accessor]
      refine .ofExcept ((hd.mono hst).insert m.isStatic member ⟨hr, fun code hcode => ?_⟩ rfl)
      have hscope' : code.scope = scope := by
        rcases List.mem_append.mp hcode with hcode | hcode
        · obtain ⟨decl, _, rfl⟩ := Option.map_eq_some_iff.mp (Option.mem_toList.mp hcode)
          rfl
        · obtain ⟨decl, _, rfl⟩ := Option.map_eq_some_iff.mp (Option.mem_toList.mp hcode)
          rfl
      rw [hscope']
      exact hscope.mono hst
  | method decl =>
      refine .ask ?_
      rw [hs.overload]
      exact hd.addMethod m.access m.isStatic decl.name hscope
  | constructor decl =>
      refine .ask ?_
      rw [hs.overload]
      exact hd.addConstructor hscope
  | binary op decl =>
      refine .ask ?_
      rw [hs.overload]
      exact hd.addBinary op decl.name hscope
  | unary op decl =>
      refine .ask ?_
      rw [hs.overload]
      exact hd.addUnary op decl.name hscope

theorem addMembers (hev : H.Matches ev ev') {scope : Scope} {d : Draft} (ms : List MemberDecl)
    (hs : H.Alike s s') (hscope : scope.Within H s) (hd : d.Begun H s name handle parent) :
    H.Coupled known (fun t d => d.Begun H t name handle parent) s s' (ev.addMembers scope d ms s)
      (ev'.addMembers scope d ms s') := by
  induction ms generalizing s s' d with
  | nil => exact .pure hd
  | cons m ms ih =>
      refine .bind hs (hev.addMember m hs hscope hd) fun t t' d ht hst hd => ?_
      exact ih ht (hscope.mono hst) hd

/-- The declaration of a class ends when the class is added. -/
theorem allocClass {c : Container} (hs : H.Alike s s')
    (hc : (Change.addClass c).Allowed H known s) :
    H.Tandem known known.tail (fun t i => (Node.container i).Within H t) s s' (Exec.alloc c s)
      (Exec.alloc c s') := by
  have hfresh : (Node.container s.heap.slots.size).Within H (s.apply (.addClass c)) :=
    ⟨fun hstale => Nat.lt_irrefl _ (hs.closed.past _ hstale),
      fun _ => ⟨c, Heap.get_alloc_self _ _⟩⟩
  have hresult : Exec.alloc c s' = .ok s.heap.slots.size (s'.apply (.addClass c)) := by
    rw [← hs.size]
    rfl
  rw [hresult]
  exact .ok [.addClass c] ⟨hc, trivial⟩ rfl s.heap.slots.size hfresh

/-- The class is made of what its parent was when the body began, and added beside what the parent
is when the body ends: the parent keeps its name and where its members come from. -/
theorem defineClass (hev : H.Matches ev ev') {scope : Scope} (decl : ClassDecl) {handle : Handle}
    {parent : Container} (hs : H.Alike s s') (hscope : scope.Within H s)
    (hhandle : (Node.container handle).Within H s) (hparent : s.heap.get handle = .ok parent)
    (hclass : handle = s.objectClass ∨ parent.isClass)
    (hknown : known.head? = some (decl.name, parent.name)) :
    H.Tandem known known.tail (fun _ _ => True) s s' (ev.defineClass scope decl handle parent s)
      (ev'.defineClass scope decl handle parent s') := by
  have hbegun := Draft.begun_inherit decl.name hhandle
    (hs.closed.container handle parent hhandle hparent)
  refine Tandem.bind hs (Coupled.traced (.asCodeOf (some decl.name) ?_ hs fun t t' ht hst =>
    hev.addMembers decl.members ht (hscope.mono hst) (hbegun.mono hst))) ?_
  · exact fun t depth context d hd => hd.mono fun _ => t.control_keeps depth context
  · intro t t' d ht hst hd
    obtain ⟨hd, cs, hcs, rfl⟩ := hd
    have hdone := hd.finished hev.nothing
    have hallowed : (Change.addClass d.finished).Allowed H known (s.after cs) := by
      refine ⟨hdone.within, Classical.or_iff_not_imp_left.mpr fun hforeign => ?_⟩
      have hown := hcs.own hforeign
      obtain ⟨parent', hparent', hlasts⟩ := State.get_after_of_ok hparent hown
      refine ⟨handle, parent', hdone.kind_eq, hparent', ?_, ?_, ?_⟩
      · rw [State.after_objectClass s hown]
        rw [hlasts.isClass_eq]
        exact hclass
      · refine ⟨fun o ho => ?_, hdone.above.statics⟩
        rw [hlasts.origins]
        exact hdone.above.members o ho
      · rw [hlasts.name, show d.finished.name = decl.name from hdone.name_eq]
        exact hknown
    refine Tandem.bind ht (allocClass ht hallowed) fun u u' i hu _ hi => ?_
    refine Coupled.rebind _ _ hu ?_
    rw [hu.frames]
    exact agree_newConstant _ _ _ _ hi

theorem declareClass (hev : H.Matches ev ev') {scope : Scope} (decl : ClassDecl)
    (hs : H.Alike s s') (hscope : scope.Within H s) :
    H.Coupled known (fun _ _ => True) s s' (ev.declareClass scope decl s)
      (ev'.declareClass scope decl s') := by
  refine .get_bind ?_
  rw [hs.frames, hs.objectClass]
  cases (s.frames.local? scope.inner decl.name).isSome with
  | true => exact .fault nofun
  | false =>
      refine .ask_bind (hs.parentOf hscope decl.name decl.bases nofun) fun found hfound => ?_
      have hhandle : (Node.container (found.getD s.objectClass)).Within H s := by
        cases found with
        | none => exact hs.closed.objectClass
        | some handle => exact (hfound handle rfl).1
      refine .ask_bind (hs.get hhandle) fun parent hparent => ?_
      have hregistered := hs.apply (show (Change.register decl.name parent.name).Allowed H known s
        from trivial)
      refine .register decl.name parent.name ?_
      have hkeeps : H.Keeps s (s.apply (.register decl.name parent.name)) := fun _ =>
        s.keeps_apply trivial
      refine hev.defineClass decl hregistered (hscope.mono hkeeps) (hhandle.mono hkeeps)
        hparent.2 ?_ rfl
      cases found with
      | none => exact Or.inl rfl
      | some handle =>
          obtain ⟨_, c, hc, hclass⟩ := hfound handle rfl
          rw [Option.getD_some, hc] at hparent
          cases hparent.2
          exact Or.inr hclass

end Matches

end Horizon

end ClassScript

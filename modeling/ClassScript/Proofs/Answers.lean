import ClassScript.Proofs.Alike
import ClassScript.Run.Evaluator

/-!
# Alike states give the same answers

One lemma for each question that the rules ask, in the order in which questions build on each other.
Only the containers that a question meets can make a difference between alike states, and it meets
none that is stale: it starts within the horizon, and parents of classes do not lead out of it.
-/

namespace ClassScript.Horizon

variable {H : Horizon} {s s' : State}

/-! ## Questions that no state is needed for -/

theorem agree_toNumber (v : Value) : H.Agree (fun _ => True) v.toNumber v.toNumber := by
  cases v with
  | string t =>
      unfold Value.toNumber
      dsimp only
      split
      · exact .ok _ trivial
      · exact .error _ (tolerates_of_ne nofun)
  | number _ | boolean _ | function _ | list _ | object _ | null => exact .ok _ trivial

theorem agree_repeatText (text : String) (factor : Float) :
    H.Agree (fun _ => True) (repeatText text factor) (repeatText text factor) := by
  unfold repeatText
  split
  · exact .error _ (tolerates_of_ne nofun)
  · split
    · exact .ok _ trivial
    · split
      · exact .ok _ trivial
      · dsimp only
        split
        · exact .ok _ trivial
        · exact .error _ (tolerates_of_ne nofun)

theorem agree_add {f : Function} (hf : f.Within H s) {o : Overload} (ho : o.code.Within H s) :
    H.Agree (fun f => f.Within H s) (f.add o) (f.add o) := by
  unfold Function.add checkOrder
  split
  · exact .error _ (tolerates_of_ne nofun)
  · simp only [bind, Except.bind, pure, Except.pure, throw, throwThe, MonadExceptOf.throw]
    split
    · exact .error _ (tolerates_of_ne nofun)
    · split
      · exact .error _ (tolerates_of_ne nofun)
      · exact .ok _ (hf.push ho)

theorem mem_of_mem_choices {α : Type} {overload : α → Overload} {lineage : Lineage}
    {args : List Ty} {all : List α} {a : α}
    (h : a ∈ Overload.choices overload lineage args all) : a ∈ all := by
  simp only [Overload.choices] at h
  split at h
  · next b hb =>
      rw [List.mem_singleton.mp h]
      exact (List.mem_filter.mp (List.mem_of_find?_eq_some hb)).1
  · exact (List.mem_filter.mp (List.mem_filter.mp h).1).1

theorem agree_resolve {f : Function} (hf : f.Within H s) (lineage : Lineage) (args : List Ty) :
    H.Agree (fun o => o.code.Within H s) (f.resolve lineage args) (f.resolve lineage args) := by
  unfold Function.resolve Overload.choose
  split
  · next o ho =>
      have hmem : o ∈ Overload.choices id lineage args f.overloads := by
        rw [ho]
        exact List.mem_singleton_self o
      exact .ok o (hf o (mem_of_mem_choices hmem))
  · exact .error _ (tolerates_of_ne nofun)
  · exact .error _ (tolerates_of_ne nofun)

theorem agree_newVariable (fs : Frames) (id : FrameId) (name : String) (ty : Ty) {v : Value}
    (hv : v.Within H s) :
    H.Agree (fun b => b.value.Within H s) (fs.newVariable id name ty v)
      (fs.newVariable id name ty v) := by
  unfold Frames.newVariable
  split
  · split
    · exact .error _ (tolerates_of_ne nofun)
    · split
      · exact .error _ (tolerates_of_ne nofun)
      · exact .ok _ hv
  · exact .ok _ hv

theorem agree_newConstant (fs : Frames) (id : FrameId) (name : String) (ty : Ty) {v : Value}
    (hv : v.Within H s) :
    H.Agree (fun b => b.value.Within H s) (fs.newConstant id name ty v)
      (fs.newConstant id name ty v) := by
  unfold Frames.newConstant
  split
  · exact .error _ (tolerates_of_ne nofun)
  · exact .ok _ hv

theorem agree_assigned (fs : Frames) (lineage : Lineage) (id : FrameId) (name : String)
    (ty : Ty) {v : Value} (hv : v.Within H s) :
    H.Agree (fun b => b.value.Within H s) (fs.assigned lineage id name ty v)
      (fs.assigned lineage id name ty v) := by
  unfold Frames.assigned
  split
  · exact .error _ (tolerates_of_ne nofun)
  · split
    · exact .error _ (tolerates_of_ne nofun)
    · split
      · exact .ok _ hv
      · exact .error _ (tolerates_of_ne nofun)

/-! ## Names and scopes -/

theorem Closed.local? (h : H.Closed s) {id : FrameId} (hid : (Node.frame id).Within H s)
    {name : String} {b : Binding} (hb : s.frames.local? id name = some b) :
    b.value.Within H s := by
  obtain ⟨frame, hframe, hmem⟩ := Frames.local?_eq_some hb
  exact h.frame id frame hid hframe b hmem

/-- What a name stands for in a scope within the horizon is within it. -/
theorem Closed.lookup (h : H.Closed s) {scope : Scope} (hscope : scope.Within H s)
    {name : String} {v : Value} (hv : s.frames.get? scope name = some v) : v.Within H s := by
  obtain ⟨b, hb, rfl⟩ := Option.map_eq_some_iff.mp hv
  obtain ⟨id, hid, hlocal⟩ := List.exists_of_findSome?_eq_some hb
  exact h.local? (hscope id hid) hlocal

theorem Alike.undefinedName (h : H.Alike s s') (scope : Scope) (name : String) :
    s'.undefinedName scope name = s.undefinedName scope name := by
  simp only [State.undefinedName, h.frames]

/-! ## Containers -/

theorem Alike.get_eq (h : H.Alike s s') {handle : Handle}
    (hh : (Node.container handle).Within H s) : s'.heap.get handle = s.heap.get handle := by
  simp only [Heap.get, h.slots handle hh.1]

theorem Alike.get (h : H.Alike s s') {handle : Handle}
    (hh : (Node.container handle).Within H s) :
    H.Agree (fun c => c.Within H s ∧ s.heap.get handle = .ok c) (s.heap.get handle)
      (s'.heap.get handle) := by
  rw [h.get_eq hh]
  refine .of_tolerated (fun c hc => ⟨h.closed.container handle c hh hc, hc⟩) fun f hf hsound => ?_
  obtain ⟨c, hc⟩ := hh.2 hsound
  rw [hc] at hf
  cases hf

theorem Alike.typeOf (h : H.Alike s s') {v : Value} (hv : v.Within H s) :
    H.Agree (fun _ => True) (s.typeOf v) (s'.typeOf v) := by
  cases v with
  | object handle => exact (h.get hv).bind fun c _ => .ok c.ty trivial
  | number _ | string _ | boolean _ | function _ | list _ | null => exact .ok _ trivial

theorem above?_of_parent? {c : Container} {handle : Handle} (h : c.parent? = some handle) :
    c.kind.above? = some handle := by
  unfold Container.parent? at h
  split at h
  · next parent hkind => rw [hkind]; exact h
  · cases h

theorem Alike.findStaticWithin (h : H.Alike s s') (name : String) (bound : Nat) {handle : Handle}
    (hh : (Node.container handle).Within H s) :
    H.Agree (fun found => ∀ owner, found = some owner → (Node.container owner).Within H s)
      (s.heap.findStaticWithin name bound handle) (s'.heap.findStaticWithin name bound handle) := by
  induction bound generalizing handle with
  | zero => exact .ok none nofun
  | succ bound ih =>
      rw [Heap.findStaticWithin, Heap.findStaticWithin]
      refine (h.get hh).bind fun c hc => ?_
      split
      · refine .ok (some handle) fun owner howner => ?_
        cases howner
        exact hh
      · split
        · next parent hparent => exact ih (hc.1.above parent (above?_of_parent? hparent))
        · exact .ok none nofun

theorem Alike.findStatic (h : H.Alike s s') (name : String) {handle : Handle}
    (hh : (Node.container handle).Within H s) :
    H.Agree (fun found => ∀ owner, found = some owner → (Node.container owner).Within H s)
      (s.heap.findStatic handle name) (s'.heap.findStatic handle name) := by
  unfold Heap.findStatic
  rw [h.size]
  exact h.findStaticWithin name _ hh

theorem Alike.namesWithin (h : H.Alike s s') (bound : Nat) {handle : Handle}
    (hh : (Node.container handle).Within H s) :
    H.Agree (fun _ => True) (s.heap.namesWithin bound handle)
      (s'.heap.namesWithin bound handle) := by
  induction bound generalizing handle with
  | zero => exact .ok [] trivial
  | succ bound ih =>
      rw [Heap.namesWithin, Heap.namesWithin]
      refine (h.get hh).bind fun c hc => ?_
      split
      · next parent hparent =>
          exact (ih (hc.1.above parent (above?_of_parent? hparent))).bind fun names _ =>
            .ok _ trivial
      · exact .ok _ trivial

theorem Alike.classChain (h : H.Alike s s') {handle : Handle}
    (hh : (Node.container handle).Within H s) :
    H.Agree (fun _ => True) (s.heap.classChain handle) (s'.heap.classChain handle) := by
  unfold Heap.classChain
  refine (h.get hh).bind fun c hc => ?_
  split
  · next cls hcls =>
      rw [h.size]
      have habove : (Node.container cls).Within H s := hc.1.above cls (by rw [hcls]; rfl)
      exact (h.namesWithin _ habove).bind fun names _ => .ok _ trivial
  · exact .ok none trivial

/-! ## Types and texts of values -/

theorem Alike.lineageOf (h : H.Alike s s') {values : List Value}
    (hv : ∀ v ∈ values, v.Within H s) :
    H.Agree (fun _ => True) (s.lineageOf values) (s'.lineageOf values) := by
  unfold State.lineageOf
  rw [h.registry]
  refine Agree.bind (Q := fun _ => True) (.filterMapM fun v hmem => ?_) fun chains _ =>
    .ok _ trivial
  have hwithin := hv v hmem
  cases v with
  | object handle => exact h.classChain hwithin
  | number _ | string _ | boolean _ | function _ | list _ | null => exact .ok none trivial

theorem Alike.lineageOf_one (h : H.Alike s s') {v : Value} (hv : v.Within H s) :
    H.Agree (fun _ => True) (s.lineageOf [v]) (s'.lineageOf [v]) := by
  refine h.lineageOf fun w hw => ?_
  rw [List.mem_singleton.mp hw]
  exact hv

theorem Alike.fits (h : H.Alike s s') {v : Value} (hv : v.Within H s) (valueTy target : Ty) :
    H.Agree (fun _ => True) (s.fits v valueTy target) (s'.fits v valueTy target) :=
  (h.lineageOf_one hv).bind fun _ _ => .ok _ trivial

theorem Alike.leafText (h : H.Alike s s') {v : Value} (hv : v.Within H s) :
    H.Agree (fun _ => True) (s.leafText v) (s'.leafText v) := by
  cases v with
  | object handle => exact (h.get hv).bind fun c _ => .ok _ trivial
  | number _ | string _ | boolean _ | function _ | list _ | null => exact .ok _ trivial

theorem Alike.render (h : H.Alike s s') (wrap : List String → String) (depth : Nat)
    (around : List ListId) {v : Value} (hv : v.Within H s) :
    H.Agree (fun _ => True) (s.lists.render s.leafText wrap depth around v)
      (s.lists.render s'.leafText wrap depth around v) := by
  induction depth generalizing around v with
  | zero =>
      cases v with
      | list id => exact .ok _ trivial
      | number _ | string _ | boolean _ | function _ | object _ | null => exact h.leafText hv
  | succ depth ih =>
      cases v with
      | list id =>
          rw [Lists.render, Lists.render]
          split
          · exact .ok _ trivial
          · refine Agree.map (Q := fun _ => True) ?_ fun _ _ => trivial
            refine Agree.mono (Agree.mapM (P := fun _ => True) fun w hw => ?_) fun _ _ => trivial
            exact ih _ (h.closed.list id hv w (Array.mem_toList_iff.mp hw))
      | number _ | string _ | boolean _ | function _ | object _ | null => exact h.leafText hv

theorem Alike.textOf (h : H.Alike s s') {v : Value} (hv : v.Within H s) :
    H.Agree (fun _ => True) (s.textOf v) (s'.textOf v) := by
  unfold State.textOf
  rw [h.lists]
  exact h.render _ _ _ hv

/-! ## Members -/

theorem Alike.memberHandle (h : H.Alike s s') {v : Value} (hv : v.Within H s) (name : String) :
    H.Agree (fun handle => (Node.container handle).Within H s) (s.memberHandle v name)
      (s'.memberHandle v name) := by
  cases v with
  | object handle => exact .ok handle hv
  | null => exact .error _ (tolerates_of_ne nofun)
  | number _ | string _ | boolean _ | function _ | list _ =>
      exact (h.typeOf hv).bind fun ty _ => .error _ (tolerates_of_ne nofun)

/-- A member and the place where it was found are within the horizon. -/
def Located (H : Horizon) (s : State) (found : MemberSlot × Member) : Prop :=
  (Node.container found.1.handle).Within H s ∧ found.2.Within H s

theorem Alike.locate (h : H.Alike s s') {handle : Handle}
    (hh : (Node.container handle).Within H s) (name : String) :
    H.Agree (H.Located s) (s.locate handle name) (s'.locate handle name) := by
  unfold State.locate
  refine (h.get hh).bind fun c hc => ?_
  dsimp only
  split
  · next m hm =>
      refine .ok _ ⟨hh, hc.1.members m ?_⟩
      split at hm
      · cases hm
      · exact Assoc.mem_values_of_get? hm
  · have hcls : (Node.container (c.classHandle handle)).Within H s := by
      unfold Container.classHandle
      split
      · exact hh
      · next cls hcls => exact hc.1.above cls (by rw [hcls]; rfl)
    refine (h.findStatic name hcls).bind fun found hfound => ?_
    split
    · exact .error _ (tolerates_of_ne (by simp))
    · next owner =>
        have howner := hfound owner rfl
        refine (h.get howner).bind fun oc hoc => ?_
        split
        · next m hm => exact .ok _ ⟨howner, hoc.1.statics m (Assoc.mem_values_of_get? hm)⟩
        · exact .error _ (tolerates_of_ne (by simp))

theorem Alike.mayAccess (h : H.Alike s s') (m : Member) : s'.mayAccess m = s.mayAccess m := by
  simp only [State.mayAccess, h.currentClass, h.registry]

theorem Alike.checkAccess (h : H.Alike s s') (m : Member) (name : String) :
    H.Agree (fun _ => True) (s.checkAccess m name) (s'.checkAccess m name) := by
  unfold State.checkAccess
  rw [h.mayAccess]
  split
  · exact .ok () trivial
  · exact .error _ (tolerates_of_ne nofun)

theorem Alike.accessed (h : H.Alike s s') {v : Value} (hv : v.Within H s) (name : String) :
    H.Agree (fun r => (Node.container r.1).Within H s ∧ H.Located s r.2) (s.accessed v name)
      (s'.accessed v name) := by
  unfold State.accessed
  refine (h.memberHandle hv name).bind fun handle hhandle => ?_
  refine (h.locate hhandle name).bind fun found hfound => ?_
  exact (h.checkAccess found.2 name).bind fun _ _ => .ok _ ⟨hhandle, hfound⟩

/-! ## Operators and calls -/

theorem Alike.operandClass (h : H.Alike s s') {v : Value} (hv : v.Within H s) :
    H.Agree (fun cls => ∀ c, cls = some c → c.Within H s) (s.operandClass v)
      (s'.operandClass v) := by
  cases v with
  | object handle =>
      refine (h.get hv).bind fun c hc => ?_
      split
      · next cls hcls =>
          have habove : (Node.container cls).Within H s := hc.1.above cls (by rw [hcls]; rfl)
          refine (h.get habove).bind fun k hk => .ok _ fun c' hc' => ?_
          cases hc'
          exact hk.1
      · exact .ok none nofun
  | number _ | string _ | boolean _ | function _ | list _ | null => exact .ok none nofun

theorem Alike.binaryOverload (h : H.Alike s s') (op : BinOp) {left right : Value}
    (hleft : left.Within H s) (hright : right.Within H s) :
    H.Agree (fun found => ∀ p, found = some p → p.2.code.Within H s)
      (s.binaryOverload op left right) (s'.binaryOverload op left right) := by
  unfold State.binaryOverload
  refine (h.operandClass hleft).bind fun cls hcls => ?_
  split
  · exact .ok none nofun
  · next f hf =>
      obtain ⟨c, hc, hop⟩ := Option.bind_eq_some_iff.mp hf
      have hwithin : f.Within H s :=
        (hcls c hc).binaryOps f (Assoc.mem_values_of_get? hop)
      refine (h.typeOf hright).bind fun ty _ => ?_
      refine (h.lineageOf_one hright).bind fun lineage _ => ?_
      split
      · exact .ok none nofun
      · refine (agree_resolve hwithin lineage [ty]).bind fun o ho => .ok _ fun p hp => ?_
        cases hp
        exact ho

theorem Alike.unaryOverload (h : H.Alike s s') (op : UnOp) {operand : Value}
    (hoperand : operand.Within H s) :
    H.Agree (fun found => ∀ p, found = some p → p.2.code.Within H s)
      (s.unaryOverload op operand) (s'.unaryOverload op operand) := by
  unfold State.unaryOverload
  rw [h.registry]
  refine (h.operandClass hoperand).bind fun cls hcls => ?_
  split
  · exact .ok none nofun
  · next f hf =>
      obtain ⟨c, hc, hop⟩ := Option.bind_eq_some_iff.mp hf
      have hwithin : f.Within H s := (hcls c hc).unaryOps f (Assoc.mem_values_of_get? hop)
      refine (agree_resolve hwithin _ []).bind fun o ho => .ok _ fun p hp => ?_
      cases hp
      exact ho

theorem Alike.equal (h : H.Alike s s') {left right : Value} (hleft : left.Within H s)
    (hright : right.Within H s) :
    H.Agree (fun _ => True) (s.equal left right) (s'.equal left right) := by
  unfold State.equal
  refine (h.typeOf hleft).bind fun leftTy _ => ?_
  refine (h.typeOf hright).bind fun rightTy _ => ?_
  split
  · refine (h.textOf hleft).bind fun leftText _ => ?_
    exact (h.textOf hright).bind fun rightText _ => .ok _ trivial
  · exact .ok false trivial

theorem Alike.joined (h : H.Alike s s') {left right : Value} (hleft : left.Within H s)
    (hright : right.Within H s) :
    H.Agree (fun _ => True) (BinOp.joined s left right) (BinOp.joined s' left right) := by
  unfold BinOp.joined
  refine (h.textOf hleft).bind fun leftText _ => ?_
  exact (h.textOf hright).bind fun rightText _ => .ok _ trivial

theorem within_onNumbers {op : BinOp} {a b : Float} {v : Value} (h : op.onNumbers a b = some v) :
    v.Within H s := by
  cases op <;> cases h <;> trivial

theorem Alike.builtin (h : H.Alike s s') (op : BinOp) {left right : Value}
    (hleft : left.Within H s) (hright : right.Within H s) :
    H.Agree (fun r => ∀ v, r = some v → v.Within H s) (BinOp.builtin s op left right)
      (BinOp.builtin s' op left right) := by
  have htext : ∀ {x x' : Except Fault String}, H.Agree (fun _ => True) x x' →
      H.Agree (fun r => ∀ v : Value, r = some v → v.Within H s) ((some ∘ Value.string) <$> x)
        ((some ∘ Value.string) <$> x') := by
    intro x x' hx
    refine hx.map fun t _ v hv => ?_
    cases hv
    trivial
  unfold BinOp.builtin
  split
  · exact .ok _ fun v hv => within_onNumbers hv
  · exact htext (h.joined hleft hright)
  · exact htext (h.joined hleft hright)
  · exact htext (agree_repeatText _ _)
  · exact htext (agree_repeatText _ _)
  · refine .ok _ fun v hv => ?_
    cases hv
    trivial
  · refine .ok _ fun v hv => ?_
    cases hv
    trivial
  · refine .ok _ fun v hv => ?_
    cases hv
    trivial
  · refine .ok _ fun v hv => ?_
    cases hv
    trivial
  · exact .ok none nofun

theorem Alike.element (h : H.Alike s s') {target position : Value} (htarget : target.Within H s) :
    H.Agree (fun r => (Node.list r.1).Within H s) (Evaluator.element s target position)
      (Evaluator.element s' target position) := by
  unfold Evaluator.element
  split
  · rw [h.lists]
    refine (agree_toNumber position).bind fun index _ => ?_
    dsimp only
    split
    · exact .ok _ htarget
    · exact .error _ (tolerates_of_ne nofun)
  · exact (h.typeOf htarget).bind fun ty _ => .error _ (tolerates_of_ne nofun)

theorem Alike.typesOf (h : H.Alike s s') {args : List Value} (hargs : ∀ v ∈ args, v.Within H s) :
    H.Agree (fun _ => True) (args.mapM s.typeOf) (args.mapM s'.typeOf) := by
  have htypes := Agree.mapM (P := fun _ => True) fun v hv => h.typeOf (hargs v hv)
  exact htypes.mono fun _ _ => trivial

/-- The question that selects an overload. -/
theorem Alike.resolve (h : H.Alike s s') {f : Function} (hf : f.Within H s) {args : List Value}
    (hargs : ∀ v ∈ args, v.Within H s) :
    H.Agree (fun o => o.code.Within H s)
      (do let types ← args.mapM s.typeOf; f.resolve (← s.lineageOf args) types)
      (do let types ← args.mapM s'.typeOf; f.resolve (← s'.lineageOf args) types) := by
  refine (h.typesOf hargs).bind fun types _ => ?_
  exact (h.lineageOf hargs).bind fun lineage _ => agree_resolve hf lineage types

/-! ## Bases of classes -/

theorem Alike.baseClass (h : H.Alike s s') {scope : Scope} (hscope : scope.Within H s)
    (name : String) :
    H.Agree (fun handle => (Node.container handle).Within H s ∧
        ∃ c, s.heap.get handle = .ok c ∧ c.isClass)
      (s.baseClass scope name) (s'.baseClass scope name) := by
  unfold State.baseClass
  rw [h.frames, h.undefinedName]
  split
  · exact .error _ (tolerates_of_ne nofun)
  · next handle hlookup =>
      have hh : (Node.container handle).Within H s := h.closed.lookup hscope hlookup
      refine (h.get hh).bind fun c hc => ?_
      split
      · next hclass => exact .ok handle ⟨hh, c, hc.2, hclass⟩
      · exact .error _ (tolerates_of_ne nofun)
  · exact .error _ (tolerates_of_ne nofun)

theorem Alike.parentOf (h : H.Alike s s') {scope : Scope} (hscope : scope.Within H s)
    (name : String) (bases : List Ty) {found : Option Handle}
    (hfound : ∀ handle, found = some handle → (Node.container handle).Within H s ∧
      ∃ c, s.heap.get handle = .ok c ∧ c.isClass) :
    H.Agree (fun found => ∀ handle, found = some handle → (Node.container handle).Within H s ∧
        ∃ c, s.heap.get handle = .ok c ∧ c.isClass)
      (s.parentOf scope name found bases) (s'.parentOf scope name found bases) := by
  induction bases generalizing found with
  | nil => exact .ok found hfound
  | cons base bases ih =>
      rw [State.parentOf, State.parentOf]
      refine (h.baseClass hscope base.name).bind fun handle hhandle => ?_
      cases found with
      | some existing =>
          exact (h.get (hfound existing rfl).1).bind fun c _ => .error _ (tolerates_of_ne nofun)
      | none =>
          refine ih fun i hi => ?_
          cases hi
          exact hhandle

end ClassScript.Horizon

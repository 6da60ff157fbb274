import ClassScript.Proofs.Stability

/-!
# Where names come from

An expression binds no name in a frame that was there before it, whatever it calls. A statement can
bind names in the frame that it stands in, and only if it is a declaration or has one that is not
wrapped in a block, a counting loop or the body of a function. So what is declared inside of these
is gone from sight after them.
-/

namespace ClassScript

/-- Of the frames that were there, only `env` can have gained names, and none has lost any. -/
structure State.GainsOnly (env : FrameId) (s t : State) : Prop where
  kept : ∀ id name, (s.frames.local? id name).isSome = true →
    (t.frames.local? id name).isSome = true
  gained : ∀ id < s.frames.size, ∀ name, (t.frames.local? id name).isSome = true →
    (s.frames.local? id name).isSome = true ∨ id = env

theorem State.gainsOnly_of_upholds {env : FrameId} {s t : State}
    (h : (s.terms fun id => id = env).Upholds s t) : s.GainsOnly env t where
  kept id name hbound := by
    obtain ⟨b, hb⟩ := Option.isSome_iff_exists.mp hbound
    obtain ⟨b', hb', _⟩ := h.binding id (Frames.lt_size_of_local? hb) name b hb
    rw [hb']
    rfl
  gained id hid name hbound := by
    by_cases henv : id = env
    · exact Or.inr henv
    · exact Or.inl (isSome_eq_of_upholds h hid henv name ▸ hbound)

namespace Evaluator

/-- How an evaluator treats the names of the frames that are there when it begins, whatever it runs
and however it ends. -/
structure Hygienic (ev : Evaluator) : Prop where
  eval : ∀ scope e (s : State), s.SameNames ((ev.eval scope e).final s)
  exec : ∀ scope stmt (s : State), s.GainsOnly scope.inner ((ev.exec scope stmt).final s)
  block : ∀ scope body (s : State), s.SameNames ((ev.exec scope (.block body)).final s)
  forLoop : ∀ scope counter start stop step body (s : State),
    s.SameNames ((ev.exec scope (.forLoop counter start stop step body)).final s)
  /-- Other loops and branches declare what their bodies declare. -/
  undeclaring : ∀ scope stmt (s : State), stmt.declares = false →
    s.SameNames ((ev.exec scope stmt).final s)
  call : ∀ f args this (s : State), s.SameNames ((ev.callFunction f args this).final s)
  construct : ∀ cls args (s : State), s.SameNames ((ev.construct cls args).final s)
  memberGet : ∀ object name (s : State), s.SameNames ((ev.memberGet object name).final s)
  memberSet : ∀ object name value (s : State),
    s.SameNames ((ev.memberSet object name value).final s)

variable {ev : Evaluator}

/-- A statement that declares nothing in its own scope. -/
theorem Orderly.sameNames_exec (hev : ev.Orderly False) {stmt : Stmt}
    (hstmt : stmt.declares = false) (scope : Scope) (s : State) :
    s.SameNames ((ev.exec scope stmt).final s) := by
  have hrun : (s.terms fun _ => False).Conducted (fun _ => True) s (ev.exec scope stmt s) := by
    refine hev.exec scope stmt (s.fits_terms _) fun hdeclares => ?_
    rw [hstmt] at hdeclares
    cases hdeclares
  exact (State.orderly_of_conducted hrun).names

theorem Orderly.hygienic (hev : ev.Orderly False) : ev.Hygienic where
  eval scope e s := (State.orderly_of_conducted (hev.eval scope e (s.fits_terms _))).names
  exec scope stmt s := by
    have hrun := hev.exec scope stmt (s.fits_terms fun id => id = scope.inner) fun _ => Or.inr rfl
    exact State.gainsOnly_of_upholds hrun.upholds
  block scope _ s := hev.sameNames_exec rfl scope s
  forLoop scope _ _ _ _ _ s := hev.sameNames_exec rfl scope s
  undeclaring scope _ s hstmt := hev.sameNames_exec hstmt scope s
  call f args this s :=
    (State.orderly_of_conducted (hev.callFunction f args this (s.fits_terms _))).names
  construct cls args s :=
    (State.orderly_of_conducted (hev.construct cls args (s.fits_terms _))).names
  memberGet object name s :=
    (State.orderly_of_conducted (hev.memberGet object name (s.fits_terms _))).names
  memberSet object name value s :=
    (State.orderly_of_conducted (hev.memberSet object name value (s.fits_terms _))).names

end Evaluator

/-- With an orderly host, no code binds a name in an older frame but a declaration in its own. -/
theorem hygienic_evaluator {config : Config} (hhost : config.host.Orderly) (fuel : Nat) :
    (evaluator config fuel).Hygienic :=
  (hhost.evaluator fuel).hygienic

/-- A variable of a block is not to be seen after the block. -/
theorem hygienic_block :
    let s := State.start
    let block : Stmt := .block [.var "x" none (some (.number 1.0))]
    let t := ((evaluator { host := Host.callback } 20).exec s.globals block).final s
    Host.callback.Orderly ∧ s.frames.contains s.globals "x" = false ∧
      t.frames.contains s.globals "x" = false := by
  intro s block t
  have hhost : Config.host { host := Host.callback } |>.Orderly := Host.orderly_callback
  have hhidden : s.frames.contains s.globals "x" = false := by decide
  have hsame := (hygienic_evaluator hhost 20).block s.globals
    [.var "x" none (some (.number 1.0))] s
  have hglobals : ∀ id ∈ s.globals.frames, id < s.frames.size := by decide
  exact ⟨hhost, hhidden, (hsame.visible s.globals hglobals "x").trans hhidden⟩

end ClassScript

import FerriteSfu.Lib.Machine

/-!
Runs with events left out.

`thin` leaves out of a run the events that `keep` rejects, and may relabel the
ones it keeps; whether an event stays can depend on the state it is taken in.
When single steps are mirrored by what is left of them, so are whole runs.
-/

namespace FerriteSfu.Lib.Machine

variable {σ τ ε δ : Type*}

/-- What `keep` leaves of a run. -/
def thin (m : Machine σ ε) (keep : σ → ε → Option δ) : σ → List ε → List δ
  | _, [] => []
  | s, ev :: evs =>
      (keep s ev).toList ++ ((m.step s ev).map fun s' => m.thin keep s' evs).getD []

/-- What is left of a run starts with what is left of its start. -/
theorem thin_append (m : Machine σ ε) (keep : σ → ε → Option δ) {s s' : σ} {evs : List ε}
    (hrun : m.run s evs = some s') (evs' : List ε) :
    m.thin keep s (evs ++ evs') = m.thin keep s evs ++ m.thin keep s' evs' := by
  induction evs generalizing s with
  | nil =>
      cases hrun
      rfl
  | cons ev evs ih =>
      obtain ⟨t, hstep, hrest⟩ := Option.bind_eq_some_iff.mp hrun
      simp only [List.cons_append, thin, hstep, Option.map_some, Option.getD_some, ih hrest,
        List.append_assoc]

/-- A property of the past holds all along a run if it holds at the end. -/
theorem run_backward {m : Machine σ ε} {P : σ → Prop}
    (hback : ∀ s ev s', m.step s ev = some s' → P s' → P s) {s s' : σ} {evs : List ε}
    (hrun : m.run s evs = some s') (h : P s') : P s := by
  induction evs generalizing s with
  | nil =>
      cases hrun
      exact h
  | cons ev evs ih =>
      obtain ⟨t, hstep, hrest⟩ := Option.bind_eq_some_iff.mp hrun
      exact hback s ev t hstep (ih hrest)

/-- The step from `s` to `s'` is mirrored by what `keep` leaves of its event. -/
def Mirrors (m' : Machine τ δ) (R : σ → τ → Prop) (s' : σ) (t : τ) : Option δ → Prop
  | none => R s' t
  | some ev' => ∃ t', m'.step t ev' = some t' ∧ R s' t'

/-- **A run is mirrored by what `keep` leaves of it**, if its steps are. The step
obligation may use what is known of the past at the end of the run. -/
theorem run_thin {m : Machine σ ε} {m' : Machine τ δ} {keep : σ → ε → Option δ}
    {R : σ → τ → Prop} {P : σ → Prop}
    (hback : ∀ s ev s', m.step s ev = some s' → P s' → P s)
    (hmirror : ∀ s t ev s', R s t → P s' → m.step s ev = some s' →
      m'.Mirrors R s' t (keep s ev))
    {s s' : σ} {t : τ} {evs : List ε} (hR : R s t) (hrun : m.run s evs = some s') (hP : P s') :
    ∃ t', m'.run t (m.thin keep s evs) = some t' ∧ R s' t' := by
  induction evs generalizing s t with
  | nil =>
      cases hrun
      exact ⟨t, rfl, hR⟩
  | cons ev evs ih =>
      obtain ⟨u, hstep, hrest⟩ := Option.bind_eq_some_iff.mp hrun
      have hfirst := hmirror s t ev u hR (run_backward hback hrest hP) hstep
      simp only [thin, hstep, Option.map_some, Option.getD_some]
      cases hkeep : keep s ev with
      | none =>
          rw [hkeep] at hfirst
          exact ih hfirst hrest
      | some ev' =>
          rw [hkeep] at hfirst
          obtain ⟨t₁, hstep', hR'⟩ := hfirst
          obtain ⟨t', hrun', hfinal⟩ := ih hR' hrest
          exact ⟨t', by simp [hstep', hrun'], hfinal⟩

/-- A machine that keeps account of another runs as that other does. -/
theorem run_map {m : Machine σ ε} {m' : Machine τ ε} {f : σ → τ}
    (hstep : ∀ s ev, m'.step (f s) ev = (m.step s ev).map f) (s : σ) (evs : List ε) :
    m'.run (f s) evs = (m.run s evs).map f := by
  induction evs generalizing s with
  | nil => rfl
  | cons ev evs ih =>
      rw [run_cons, run_cons, hstep, Option.bind_map, Option.map_bind]
      exact congrArg _ (funext ih)

end FerriteSfu.Lib.Machine

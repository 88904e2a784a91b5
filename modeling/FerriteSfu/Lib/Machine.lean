import Mathlib.Data.Option.Basic
import Mathlib.Data.List.Basic

/-!
Deterministic machines with partial steps, and the two arguments every
development over them repeats: an invariant carried along a run, and the
transfer of reachability from one machine to another.

A step that is not defined is an event the machine cannot take. A guard `ok`
restricts which events a run may take in which states; the plain notion of
reachability is the one whose guard is always true.
-/

namespace FerriteSfu.Lib

variable {σ τ ε δ : Type*}

structure Machine (σ ε : Type*) where
  init : σ → Prop
  step : σ → ε → Option σ

namespace Machine

/-- The states reached from an initial one by steps that all meet the guard. -/
inductive ReachableVia (m : Machine σ ε) (ok : σ → ε → Prop) : σ → Prop
  | init {s : σ} (h : m.init s) : ReachableVia m ok s
  | step {s s' : σ} {ev : ε} (h : ReachableVia m ok s) (hok : ok s ev)
      (hstep : m.step s ev = some s') : ReachableVia m ok s'

/-- Reachability with no guard. -/
abbrev Reachable (m : Machine σ ε) : σ → Prop := m.ReachableVia fun _ _ => True

/-- `run s evs` takes the events of `evs` one after the other. -/
def run (m : Machine σ ε) : σ → List ε → Option σ
  | s, [] => some s
  | s, ev :: evs => (m.step s ev).bind fun s' => m.run s' evs

/-- `runIf check s evs` stops where `check` fails. -/
def runIf (m : Machine σ ε) (check : σ → ε → Bool) : σ → List ε → Option σ
  | s, [] => some s
  | s, ev :: evs =>
      if check s ev then (m.step s ev).bind fun s' => m.runIf check s' evs else none

@[simp] theorem run_nil (m : Machine σ ε) (s : σ) : m.run s [] = some s := rfl

@[simp] theorem run_cons (m : Machine σ ε) (s : σ) (ev : ε) (evs : List ε) :
    m.run s (ev :: evs) = (m.step s ev).bind fun s' => m.run s' evs := rfl

theorem run_append (m : Machine σ ε) (s : σ) (evs evs' : List ε) :
    m.run s (evs ++ evs') = (m.run s evs).bind fun s' => m.run s' evs' := by
  induction evs generalizing s with
  | nil => rfl
  | cons ev evs ih => simp [Option.bind_assoc, ih]

/-- What the steps of a run put out, in order. -/
def outputs {α : Type*} (m : Machine σ ε) (out : σ → ε → List α) : σ → List ε → List α
  | _, [] => []
  | s, ev :: evs => out s ev ++ ((m.step s ev).map fun s' => m.outputs out s' evs).getD []

theorem outputs_append {α : Type*} (m : Machine σ ε) (f : σ → ε → List α) {s t : σ}
    {evs : List ε} (hrun : m.run s evs = some t) (evs' : List ε) :
    m.outputs f s (evs ++ evs') = m.outputs f s evs ++ m.outputs f t evs' := by
  induction evs generalizing s with
  | nil =>
      cases hrun
      rfl
  | cons ev evs ih =>
      obtain ⟨s', hev, hrest⟩ := Option.bind_eq_some_iff.mp hrun
      simp [outputs, hev, ih hrest]

/-- The step of a run that put something out. -/
theorem mem_outputs {α : Type*} {m : Machine σ ε} {f : σ → ε → List α} {s s' : σ} {evs : List ε}
    (hrun : m.run s evs = some s') {a : α} (ha : a ∈ m.outputs f s evs) :
    ∃ before ev after t t', evs = before ++ ev :: after ∧ m.run s before = some t ∧
      m.step t ev = some t' ∧ m.run t' after = some s' ∧ a ∈ f t ev := by
  induction evs generalizing s with
  | nil => cases ha
  | cons ev evs ih =>
      obtain ⟨t, hev, hrest⟩ := Option.bind_eq_some_iff.mp hrun
      rw [outputs, hev, Option.map_some, Option.getD_some] at ha
      rcases List.mem_append.mp ha with ha | ha
      · exact ⟨[], ev, evs, s, t, rfl, rfl, hev, hrest, ha⟩
      · obtain ⟨before, ev', after, u, u', rfl, hbefore, hstep, hafter, ha⟩ := ih hrest ha
        exact ⟨ev :: before, ev', after, u, u', rfl, by rw [run_cons, hev]; exact hbefore,
          hstep, hafter, ha⟩

theorem outputs_append_holds {α : Type*} {m : Machine σ ε} {f : σ → ε → List α}
    {I : σ → List α → Prop}
    (hstep : ∀ s log ev s', m.Reachable s → I s log →
      m.step s ev = some s' → I s' (log ++ f s ev))
    {s s' : σ} {log : List α} {evs : List ε} (hs : m.Reachable s)
    (h : I s log) (hrun : m.run s evs = some s') : I s' (log ++ m.outputs f s evs) := by
  induction evs generalizing s log with
  | nil =>
      cases hrun
      simpa [outputs] using h
  | cons ev evs ih =>
      obtain ⟨t, hev, hrest⟩ := Option.bind_eq_some_iff.mp hrun
      have hlog := ih (.step hs trivial hev) (hstep s log ev t hs h hev) hrest
      simpa [outputs, hev] using hlog

/-- What is put out by the events alone can be read off the run. -/
theorem outputs_eq_flatMap {α : Type*} (m : Machine σ ε) (f : ε → List α) {s s' : σ}
    {evs : List ε} (hrun : m.run s evs = some s') :
    m.outputs (fun _ => f) s evs = evs.flatMap f := by
  induction evs generalizing s with
  | nil => rfl
  | cons ev evs ih =>
      rw [run_cons, Option.bind_eq_some_iff] at hrun
      obtain ⟨next, hstep, hrun⟩ := hrun
      rw [outputs, hstep, Option.map_some, Option.getD_some, ih hrun, List.flatMap_cons]

/-- A queue that every step fills at one end and empties at the other: what went
in is what came out and what is still there, in this order. -/
theorem outputs_fifo {α : Type*} {m : Machine σ ε} {q : σ → List α} {f g : σ → ε → List α}
    (hstep : ∀ s ev s', m.step s ev = some s' → q s ++ f s ev = g s ev ++ q s')
    {s s' : σ} {evs : List ε} (hrun : m.run s evs = some s') :
    q s ++ m.outputs f s evs = m.outputs g s evs ++ q s' := by
  induction evs generalizing s with
  | nil =>
      cases hrun
      simp [outputs]
  | cons ev evs ih =>
      obtain ⟨t, hev, hrest⟩ := Option.bind_eq_some_iff.mp hrun
      simp only [outputs, hev, Option.map_some, Option.getD_some]
      rw [← List.append_assoc, hstep s ev t hev, List.append_assoc, ih hrest, List.append_assoc]

/-- A relation between the state and what has been put out, carried along a
run. The step obligation may use that its source is reachable. -/
theorem outputs_holds {α : Type*} {m : Machine σ ε} {f : σ → ε → List α}
    {I : σ → List α → Prop}
    (hstep : ∀ s log ev s', m.Reachable s → I s log →
      m.step s ev = some s' → I s' (log ++ f s ev))
    {s s' : σ} {evs : List ε} (hs : m.Reachable s)
    (h : I s []) (hrun : m.run s evs = some s') : I s' (m.outputs f s evs) := by
  simpa using outputs_append_holds hstep hs h hrun

theorem ReachableVia.mono {m : Machine σ ε} {ok ok' : σ → ε → Prop}
    (hok : ∀ s ev, ok s ev → ok' s ev) {s : σ} (h : m.ReachableVia ok s) :
    m.ReachableVia ok' s := by
  induction h with
  | init h => exact .init h
  | step _ hguard hstep ih => exact .step ih (hok _ _ hguard) hstep

/-- A checked run leads from a state reached under the guard to another. -/
theorem ReachableVia.of_runIf {m : Machine σ ε} {ok : σ → ε → Prop} {check : σ → ε → Bool}
    (hcheck : ∀ s ev, check s ev = true → ok s ev) {s s' : σ} {evs : List ε}
    (h : m.ReachableVia ok s) (hrun : m.runIf check s evs = some s') : m.ReachableVia ok s' := by
  induction evs generalizing s with
  | nil =>
      cases hrun
      exact h
  | cons ev evs ih =>
      rw [runIf] at hrun
      split at hrun
      · rename_i hev
        obtain ⟨t, hstep, hrest⟩ := Option.bind_eq_some_iff.mp hrun
        exact ih (.step h (hcheck s ev hev) hstep) hrest
      · cases hrun

/-- Whatever is reached is reached by a run. -/
theorem Reachable.exists_run {m : Machine σ ε} {s : σ} (h : m.Reachable s) :
    ∃ s₀ evs, m.init s₀ ∧ m.run s₀ evs = some s := by
  induction h with
  | init h => exact ⟨_, [], h, rfl⟩
  | @step _ _ ev _ _ hstep ih =>
      obtain ⟨s₀, evs, hinit, hrun⟩ := ih
      refine ⟨s₀, evs ++ [ev], hinit, ?_⟩
      rw [run_append, hrun, Option.bind_some, run_cons, hstep]
      rfl

/-- Running a list of events leads from an initial state to a reachable one. -/
theorem Reachable.of_run {m : Machine σ ε} {s s' : σ} {evs : List ε}
    (h : m.Reachable s) (hrun : m.run s evs = some s') : m.Reachable s' := by
  induction evs generalizing s with
  | nil =>
      cases hrun
      exact h
  | cons ev evs ih =>
      obtain ⟨t, hstep, hrest⟩ := Option.bind_eq_some_iff.mp hrun
      exact ih (.step h trivial hstep) hrest

/-- What an invariant of guarded runs has to show. The step obligation may use
that its source is reachable, so an invariant can build on others. -/
structure Invariant (m : Machine σ ε) (ok : σ → ε → Prop) (I : σ → Prop) : Prop where
  init : ∀ s, m.init s → I s
  step : ∀ s ev s', m.ReachableVia ok s → I s → ok s ev → m.step s ev = some s' → I s'

theorem Invariant.holds {m : Machine σ ε} {ok : σ → ε → Prop} {I : σ → Prop}
    (h : m.Invariant ok I) {s : σ} (hs : m.ReachableVia ok s) : I s := by
  induction hs with
  | init hinit => exact h.init _ hinit
  | step hs hok hstep ih => exact h.step _ _ _ hs ih hok hstep

/-- `f` refines the guarded runs of `m` to guarded runs of `m'`: each step of
`m` is a step of `m'` on the images, or leaves the image alone. -/
structure Refines (m : Machine σ ε) (ok : σ → ε → Prop) (m' : Machine τ δ)
    (ok' : τ → δ → Prop) (f : σ → τ) : Prop where
  init : ∀ s, m.init s → m'.init (f s)
  step : ∀ s ev s', m.ReachableVia ok s → m'.ReachableVia ok' (f s) → ok s ev →
    m.step s ev = some s' →
    f s' = f s ∨ ∃ ev', ok' (f s) ev' ∧ m'.step (f s) ev' = some (f s')

theorem Refines.reachable {m : Machine σ ε} {ok : σ → ε → Prop} {m' : Machine τ δ}
    {ok' : τ → δ → Prop} {f : σ → τ} (h : m.Refines ok m' ok' f) {s : σ}
    (hs : m.ReachableVia ok s) : m'.ReachableVia ok' (f s) := by
  induction hs with
  | init hinit => exact .init (h.init _ hinit)
  | step hs hok hstep ih =>
      rcases h.step _ _ _ hs ih hok hstep with heq | ⟨ev', hok', hstep'⟩
      · exact heq ▸ ih
      · exact .step ih hok' hstep'

end Machine

end FerriteSfu.Lib

import FerriteSfu.Lib.Machine
import Mathlib.Data.List.Forall2

/-!
Two runs side by side, one event of each at a time.

A guard on the events of a run is a fact about the states it goes through, so
it is stated of the run and not of the list of events.
-/

namespace FerriteSfu.Lib

variable {σ τ ε δ : Type*}

namespace Machine

/-- Every event of the run from `s` meets the guard where it is taken. -/
def Along (m : Machine σ ε) (ok : σ → ε → Prop) (s : σ) (evs : List ε) : Prop :=
  ∀ before ev after t, evs = before ++ ev :: after → m.run s before = some t → ok t ev

theorem Along.head {m : Machine σ ε} {ok : σ → ε → Prop} {s : σ} {ev : ε} {evs : List ε}
    (h : m.Along ok s (ev :: evs)) : ok s ev :=
  h [] ev evs s rfl rfl

theorem Along.tail {m : Machine σ ε} {ok : σ → ε → Prop} {s s' : σ} {ev : ε} {evs : List ε}
    (h : m.Along ok s (ev :: evs)) (hstep : m.step s ev = some s') : m.Along ok s' evs := by
  rintro before ev' after t rfl hrun
  refine h (ev :: before) ev' after t rfl ?_
  rw [run_cons, hstep]
  exact hrun

/-- A checked run meets the guard all along. -/
theorem Along.of_runIf {m : Machine σ ε} {ok : σ → ε → Prop} {check : σ → ε → Bool}
    (hcheck : ∀ s ev, check s ev = true → ok s ev) {s s' : σ} {evs : List ε}
    (hrun : m.runIf check s evs = some s') : m.Along ok s evs := by
  induction evs generalizing s with
  | nil =>
      intro before ev after t heq
      exact absurd heq.symm (by simp)
  | cons first evs ih =>
      rw [runIf] at hrun
      split at hrun
      · rename_i hfirst
        obtain ⟨next, hnext, hrest⟩ := Option.bind_eq_some_iff.mp hrun
        intro before ev after t heq hbefore
        cases before with
        | nil =>
            obtain ⟨rfl, rfl⟩ := List.cons.inj heq
            cases hbefore
            exact hcheck _ _ hfirst
        | cons first' before =>
            obtain ⟨rfl, rfl⟩ := List.cons.inj heq
            rw [run_cons, hnext] at hbefore
            exact ih hrest before ev after t rfl hbefore
      · cases hrun

/-- A checked run is a run. -/
theorem run_of_runIf {m : Machine σ ε} {check : σ → ε → Bool} {s s' : σ} {evs : List ε}
    (hrun : m.runIf check s evs = some s') : m.run s evs = some s' := by
  induction evs generalizing s with
  | nil => exact hrun
  | cons ev evs ih =>
      rw [runIf] at hrun
      split at hrun
      · obtain ⟨next, hnext, hrest⟩ := Option.bind_eq_some_iff.mp hrun
        rw [run_cons, hnext]
        exact ih hrest
      · cases hrun

/-- **Runs stay related when every pair of events keeps the relation.** -/
theorem run_lockstep {m : Machine σ ε} {n : Machine τ δ} {ok : σ → ε → Prop}
    {R : σ → τ → Prop} {E : ε → δ → Prop}
    (hstep : ∀ s t ev ev' s', R s t → E ev ev' → ok s ev → m.step s ev = some s' →
      ∃ t', n.step t ev' = some t' ∧ R s' t')
    {s s' : σ} {t : τ} {evs : List ε} {evs' : List δ} (h : R s t)
    (hevs : List.Forall₂ E evs evs') (hok : m.Along ok s evs) (hrun : m.run s evs = some s') :
    ∃ t', n.run t evs' = some t' ∧ R s' t' := by
  induction hevs generalizing s t with
  | nil =>
      cases hrun
      exact ⟨t, rfl, h⟩
  | cons hev _ ih =>
      obtain ⟨mid, hmid, hrest⟩ := Option.bind_eq_some_iff.mp hrun
      obtain ⟨mid', hmid', hrel⟩ := hstep _ _ _ _ _ h hev hok.head hmid
      obtain ⟨t', ht', hrel'⟩ := ih hrel (hok.tail hmid) hrest
      exact ⟨t', by rw [run_cons, hmid', Option.bind_some, ht'], hrel'⟩

end Machine

end FerriteSfu.Lib

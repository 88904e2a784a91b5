import FerriteSfu.Lib.Machine
import Mathlib.Order.RelClasses
import Mathlib.Order.WellFounded

/-!
Runs that never end, and what must happen in them.

A kind of step is treated fairly by a run if it is not left out for ever while it
could be taken. To see that a run gets to a goal, each state off the goal is given
a rank and a kind of step that helps: the step that helps lowers the rank, and
until it is taken no other step raises the rank or disables it.
-/

namespace FerriteSfu.Lib

variable {σ ε κ β : Type*}

/-- A goal that is held together with something that comes again and again, once
an event has come while that was there. -/
theorem eventually_always {P Q E : ℕ → Prop} (hagain : ∀ n, ∃ k ≥ n, Q k)
    (hevent : ∀ n, ∃ k ≥ n, E k) (hwaits : ∀ n, Q n → ¬E n → Q (n + 1))
    (hreached : ∀ n, Q n → E n → P (n + 1)) (hkept : ∀ n, P n → P (n + 1))
    (hheld : ∀ n, P n → Q n → Q (n + 1)) : ∃ m, ∀ n ≥ m, P n ∧ Q n := by
  obtain ⟨start, -, hstart⟩ := hagain 0
  have huntil : ∀ d, P (start + d) ∨ Q (start + d) ∧ ∀ k < d, ¬E (start + k) := by
    intro d
    induction d with
    | zero => exact .inr ⟨hstart, fun k hk => absurd hk (Nat.not_lt_zero k)⟩
    | succ d ih =>
        rcases ih with hgoal | ⟨hthere, hnone⟩
        · exact .inl (hkept _ hgoal)
        · by_cases he : E (start + d)
          · exact .inl (hreached _ hthere he)
          · refine .inr ⟨hwaits _ hthere he, fun k hk => ?_⟩
            rcases Nat.lt_succ_iff_lt_or_eq.mp hk with hk | rfl
            · exact hnone k hk
            · exact he
  obtain ⟨k, hk, he⟩ := hevent start
  obtain ⟨d, rfl⟩ := Nat.exists_eq_add_of_le hk
  have hgoal : P (start + (d + 1)) :=
    (huntil (d + 1)).resolve_right fun ⟨_, hnone⟩ => hnone d (Nat.lt_succ_self d) he
  have hgoals : ∀ n ≥ start + (d + 1), P n := by
    intro n hn
    induction n, hn using Nat.le_induction with
    | base => exact hgoal
    | succ n _ ih => exact hkept n ih
  obtain ⟨m, hm, hback⟩ := hagain (start + (d + 1))
  refine ⟨m, fun n hn => ⟨hgoals n (hm.trans hn), ?_⟩⟩
  induction n, hn using Nat.le_induction with
  | base => exact hback
  | succ n hn ih => exact hheld n (hgoals n (hm.trans hn)) ih

namespace Machine

/-- Some step of the kind can be taken. -/
def Enabled (m : Machine σ ε) (kind : ε → Prop) (s : σ) : Prop :=
  ∃ ev s', kind ev ∧ m.step s ev = some s'

theorem enabled_of_isSome {m : Machine σ ε} {kind : ε → Prop} {s : σ} {e : ε} (hkind : kind e)
    (h : (m.step s e).isSome = true) : m.Enabled kind s := by
  obtain ⟨s', hstep⟩ := Option.isSome_iff_exists.mp h
  exact ⟨e, s', hkind, hstep⟩

/-- The states and the steps of a run without end. -/
structure Forever (m : Machine σ ε) (states : ℕ → σ) (events : ℕ → ε) : Prop where
  start : m.Reachable (states 0)
  step : ∀ n, m.step (states n) (events n) = some (states (n + 1))

/-- From any time on a step of the kind is taken, or cannot be. -/
def Fair (m : Machine σ ε) (states : ℕ → σ) (events : ℕ → ε) (kind : ε → Prop) : Prop :=
  ∀ n, ∃ k ≥ n, kind (events k) ∨ ¬m.Enabled kind (states k)

variable {m : Machine σ ε} {states : ℕ → σ} {events : ℕ → ε}

theorem Forever.reachable (h : m.Forever states events) (n : ℕ) : m.Reachable (states n) := by
  induction n with
  | zero => exact h.start
  | succ n ih => exact .step ih trivial (h.step n)

/-- What leads to the goal: off the goal the helpful kind of step can be taken and
lowers the rank, and the others leave rank and kind alone or lower the rank too. -/
structure Helpful (m : Machine σ ε) [LT β] (goal : σ → Prop) (rank : σ → β) (helpful : σ → κ)
    (kind : κ → ε → Prop) : Prop where
  enabled : ∀ s, m.Reachable s → ¬goal s → m.Enabled (kind (helpful s)) s
  lowers : ∀ s ev s', m.Reachable s → ¬goal s → m.step s ev = some s' → ¬goal s' →
    rank s' < rank s ∨
      ¬kind (helpful s) ev ∧ rank s' = rank s ∧ helpful s' = helpful s

/-- Until the helpful step comes, nothing changes, unless for the better. -/
theorem Forever.waits [LT β] {goal : σ → Prop} {rank : σ → β} {helpful : σ → κ}
    {kind : κ → ε → Prop} (h : m.Forever states events) (hleads : m.Helpful goal rank helpful kind)
    (n d : ℕ) (hnot : ∀ k ≤ d, ¬goal (states (n + k)))
    (hsame : ∀ k ≤ d, ¬rank (states (n + k)) < rank (states n)) :
    rank (states (n + d)) = rank (states n) ∧ helpful (states (n + d)) = helpful (states n) ∧
      ∀ k < d, ¬kind (helpful (states n)) (events (n + k)) := by
  induction d with
  | zero => exact ⟨rfl, rfl, fun k hk => absurd hk (Nat.not_lt_zero k)⟩
  | succ d ih =>
      obtain ⟨hrank, hhelpful, hnone⟩ :=
        ih (fun k hk => hnot k (Nat.le_succ_of_le hk)) fun k hk => hsame k (Nat.le_succ_of_le hk)
      rcases hleads.lowers _ _ _ (h.reachable (n + d)) (hnot d (Nat.le_succ d)) (h.step (n + d))
        (hnot (d + 1) (Nat.le_refl _)) with hlower | ⟨hother, hrank', hhelpful'⟩
      · rw [hrank] at hlower
        exact absurd hlower (hsame (d + 1) (Nat.le_refl _))
      · refine ⟨hrank'.trans hrank, hhelpful'.trans hhelpful, fun k hk => ?_⟩
        rcases Nat.lt_succ_iff_lt_or_eq.mp hk with hk | rfl
        · exact hnone k hk
        · rwa [hhelpful] at hother

/-- **A fair run gets to the goal, again and again.** -/
theorem Forever.leads [LT β] [WellFoundedLT β] {goal : σ → Prop} {rank : σ → β} {helpful : σ → κ}
    {kind : κ → ε → Prop} (h : m.Forever states events) (hleads : m.Helpful goal rank helpful kind)
    (hfair : ∀ s, m.Fair states events (kind (helpful s))) (n : ℕ) : ∃ k ≥ n, goal (states k) := by
  induction hrank : rank (states n) using WellFoundedLT.induction generalizing n with
  | ind r ih =>
      subst hrank
      by_contra hnever
      have hnot : ∀ k, ¬goal (states (n + k)) := fun k hgoal =>
        hnever ⟨n + k, Nat.le_add_right n k, hgoal⟩
      have hsame : ∀ k, ¬rank (states (n + k)) < rank (states n) := by
        intro k hlower
        obtain ⟨k', hk', hgoal⟩ := ih _ hlower (n + k) rfl
        exact hnever ⟨k', Nat.le_trans (Nat.le_add_right n k) hk', hgoal⟩
      -- the helpful step is taken at last, and then the rank is lower
      obtain ⟨k, hk, htaken⟩ := hfair (states n) n
      obtain ⟨d, rfl⟩ := Nat.exists_eq_add_of_le hk
      obtain ⟨-, hhelpful, -⟩ := h.waits hleads n d (fun k _ => hnot k) fun k _ => hsame k
      obtain ⟨-, -, hnone⟩ := h.waits hleads n (d + 1) (fun k _ => hnot k) fun k _ => hsame k
      rcases htaken with htaken | hdisabled
      · exact hnone d (Nat.lt_succ_self d) htaken
      · rw [← hhelpful] at hdisabled
        exact hdisabled (hleads.enabled _ (h.reachable _) (hnot d))

/-! ### Runs that come to rest -/

/-- The states on the way of a finite run, and then the last of them. -/
def trail (m : Machine σ ε) (s : σ) : List ε → ℕ → σ
  | [], _ => s
  | _, 0 => s
  | ev :: evs, n + 1 => ((m.step s ev).map fun s' => m.trail s' evs n).getD s

/-- The events of a finite run, and then the same again and again. -/
def trailing (evs : List ε) (idle : ε) (n : ℕ) : ε := evs.getD n idle

theorem trail_of_length_le {s s' : σ} {evs : List ε} (hrun : m.run s evs = some s') {n : ℕ}
    (hn : evs.length ≤ n) : m.trail s evs n = s' := by
  induction evs generalizing s n with
  | nil =>
      cases hrun
      cases n <;> rfl
  | cons ev evs ih =>
      obtain ⟨t, hstep, hrest⟩ := Option.bind_eq_some_iff.mp hrun
      cases n with
      | zero => exact absurd hn (Nat.not_succ_le_zero _)
      | succ n =>
          rw [trail, hstep]
          exact ih hrest (Nat.le_of_succ_le_succ hn)

theorem trail_zero (s : σ) (evs : List ε) : m.trail s evs 0 = s := by
  cases evs <;> rfl

/-- A run that comes to a state where it can idle goes on for ever. -/
theorem forever_of_run {s s' : σ} {evs : List ε} {idle : ε} (hs : m.Reachable s)
    (hrun : m.run s evs = some s') (hidle : m.step s' idle = some s') :
    m.Forever (m.trail s evs) (trailing evs idle) := by
  refine ⟨by rwa [trail_zero], fun n => ?_⟩
  clear hs
  induction evs generalizing s n with
  | nil =>
      cases hrun
      cases n <;> exact hidle
  | cons ev evs ih =>
      obtain ⟨t, hstep, hrest⟩ := Option.bind_eq_some_iff.mp hrun
      cases n with
      | zero =>
          rw [trail_zero, trail, hstep]
          show m.step s ev = some (m.trail t evs 0)
          rw [trail_zero, hstep]
      | succ n =>
          rw [trail, trail, hstep]
          exact ih hrest n

/-- It is fair to whatever is disabled where it comes to rest. -/
theorem fair_of_run {s s' : σ} {evs : List ε} {idle : ε} (hrun : m.run s evs = some s')
    {kind : ε → Prop} (hdisabled : ¬m.Enabled kind s') :
    m.Fair (m.trail s evs) (trailing evs idle) kind := by
  intro n
  refine ⟨max n evs.length, Nat.le_max_left _ _, .inr ?_⟩
  rwa [trail_of_length_le hrun (Nat.le_max_right _ _)]

/-- Where the same step can be taken again and again, it can be taken for ever. -/
theorem exists_forever {Q : σ → Prop} {idle : ε}
    (hidle : ∀ s, Q s → ∃ s', m.step s idle = some s' ∧ Q s') {s : σ} (hs : m.Reachable s)
    (h : Q s) : ∃ states, m.Forever states (fun _ => idle) ∧ states 0 = s ∧ ∀ n, Q (states n) := by
  choose! next hnext using hidle
  have hstays : ∀ n, Q (next^[n] s) := by
    intro n
    induction n with
    | zero => exact h
    | succ n ih =>
        rw [Function.iterate_succ_apply']
        exact (hnext _ ih).2
  refine ⟨fun n => next^[n] s, ⟨hs, fun n => ?_⟩, rfl, hstays⟩
  rw [Function.iterate_succ_apply']
  exact (hnext _ (hstays n)).1

/-- A sequence with one more entry in front. -/
def prepend {α : Type*} (a : α) (f : ℕ → α) : ℕ → α
  | 0 => a
  | n + 1 => f n

theorem Forever.prepend (h : m.Forever states events) {s : σ} {ev : ε} (hs : m.Reachable s)
    (hstep : m.step s ev = some (states 0)) :
    m.Forever (Machine.prepend s states) (Machine.prepend ev events) where
  start := hs
  step n := by
    cases n with
    | zero => exact hstep
    | succ n => exact h.step n

end Machine

end FerriteSfu.Lib

import Mathlib.Data.List.Basic

/-!
A queue of events that are handed to a state one after the other, step by step.

The fold over the queue only shows the last state. The trace keeps every step of
it, so that what one event found and what it left can be told apart from what the
others did before and after it.
-/

namespace FerriteSfu.Lib

variable {α β γ : Type*}

structure Step (α β : Type*) where
  before : α
  event : β
  after : α

/-- The steps of `events.foldl f a`. -/
def trace (f : α → β → α) : α → List β → List (Step α β)
  | _, [] => []
  | a, b :: events => ⟨a, b, f a b⟩ :: trace f (f a b) events

section

variable {f : α → β → α}

/-- Every event has its step, in order. -/
theorem trace_events (a : α) (events : List β) : (trace f a events).map Step.event = events := by
  induction events generalizing a with
  | nil => rfl
  | cons b events ih => rw [trace, List.map_cons, ih]

theorem trace_after {a : α} {events : List β} {step : Step α β} (h : step ∈ trace f a events) :
    step.after = f step.before step.event := by
  induction events generalizing a with
  | nil => cases h
  | cons b events ih =>
      rcases List.mem_cons.mp h with rfl | h
      · rfl
      · exact ih h

/-- Every step lies between the first state and the last. -/
theorem trace_between {R : α → α → Prop} (hrefl : ∀ a, R a a)
    (htrans : ∀ a b c, R a b → R b c → R a c) (hstep : ∀ a b, R a (f a b)) {a : α}
    {events : List β} {step : Step α β} (h : step ∈ trace f a events) :
    R a step.before ∧ R step.before (events.foldl f a) := by
  have hfold : ∀ (events : List β) (a : α), R a (events.foldl f a) := by
    intro events
    induction events with
    | nil => exact hrefl
    | cons b events ih => exact fun a => htrans _ _ _ (hstep a b) (ih (f a b))
  induction events generalizing a with
  | nil => cases h
  | cons b events ih =>
      rcases List.mem_cons.mp h with rfl | h
      · exact ⟨hrefl a, hfold (b :: events) a⟩
      · obtain ⟨hbefore, hafter⟩ := ih h
        exact ⟨htrans _ _ _ (hstep a b) hbefore, hafter⟩

/-- A log that only grows is what the steps add to it, one after the other. -/
theorem foldl_log {log : α → List γ} (hgrow : ∀ a b, log a <+: log (f a b)) (a : α)
    (events : List β) :
    log (events.foldl f a) = log a ++ (trace f a events).flatMap fun step =>
      (log step.after).drop (log step.before).length := by
  induction events generalizing a with
  | nil => simp [trace]
  | cons b events ih =>
      obtain ⟨added, hadded⟩ := hgrow a b
      have hdrop : (log (f a b)).drop (log a).length = added := by
        rw [← hadded]
        exact List.drop_left
      rw [List.foldl_cons, ih, trace, List.flatMap_cons, hdrop, ← hadded, List.append_assoc]

end

end FerriteSfu.Lib

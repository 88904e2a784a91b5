import Mathlib.Data.Finset.Basic

/-!
A set kept by replaying a log: each entry adds an element, removes one, clears
the set or leaves it alone. A reader of the log and its writer agree when every
entry appended moves the set the way the writer's state moved.
-/

namespace FerriteSfu.Lib

variable {α : Type*} [DecidableEq α]

inductive SetOp (α : Type*)
  | add (a : α)
  | remove (a : α)
  | clear
  | skip
  deriving DecidableEq

namespace SetOp

def apply (s : Finset α) : SetOp α → Finset α
  | .add a => insert a s
  | .remove a => s.erase a
  | .clear => ∅
  | .skip => s

def replay (s : Finset α) (log : List (SetOp α)) : Finset α := log.foldl apply s

@[simp] theorem replay_nil (s : Finset α) : replay s [] = s := rfl

@[simp] theorem replay_cons (s : Finset α) (op : SetOp α) (log : List (SetOp α)) :
    replay s (op :: log) = replay (op.apply s) log := rfl

theorem replay_append (s : Finset α) (log log' : List (SetOp α)) :
    replay s (log ++ log') = replay (replay s log) log' := by
  simp [replay]

@[simp] theorem mem_apply_add {s : Finset α} {a b : α} :
    b ∈ (SetOp.add a).apply s ↔ b = a ∨ b ∈ s := by
  simp [apply]

@[simp] theorem mem_apply_remove {s : Finset α} {a b : α} :
    b ∈ (SetOp.remove a).apply s ↔ b ≠ a ∧ b ∈ s := by
  simp [apply]

@[simp] theorem apply_clear (s : Finset α) : SetOp.clear.apply s = ∅ := rfl

@[simp] theorem apply_skip (s : Finset α) : SetOp.skip.apply s = s := rfl

/-- Entries that only add. -/
theorem mem_replay_add {s : Finset α} {l : List α} {b : α} :
    b ∈ replay s (l.map .add) ↔ b ∈ l ∨ b ∈ s := by
  induction l generalizing s with
  | nil => simp
  | cons a l ih =>
      simp only [List.map_cons, replay_cons, ih, mem_apply_add, List.mem_cons]
      tauto

/-- Entries that only remove. -/
theorem mem_replay_remove {s : Finset α} {l : List α} {b : α} :
    b ∈ replay s (l.map .remove) ↔ b ∉ l ∧ b ∈ s := by
  induction l generalizing s with
  | nil => simp
  | cons a l ih =>
      simp only [List.map_cons, replay_cons, ih, mem_apply_remove, List.mem_cons]
      tauto

theorem replay_skip {s : Finset α} {log : List (SetOp α)} (h : ∀ op ∈ log, op = .skip) :
    replay s log = s := by
  induction log generalizing s with
  | nil => rfl
  | cons op log ih =>
      rw [replay_cons, h op (by simp), apply_skip, ih fun op hop => h op (by simp [hop])]

/-- Whatever is in the set was there at first or was added. -/
theorem add_mem_of_mem_replay {s : Finset α} {log : List (SetOp α)} {a : α}
    (h : a ∈ replay s log) : a ∈ s ∨ .add a ∈ log := by
  induction log generalizing s with
  | nil => exact .inl h
  | cons op log ih =>
      rcases ih h with hmem | hmem
      · cases op with
        | add b =>
            rcases mem_apply_add.mp hmem with rfl | hmem
            · exact .inr (List.mem_cons_self ..)
            · exact .inl hmem
        | remove b => exact .inl (mem_apply_remove.mp hmem).2
        | clear => simp at hmem
        | skip => exact .inl hmem
      · exact .inr (List.mem_cons_of_mem _ hmem)

end SetOp

end FerriteSfu.Lib

import Mathlib.Data.List.Basic

/-!
A group that broadcasts a list whenever it has moved, and keeps the list it
broadcast last. Whoever leaves the group is struck from what it keeps, without
a broadcast.

The group forgets what it struck, so a list that differs from what is kept may
still be the list that was broadcast. It is not as long as nobody who was struck
is ever on a list again.
-/

namespace FerriteSfu.Lib

variable {α : Type*}

/-- What happens to a group. -/
inductive News (α : Type*)
  | opened
  | removed (a : α)
  | told (list : List α)
  deriving DecidableEq, Repr

/-- What was broadcast last, if anything, and what was removed since. -/
structure LastTold (α : Type*) where
  list : Option (List α)
  removed : List α

namespace LastTold

def next (last : LastTold α) : News α → LastTold α
  | .opened => { list := none, removed := [] }
  | .removed a => { last with removed := last.removed ++ [a] }
  | .told list => { list := some list, removed := [] }

/-- The last broadcast of a log and the removals behind it. -/
def of (log : List (News α)) : LastTold α := log.foldl next { list := none, removed := [] }

/-- The last broadcast, empty if there was none, without what was removed. -/
def kept [DecidableEq α] (last : LastTold α) : List α :=
  (last.list.getD []).filter fun a => a ∉ last.removed

theorem of_append (log log' : List (News α)) : of (log ++ log') = log'.foldl next (of log) :=
  List.foldl_append

theorem foldl_removed (last : LastTold α) (gone : List α) :
    (gone.map News.removed).foldl next last =
      { last with removed := last.removed ++ gone } := by
  induction gone generalizing last with
  | nil => simp
  | cons a gone ih =>
      rw [List.map_cons, List.foldl_cons, ih]
      simp [next]

theorem kept_removed [DecidableEq α] (last : LastTold α) (gone : List α) :
    ({ last with removed := last.removed ++ gone } : LastTold α).kept =
      last.kept.filter fun a => a ∉ gone := by
  simp [kept, List.filter_filter, not_or, Bool.and_comm]

/-- A list that differs from what is kept differs from what was broadcast, if
nobody who was removed is on it. -/
theorem list_ne [DecidableEq α] {last : LastTold α} {list : List α}
    (hgone : ∀ a ∈ last.removed, a ∉ list) (hnew : list ≠ last.kept) :
    last.list ≠ some list := by
  intro heq
  apply hnew
  have hall : list.filter (fun a => a ∉ last.removed) = list :=
    List.filter_eq_self.mpr fun a ha => decide_eq_true fun hmem => hgone a hmem ha
  rw [kept, heq, Option.getD_some, hall]

end LastTold

/-- No list equals the one broadcast before it since the group was opened; `last`
is what was broadcast before the log begins. -/
def NoRepeats : Option (List α) → List (News α) → Prop
  | _, [] => True
  | _, .opened :: log => NoRepeats none log
  | last, .removed _ :: log => NoRepeats last log
  | last, .told list :: log => last ≠ some list ∧ NoRepeats (some list) log

theorem noRepeats_append {last : LastTold α} {log log' : List (News α)} :
    NoRepeats last.list (log ++ log') ↔
      NoRepeats last.list log ∧ NoRepeats (log.foldl LastTold.next last).list log' := by
  induction log generalizing last with
  | nil => exact ⟨fun h => ⟨trivial, h⟩, fun h => h.2⟩
  | cons news log ih =>
      cases news with
      | opened => exact @ih { list := none, removed := [] }
      | removed a => exact @ih { last with removed := last.removed ++ [a] }
      | told list =>
          rw [List.cons_append, NoRepeats, NoRepeats, and_assoc]
          exact and_congr_right fun _ => @ih { list := some list, removed := [] }

theorem NoRepeats.append {log log' : List (News α)} (h : NoRepeats none log)
    (h' : NoRepeats (LastTold.of log).list log') : NoRepeats none (log ++ log') :=
  (@noRepeats_append _ ⟨none, []⟩ _ _).mpr ⟨h, h'⟩

/-- Removals are not broadcast. -/
theorem noRepeats_removed (last : Option (List α)) (gone : List α) :
    NoRepeats last (gone.map .removed) := by
  induction gone with
  | nil => exact trivial
  | cons a gone ih => exact ih

/-- Two lists with nothing but removals between them. -/
theorem NoRepeats.ne {last : Option (List α)} {before mid after : List (News α)}
    {list list' : List α}
    (h : NoRepeats last (before ++ .told list :: (mid ++ .told list' :: after)))
    (hmid : ∀ news ∈ mid, ∃ a, news = .removed a) : list ≠ list' := by
  have hrest := ((@noRepeats_append _ ⟨last, []⟩ _ _).mp h).2.2
  clear h
  induction mid with
  | nil => exact fun heq => hrest.1 (congrArg some heq)
  | cons news mid ih =>
      obtain ⟨a, rfl⟩ := hmid news (List.mem_cons_self ..)
      exact ih (fun other hother => hmid other (List.mem_cons_of_mem _ hother)) hrest

end FerriteSfu.Lib

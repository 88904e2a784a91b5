import Mathlib.Data.List.Induction
import Mathlib.Order.Defs.PartialOrder

/-!
Logs of timed entries, some of which open a period and some of which close it.

`OpenSince` is the operator of temporal logic: an entry that opens was logged
at `t`, and none that closes after it. `firstOpen` keeps one reading only, that
of the first entry that opened since the last one that closed. If the readings
never decrease, that one is the oldest, so it answers every question that holds
of a reading as soon as it holds of a later one.
-/

namespace FerriteSfu.Lib

variable {T α : Type*} {opens closes : α → Bool}

/-- An entry that opens was logged at `t`, and none that closes since. -/
def OpenSince (opens closes : α → Bool) (log : List (T × α)) (t : T) : Prop :=
  ∃ before a after, log = before ++ (t, a) :: after ∧ opens a = true ∧
    ∀ entry ∈ after, closes entry.2 = false

/-- What one more entry makes of the slot. -/
def nextOpen (opens closes : α → Bool) (slot : Option T) (entry : T × α) : Option T :=
  if closes entry.2 then none
  else if opens entry.2 then some (slot.getD entry.1) else slot

/-- The reading in the slot after a log. -/
def firstOpen (opens closes : α → Bool) (log : List (T × α)) : Option T :=
  log.foldl (nextOpen opens closes) none

theorem firstOpen_append (log log' : List (T × α)) :
    firstOpen opens closes (log ++ log') =
      log'.foldl (nextOpen opens closes) (firstOpen opens closes log) :=
  List.foldl_append

/-- Once taken, the slot stays as it is until an entry closes. -/
theorem foldl_nextOpen_kept {t : T} {log : List (T × α)}
    (h : ∀ entry ∈ log, closes entry.2 = false) :
    log.foldl (nextOpen opens closes) (some t) = some t := by
  induction log with
  | nil => rfl
  | cons entry log ih =>
      have hfirst : nextOpen opens closes (some t) entry = some t := by
        simp [nextOpen, h entry (List.mem_cons_self ..)]
      rw [List.foldl_cons, hfirst]
      exact ih fun other hother => h other (List.mem_cons_of_mem _ hother)

theorem openSince_snoc (log : List (T × α)) (t : T) {a : α} (ha : opens a = true) :
    OpenSince opens closes (log ++ [(t, a)]) t :=
  ⟨log, a, [], rfl, ha, by simp⟩

theorem OpenSince.snoc {log : List (T × α)} {t : T} (h : OpenSince opens closes log t)
    {entry : T × α} (hentry : closes entry.2 = false) :
    OpenSince opens closes (log ++ [entry]) t := by
  obtain ⟨before, a, after, rfl, ha, hafter⟩ := h
  refine ⟨before, a, after ++ [entry], by simp, ha, fun other hother => ?_⟩
  rcases List.mem_append.mp hother with hother | hother
  · exact hafter other hother
  · rw [List.mem_singleton.mp hother]
    exact hentry

/-- The reading in the slot is that of an entry nothing has closed. -/
theorem openSince_of_firstOpen {log : List (T × α)} {t : T}
    (h : firstOpen opens closes log = some t) : OpenSince opens closes log t := by
  induction log using List.reverseRecOn with
  | nil => cases h
  | append_singleton log entry ih =>
      rw [firstOpen_append, List.foldl_cons, List.foldl_nil, nextOpen] at h
      cases hcloses : closes entry.2 with
      | true => simp [hcloses] at h
      | false =>
          simp only [hcloses, Bool.false_eq_true, if_false] at h
          cases hslot : firstOpen opens closes log with
          | some s =>
              have hsame : s = t := by simpa [hslot] using h
              exact (ih (hslot.trans (congrArg some hsame))).snoc hcloses
          | none =>
              cases hopens : opens entry.2 with
              | true =>
                  have hnow : entry.1 = t := by simpa [hslot, hopens] using h
                  exact hnow ▸ openSince_snoc log entry.1 hopens
              | false => simp [hslot, hopens] at h

/-- An entry that opens keeps the slot that is taken, and takes the one that is free. -/
theorem firstOpen_append_cons (hdisjoint : ∀ a, opens a = true → closes a = false)
    (before : List (T × α)) (t : T) {a : α} (ha : opens a = true) {after : List (T × α)}
    (hafter : ∀ entry ∈ after, closes entry.2 = false) :
    firstOpen opens closes (before ++ (t, a) :: after) =
      some ((firstOpen opens closes before).getD t) := by
  have hslot : nextOpen opens closes (firstOpen opens closes before) (t, a) =
      some ((firstOpen opens closes before).getD t) := by
    simp [nextOpen, hdisjoint a ha, ha]
  rw [firstOpen_append, List.foldl_cons, hslot]
  exact foldl_nextOpen_kept hafter

section

variable [Preorder T]

/-- What is open was open when the slot was taken. -/
theorem OpenSince.firstOpen_le {log : List (T × α)} {t : T} (h : OpenSince opens closes log t)
    (hdisjoint : ∀ a, opens a = true → closes a = false)
    (hmono : log.Pairwise fun entry entry' => entry.1 ≤ entry'.1) :
    ∃ s, firstOpen opens closes log = some s ∧ s ≤ t := by
  obtain ⟨before, a, after, rfl, ha, hafter⟩ := h
  refine ⟨_, firstOpen_append_cons hdisjoint before t ha hafter, ?_⟩
  cases hbefore : firstOpen opens closes before with
  | none => exact le_refl t
  | some s =>
      obtain ⟨first, b, rest, rfl, -, -⟩ := openSince_of_firstOpen hbefore
      exact (List.pairwise_append.mp hmono).2.2 (s, b) (by simp) (t, a) (by simp)

/-- **The slot answers for the whole log.** -/
theorem exists_firstOpen_iff {log : List (T × α)} {P : T → Prop}
    (hdisjoint : ∀ a, opens a = true → closes a = false)
    (hmono : log.Pairwise fun entry entry' => entry.1 ≤ entry'.1)
    (hP : ∀ s t, s ≤ t → P t → P s) :
    (∃ t, firstOpen opens closes log = some t ∧ P t) ↔
      ∃ t, OpenSince opens closes log t ∧ P t := by
  constructor
  · rintro ⟨t, hslot, ht⟩
    exact ⟨t, openSince_of_firstOpen hslot, ht⟩
  · rintro ⟨t, hopen, ht⟩
    obtain ⟨s, hslot, hle⟩ := hopen.firstOpen_le hdisjoint hmono
    exact ⟨s, hslot, hP s t hle ht⟩

end

end FerriteSfu.Lib

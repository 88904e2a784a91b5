import Mathlib.Data.List.Basic

/-!
Instants that keep a distance from one another, and how many of them there is
room for.
-/

namespace FerriteSfu.Lib

/-- Each instant is at least `gap` after the ones before it. -/
def Spaced (gap : ℕ) (times : List ℕ) : Prop := times.Pairwise fun t t' => t + gap ≤ t'

/-- An instant that is not less than `gap` after `s`, by saturating subtraction,
keeps the distance. -/
theorem add_le_of_not_sub_lt {s t gap : ℕ} (hpos : 0 < gap) (h : ¬t - s < gap) : s + gap ≤ t := by
  omega

namespace Spaced

variable {gap : ℕ} {times : List ℕ}

/-- Whatever keeps the distance from the last one keeps it from all of them. -/
theorem add_le (h : Spaced gap times) {t : ℕ} (hlast : ∀ last ∈ times.getLast?, last + gap ≤ t) :
    ∀ s ∈ times, s + gap ≤ t := by
  intro s hs
  rcases times.eq_nil_or_concat with rfl | ⟨earlier, last, rfl⟩
  · cases hs
  · rw [List.concat_eq_append] at h hs hlast
    have hend : last + gap ≤ t := hlast last (by simp)
    rcases List.mem_append.mp hs with hs | hs
    · have hle : s + gap ≤ last := (List.pairwise_append.mp h).2.2 s hs last (by simp)
      omega
    · rwa [List.mem_singleton.mp hs]

theorem snoc (h : Spaced gap times) {t : ℕ} (hlast : ∀ last ∈ times.getLast?, last + gap ≤ t) :
    Spaced gap (times ++ [t]) := by
  refine List.pairwise_append.mpr ⟨h, List.pairwise_singleton _ _, fun s hs t' ht' => ?_⟩
  rw [List.mem_singleton.mp ht']
  exact h.add_le hlast s hs

theorem sublist {times' : List ℕ} (h : Spaced gap times) (hsub : times'.Sublist times) :
    Spaced gap times' :=
  List.Pairwise.sublist hsub h

/-- **There is one for each `gap` of a period, and one more.** -/
theorem length_mul_le (h : Spaced gap times) {lo hi : ℕ} (hin : ∀ t ∈ times, lo ≤ t ∧ t ≤ hi) :
    times.length * gap ≤ hi - lo + gap := by
  induction times generalizing lo with
  | nil => simp
  | cons t times ih =>
      obtain ⟨hfirst, hrest⟩ := List.pairwise_cons.mp h
      obtain ⟨hlo, hhi⟩ := hin t (List.mem_cons_self ..)
      have hlater : times.length * gap ≤ hi - (t + gap) + gap :=
        ih hrest fun s hs => ⟨hfirst s hs, (hin s (List.mem_cons_of_mem _ hs)).2⟩
      rw [List.length_cons, Nat.add_mul, Nat.one_mul]
      cases times with
      | nil =>
          simp only [List.length_nil, Nat.zero_mul, Nat.zero_add]
          omega
      | cons s times =>
          have hs := hfirst s (List.mem_cons_self ..)
          have hsi := (hin s (List.mem_cons_of_mem _ (List.mem_cons_self ..))).2
          omega

end Spaced

end FerriteSfu.Lib

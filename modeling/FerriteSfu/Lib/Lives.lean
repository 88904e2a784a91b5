import Mathlib.Data.List.Basic

/-!
The life of one thing: entries of a log change it, and in between it is only
touched quietly. What it keeps of its log is proved along the life, one entry
at a time, with the quiet steps out of the way.

`picks` takes the entries of a log that matter because of what came before them.
-/

namespace FerriteSfu.Lib

variable {α ε : Type*} {quiet : α → α → Prop} {entered : ε → α → α → Prop}

/-- `a` went through the entries of a log, in order, and is `b` now. -/
inductive Lived (quiet : α → α → Prop) (entered : ε → α → α → Prop) : List ε → α → α → Prop
  | refl (a : α) : Lived quiet entered [] a a
  | quiet {log : List ε} {a b c : α} (h : Lived quiet entered log a b) (hquiet : quiet b c) :
      Lived quiet entered log a c
  | entry {log : List ε} {a b c : α} {e : ε} (h : Lived quiet entered log a b)
      (hentry : entered e b c) : Lived quiet entered (log ++ [e]) a c

namespace Lived

theorem of_quiet {a b : α} (h : quiet a b) : Lived quiet entered [] a b := .quiet (.refl a) h

theorem of_entry {a b : α} {e : ε} (h : entered e a b) : Lived quiet entered [e] a b :=
  .entry (.refl a) h

theorem trans {log log' : List ε} {a b c : α} (h : Lived quiet entered log a b)
    (h' : Lived quiet entered log' b c) : Lived quiet entered (log ++ log') a c := by
  induction h' with
  | refl b => rwa [List.append_nil]
  | quiet _ hquiet ih => exact .quiet (ih h) hquiet
  | entry _ hentry ih =>
      rw [← List.append_assoc]
      exact .entry (ih h) hentry

/-- What holds of a log and a state is carried along. -/
theorem rule {P : List ε → α → Prop} (hquiet : ∀ log a b, P log a → quiet a b → P log b)
    (hentry : ∀ log a b e, P log a → entered e a b → P (log ++ [e]) b)
    {log log' : List ε} {a b : α} (h : Lived quiet entered log' a b) (ha : P log a) :
    P (log ++ log') b := by
  induction h with
  | refl a => rwa [List.append_nil]
  | quiet _ hb ih => exact hquiet _ _ _ (ih ha) hb
  | entry _ hb ih =>
      rw [← List.append_assoc]
      exact hentry _ _ _ _ (ih ha) hb

/-- What holds of the thing before its first entry and is carried along. -/
theorem ofStart {P : List ε → α → Prop} (hquiet : ∀ log a b, P log a → quiet a b → P log b)
    (hentry : ∀ log a b e, P log a → entered e a b → P (log ++ [e]) b)
    {log : List ε} {a b : α} (h : Lived quiet entered log a b) (ha : P [] a) : P log b := by
  have hb : P ([] ++ log) b := rule hquiet hentry h ha
  rwa [List.nil_append] at hb

end Lived

/-! ### Entries that matter -/

/-- The entries that pass the test in view of those before them, `past` included. -/
def picksAfter (test : List ε → ε → Bool) (past : List ε) : List ε → List ε
  | [] => []
  | e :: log =>
      if test past e then e :: picksAfter test (past ++ [e]) log
      else picksAfter test (past ++ [e]) log

def picks (test : List ε → ε → Bool) (log : List ε) : List ε := picksAfter test [] log

theorem picksAfter_append (test : List ε → ε → Bool) (past log log' : List ε) :
    picksAfter test past (log ++ log') =
      picksAfter test past log ++ picksAfter test (past ++ log) log' := by
  induction log generalizing past with
  | nil => simp [picksAfter]
  | cons e log ih =>
      simp only [List.cons_append, picksAfter, ih, List.append_assoc, List.nil_append]
      split <;> rfl

theorem picks_snoc (test : List ε → ε → Bool) (log : List ε) (e : ε) :
    picks test (log ++ [e]) = picks test log ++ if test log e then [e] else [] := by
  rw [picks, picksAfter_append, List.nil_append]
  rfl

theorem mem_picks {test : List ε → ε → Bool} {log : List ε} {e : ε} :
    e ∈ picks test log ↔ ∃ before after, log = before ++ e :: after ∧ test before e = true := by
  have hafter : ∀ past, e ∈ picksAfter test past log ↔
      ∃ before after, log = before ++ e :: after ∧ test (past ++ before) e = true := by
    induction log with
    | nil => simp [picksAfter]
    | cons first log ih =>
        intro past
        have hrest : e ∈ picksAfter test (past ++ [first]) log ↔
            ∃ before after, first :: log = (first :: before) ++ e :: after ∧
              test (past ++ first :: before) e = true := by
          simpa using ih (past ++ [first])
        rw [picksAfter]
        constructor
        · intro hmem
          by_cases htest : test past first = true ∧ e = first
          · obtain ⟨htest, rfl⟩ := htest
            exact ⟨[], log, rfl, by rwa [List.append_nil]⟩
          · have hmem : e ∈ picksAfter test (past ++ [first]) log := by
              split at hmem
              · rename_i hfirst
                exact (List.mem_cons.mp hmem).resolve_left fun he => htest ⟨hfirst, he⟩
              · exact hmem
            obtain ⟨before, after, heq, hbefore⟩ := hrest.mp hmem
            exact ⟨first :: before, after, heq, hbefore⟩
        · rintro ⟨before, after, heq, hbefore⟩
          cases before with
          | nil =>
              obtain ⟨rfl, rfl⟩ := List.cons.inj heq
              rw [List.append_nil] at hbefore
              rw [if_pos hbefore]
              exact List.mem_cons_self ..
          | cons other before =>
              obtain ⟨rfl, -⟩ := List.cons.inj heq
              have hmem := hrest.mpr ⟨before, after, heq, hbefore⟩
              split
              · exact List.mem_cons_of_mem _ hmem
              · exact hmem
  exact hafter []

theorem picks_sublist (test : List ε → ε → Bool) (log : List ε) : (picks test log).Sublist log := by
  have hafter : ∀ past, (picksAfter test past log).Sublist log := by
    induction log with
    | nil => exact fun _ => .slnil
    | cons e log ih =>
        intro past
        rw [picksAfter]
        split
        · exact (ih _).cons_cons e
        · exact (ih _).cons e
  exact hafter []

/-- `P` holds of every entry and those before it. -/
def AtEach (P : List ε → ε → Prop) (log : List ε) : Prop :=
  ∀ before e after, log = before ++ e :: after → P before e

theorem atEach_nil (P : List ε → ε → Prop) : AtEach P [] := by
  intro before e after h
  simp at h

theorem AtEach.snoc {P : List ε → ε → Prop} {log : List ε} (h : AtEach P log) {e : ε}
    (he : P log e) : AtEach P (log ++ [e]) := by
  intro before e' after heq
  rcases after.eq_nil_or_concat with rfl | ⟨after, last, rfl⟩
  · obtain ⟨rfl, hlast⟩ := List.append_inj' heq rfl
    cases hlast
    exact he
  · rw [List.concat_eq_append, ← List.cons_append, ← List.append_assoc] at heq
    exact h before e' after (List.append_inj_left' heq rfl)

/-- The last entry answers for all of them, if the later ones answer for the earlier. -/
theorem exists_getLast?_iff {R : ε → ε → Prop} {P : ε → Prop} {log : List ε}
    (hlog : log.Pairwise R) (hR : ∀ e e', R e e' → P e → P e') :
    (∃ e, log.getLast? = some e ∧ P e) ↔ ∃ e ∈ log, P e := by
  rcases log.eq_nil_or_concat with rfl | ⟨earlier, last, rfl⟩
  · simp
  · rw [List.concat_eq_append] at hlog ⊢
    rw [List.getLast?_concat]
    constructor
    · rintro ⟨e, he, hP⟩
      obtain rfl := Option.some.inj he
      exact ⟨last, by simp, hP⟩
    · rintro ⟨e, he, hP⟩
      refine ⟨last, rfl, ?_⟩
      rcases List.mem_append.mp he with he | he
      · exact hR e last ((List.pairwise_append.mp hlog).2.2 e he last (by simp)) hP
      · rwa [List.mem_singleton.mp he] at hP

end FerriteSfu.Lib

import Mathlib.Data.List.Basic

/-!
Logs whose entries answer to the entries before them.

`Fits` says of every entry that it fits what was logged before it. Where the
entries open and close episodes, two more questions come up. Which of the
entries that matter is the last one, when the others are interleaved with it?
And do the episodes follow one another: is nothing logged between the end of one
and the start of the next? `LastIs` and `Follows` are about the first question,
`phase` is about the second.
-/

namespace FerriteSfu.Lib

variable {α : Type*}

/-! ### What an entry owes to those before it -/

/-- Every entry fits what was logged before it. -/
def Fits (fits : List α → α → Prop) (log : List α) : Prop :=
  ∀ before a after, log = before ++ a :: after → fits before a

theorem fits_nil (fits : List α → α → Prop) : Fits fits [] := fun _ _ _ h => by simp at h

theorem Fits.push {fits : List α → α → Prop} {log : List α} (h : Fits fits log) {a : α}
    (ha : fits log a) : Fits fits (log ++ [a]) := by
  intro before b after heq
  rcases List.eq_nil_or_concat after with rfl | ⟨rest, c, rfl⟩
  · obtain ⟨rfl, hb⟩ := List.append_inj' heq rfl
    cases hb
    exact ha
  · rw [List.concat_eq_append, ← List.cons_append, ← List.append_assoc] at heq
    obtain ⟨hlog, -⟩ := List.append_inj' heq rfl
    exact h before b rest hlog

/-! ### The last entry that matters -/

/-- The last entry of the log that `p` picks is `a`. -/
def LastIs (p : α → Bool) (a : α) (log : List α) : Prop := (log.filter p).getLast? = some a

/-- Whenever `closing` is logged, the last entry before it that `p` picks is
`opening`. -/
def Follows (p : α → Bool) (opening closing : α) (log : List α) : Prop :=
  ∀ before after, log = before ++ closing :: after → LastIs p opening before

section

variable {p q : α → Bool} {a opening closing : α} {log log' : List α}

theorem lastIs_append_quiet (h : ∀ b ∈ log', p b = false) :
    LastIs p a (log ++ log') ↔ LastIs p a log := by
  have hnil : log'.filter p = [] := List.filter_eq_nil_iff.mpr fun b hb => by simp [h b hb]
  simp [LastIs, hnil]

theorem lastIs_append_cons (ha : p a = true) (h : ∀ b ∈ log', p b = false) :
    LastIs p a (log ++ a :: log') := by
  have hnil : log'.filter p = [] := List.filter_eq_nil_iff.mpr fun b hb => by simp [h b hb]
  simp [LastIs, ha, hnil]

/-- The entry and what was logged since. -/
theorem LastIs.split (h : LastIs p a log) :
    ∃ before after, log = before ++ a :: after ∧ ∀ b ∈ after, p b = false := by
  obtain ⟨firsts, hfirsts⟩ := List.getLast?_eq_some_iff.mp h
  obtain ⟨l₁, l₂, rfl, -, hl₂⟩ := List.filter_eq_append_iff.mp hfirsts
  obtain ⟨l₃, l₄, rfl, -, -, hl₄⟩ := List.filter_eq_cons_iff.mp hl₂
  refine ⟨l₁ ++ l₃, l₄, by simp, fun b hb => ?_⟩
  simpa using List.filter_eq_nil_iff.mp hl₄ b hb

/-- A reader who sees only part of the log, with all that matters in it, sees
the same last entry. -/
theorem lastIs_filter (hpq : ∀ b, p b = true → q b = true) :
    LastIs p a (log.filter q) ↔ LastIs p a log := by
  rw [LastIs, LastIs, List.filter_filter, List.filter_congr fun b _ => ?_]
  cases hp : p b with
  | false => rfl
  | true => simp [hpq b hp]

theorem follows_nil : Follows p opening closing [] := fun _ _ h => by simp at h

/-- Appending to the log only has to be justified where it closes. -/
theorem Follows.append (h : Follows p opening closing log)
    (hnew : ∀ before after, log' = before ++ closing :: after →
      LastIs p opening (log ++ before)) : Follows p opening closing (log ++ log') := by
  intro before after heq
  rcases List.append_eq_append_iff.mp heq with ⟨mid, rfl, hlog'⟩ | ⟨mid, hlog, hrest⟩
  · exact hnew mid after hlog'
  · cases mid with
    | nil =>
        rw [List.append_nil] at hlog
        subst hlog
        simpa using hnew [] after (by simpa using hrest.symm)
    | cons b mid =>
        obtain ⟨rfl, -⟩ := List.cons.inj hrest
        exact h before mid hlog

theorem Follows.append_quiet (h : Follows p opening closing log) (hnew : closing ∉ log') :
    Follows p opening closing (log ++ log') :=
  h.append fun before after heq => absurd (heq ▸ by simp) hnew

theorem Follows.of_filter (h : Follows p opening closing (log.filter q))
    (hpq : ∀ b, p b = true → q b = true) (hclosing : q closing = true) :
    Follows p opening closing log := by
  rintro before after rfl
  refine (lastIs_filter hpq).mp (h _ (after.filter q) ?_)
  simp [hclosing]

end

/-! ### Episodes that follow one another -/

section

variable (starts ends : α → Bool)

/-- Whether an episode is under way after the log, and `none` when the log is
not one of episodes: an entry outside an episode, or a start inside one. -/
def phase : Bool → List α → Option Bool
  | busy, [] => some busy
  | false, a :: log => if starts a then phase true log else none
  | true, a :: log => if starts a then none else phase (!ends a) log

variable {starts ends}

theorem phase_append {b : Bool} {log log' : List α} :
    phase starts ends b (log ++ log') =
      (phase starts ends b log).bind fun b' => phase starts ends b' log' := by
  induction log generalizing b with
  | nil => cases b <;> simp [phase]
  | cons a log ih => cases b <;> simp only [List.cons_append, phase] <;> split <;> simp [ih]

/-- What is logged in the middle of an episode. -/
theorem phase_quiet {log : List α} (h : ∀ a ∈ log, starts a = false ∧ ends a = false) :
    phase starts ends true log = some true := by
  induction log with
  | nil => rfl
  | cons a log ih =>
      obtain ⟨hstart, hend⟩ := h a (by simp)
      simp only [phase, hstart, hend, Bool.not_false]
      exact ih fun b hb => h b (by simp [hb])

/-- As many episodes have ended as have started, but for the one under way. -/
theorem phase_count {b b' : Bool} {log : List α} (hdisjoint : ∀ a, starts a = true → ends a = false)
    (h : phase starts ends b log = some b') :
    log.countP ends + b'.toNat = log.countP starts + b.toNat := by
  induction log generalizing b with
  | nil =>
      cases b <;> cases h <;> rfl
  | cons a log ih =>
      cases b with
      | false =>
          simp only [phase] at h
          split at h
          · rename_i hstart
            have hcount := ih h
            simp only [List.countP_cons, hstart, hdisjoint a hstart, Bool.toNat_true] at hcount ⊢
            simpa using hcount
          · cases h
      | true =>
          simp only [phase] at h
          split at h
          · cases h
          · rename_i hstart
            have hcount := ih h
            cases hend : ends a <;>
              simp [hend, hstart] at hcount ⊢ <;> omega

/-- After the end of an episode nothing is logged before the next one starts. -/
theorem phase_after_end {b b' : Bool} {before after : List α} {a : α} (hend : ends a = true)
    (hstart : starts a = false) (h : phase starts ends b (before ++ a :: after) = some b') :
    ∀ next ∈ after.head?, starts next = true := by
  rw [phase_append] at h
  obtain ⟨mid, -, hrest⟩ := Option.bind_eq_some_iff.mp h
  cases mid with
  | false => simp [phase, hstart] at hrest
  | true =>
      intro next hnext
      cases after with
      | nil => cases hnext
      | cons c after =>
          cases hnext
          by_contra hnot
          simp [phase, hstart, hend, hnot] at hrest

end

end FerriteSfu.Lib

import Mathlib.Data.List.Basic

/-!
A queue with many senders: what one of them sent stays in order, and a receiver
may take the next message of whichever sender it likes.
-/

namespace FerriteSfu.Lib

variable {κ α : Type*} [DecidableEq κ]

/-- The messages under way, each with its sender. -/
abbrev Mailbox (κ α : Type*) := List (κ × α)

namespace Mailbox

/-- What one sender has under way. -/
def sentBy (k : κ) (box : Mailbox κ α) : List α :=
  (box.filter fun entry => entry.1 = k).map (·.2)

def post (k : κ) (messages : List α) (box : Mailbox κ α) : Mailbox κ α :=
  box ++ messages.map fun message => (k, message)

/-- The box after the next message of a sender was taken out. -/
def take (k : κ) (box : Mailbox κ α) : Mailbox κ α := box.eraseP fun entry => entry.1 = k

theorem mem_sentBy {k : κ} {message : α} {box : Mailbox κ α} :
    message ∈ box.sentBy k ↔ (k, message) ∈ box := by
  simp [sentBy]

theorem sentBy_post (k k' : κ) (messages : List α) (box : Mailbox κ α) :
    (box.post k messages).sentBy k' =
      if k' = k then box.sentBy k ++ messages else box.sentBy k' := by
  have hsent : ((messages.map fun message => (k, message)).filter fun entry => entry.1 = k') =
      if k' = k then messages.map fun message => (k, message) else [] := by
    by_cases hk : k' = k
    · subst hk
      simp [List.filter_map, Function.comp_def]
    · simp [List.filter_map, Function.comp_def, hk, Ne.symm hk]
  rw [sentBy, post, List.filter_append, List.map_append, hsent]
  split
  · rename_i hk
    subst hk
    simp [sentBy, Function.comp_def]
  · simp [sentBy]

theorem sentBy_take (k k' : κ) (box : Mailbox κ α) :
    (box.take k).sentBy k' = if k' = k then (box.sentBy k).tail else box.sentBy k' := by
  induction box with
  | nil => simp [sentBy, take]
  | cons entry box ih =>
      obtain ⟨sender, message⟩ := entry
      by_cases hsender : sender = k
      · subst hsender
        by_cases hk : k' = sender
        · simp [sentBy, take, hk]
        · simp [sentBy, take, hk, Ne.symm hk]
      · have htake : take k ((sender, message) :: box) = (sender, message) :: take k box := by
          simp [take, hsender]
        rw [htake]
        by_cases hk : k' = k
        · subst hk
          simpa [sentBy, hsender] using ih
        · rw [if_neg hk] at ih ⊢
          simp only [sentBy] at ih ⊢
          by_cases hk' : sender = k' <;> simp [hk', ih]

end Mailbox

/-! ### A queue in motion -/

variable {taken : Prop} {l l' : List α}

/-- A queue before and after a step: its head is taken out, or it grows. -/
inductive Flows (taken : Prop) (l l' : List α) : Prop
  | grows (h : ¬taken) (hmore : l <+: l')
  | taken (h : taken) (a : α) (heq : l = a :: l')

theorem Flows.same (h : ¬taken) (heq : l' = l) : Flows taken l l' :=
  .grows h (heq ▸ List.prefix_refl l)

/-- What waits in the queue keeps its place until something is taken out, and is
then taken out itself or moves up. -/
theorem Flows.place {test : α → Bool} (h : Flows taken l l') (hany : l.any test = true) :
    (¬taken ∧ l'.any test = true ∧ l'.findIdx test = l.findIdx test) ∨
      taken ∧ ∃ a, l = a :: l' ∧ (test a = true ∨
        l'.any test = true ∧ l'.findIdx test < l.findIdx test) := by
  cases h with
  | grows h hmore =>
      obtain ⟨more, rfl⟩ := hmore
      refine .inl ⟨h, by rw [List.any_append, hany, Bool.true_or], ?_⟩
      rw [List.findIdx_append, if_pos (List.findIdx_lt_length.mpr (List.any_eq_true.mp hany))]
  | taken h a heq =>
      subst heq
      refine .inr ⟨h, a, rfl, ?_⟩
      cases hfirst : test a with
      | true => exact .inl rfl
      | false =>
          rw [List.any_cons, hfirst, Bool.false_or] at hany
          refine .inr ⟨hany, ?_⟩
          rw [List.findIdx_cons, hfirst]
          exact Nat.lt_succ_self _

end FerriteSfu.Lib

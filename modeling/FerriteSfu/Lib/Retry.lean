import Mathlib.Data.List.Basic
import Mathlib.Data.Nat.Notation

/-!
Delivery at least once: a sender that repeats what it sends until it is
confirmed, and a receiver that drops whatever carries a key it has seen.

Every attempt draws an outcome from an oracle. Retries end at the first
confirmation, so the attempts for one item are a block, and the receiver makes
one item of each block that reached it.
-/

namespace FerriteSfu.Lib

variable {α β ι κ : Type*}

/-! ### Attempts -/

/-- The outcomes of `budget` attempts at most, the first of which is the `n`-th
the oracle is asked about. The first confirmation is the last attempt. -/
def tries (confirmed : β → Bool) (oracle : ℕ → β) : ℕ → ℕ → List β
  | _, 0 => []
  | n, budget + 1 =>
      if confirmed (oracle n) then [oracle n]
      else oracle n :: tries confirmed oracle (n + 1) budget

variable {confirmed : β → Bool} {oracle : ℕ → β}

theorem tries_length_le (n budget : ℕ) : (tries confirmed oracle n budget).length ≤ budget := by
  induction budget generalizing n with
  | zero => exact Nat.le_refl _
  | succ budget ih =>
      rw [tries]
      split
      · simp
      · simpa using ih (n + 1)

theorem tries_ne_nil (n budget : ℕ) : tries confirmed oracle n (budget + 1) ≠ [] := by
  rw [tries]
  split <;> simp

/-- Each attempt has the outcome that the oracle gives it. -/
theorem eq_of_tries_getElem? {n budget k : ℕ} {outcome : β}
    (h : (tries confirmed oracle n budget)[k]? = some outcome) : outcome = oracle (n + k) := by
  induction budget generalizing n k with
  | zero => simp [tries] at h
  | succ budget ih =>
      rw [tries] at h
      cases k with
      | zero => split at h <;> exact (Option.some.inj h).symm
      | succ k =>
          split at h
          · simp at h
          · rw [ih h, Nat.add_right_comm, Nat.add_assoc]

/-- No attempt follows a confirmed one. -/
theorem tries_stop {n budget : ℕ} {before after : List β} {outcome : β}
    (h : tries confirmed oracle n budget = before ++ outcome :: after)
    (hconfirmed : confirmed outcome = true) : after = [] := by
  induction budget generalizing n before with
  | zero => simp [tries] at h
  | succ budget ih =>
      rw [tries] at h
      split at h
      · rename_i hfirst
        cases before with
        | nil =>
            rw [List.nil_append] at h
            exact (List.cons.inj h).2.symm
        | cons _ before => simp at h
      · rename_i hfirst
        cases before with
        | nil =>
            rw [List.nil_append] at h
            rw [(List.cons.inj h).1] at hfirst
            exact absurd hconfirmed hfirst
        | cons _ before => exact ih (List.cons.inj h).2

/-- Whoever gives up has used the whole budget. -/
theorem tries_exhaust {n budget : ℕ}
    (h : ∀ outcome ∈ tries confirmed oracle n budget, confirmed outcome = false) :
    (tries confirmed oracle n budget).length = budget := by
  induction budget generalizing n with
  | zero => rfl
  | succ budget ih =>
      rw [tries] at h ⊢
      split
      · rename_i hfirst
        rw [if_pos hfirst] at h
        rw [h _ (List.mem_singleton_self _)] at hfirst
        cases hfirst
      · rename_i hfirst
        rw [if_neg hfirst] at h
        rw [List.length_cons, ih fun outcome hmem => h outcome (List.mem_cons_of_mem _ hmem)]

theorem mem_tries {n budget : ℕ} {outcome : β} (h : outcome ∈ tries confirmed oracle n budget) :
    ∃ k < budget, outcome = oracle (n + k) := by
  induction budget generalizing n with
  | zero => cases h
  | succ budget ih =>
      have hmem : outcome = oracle n ∨ outcome ∈ tries confirmed oracle (n + 1) budget := by
        rw [tries] at h
        split at h
        · exact .inl (List.mem_singleton.mp h)
        · exact List.mem_cons.mp h
      rcases hmem with rfl | hmem
      · exact ⟨0, Nat.succ_pos _, rfl⟩
      · obtain ⟨k, hk, rfl⟩ := ih hmem
        exact ⟨k + 1, Nat.succ_lt_succ hk, by rw [Nat.add_assoc, Nat.add_comm 1]⟩

/-- What one of the attempts brings, the attempts bring, if none is spared that
could have brought it. -/
theorem exists_tries {test : β → Bool} (htest : ∀ outcome, confirmed outcome = true →
    test outcome = true) {n budget : ℕ} (h : ∃ k < budget, test (oracle (n + k)) = true) :
    ∃ outcome ∈ tries confirmed oracle n budget, test outcome = true := by
  induction budget generalizing n with
  | zero =>
      obtain ⟨k, hk, -⟩ := h
      exact absurd hk (Nat.not_lt_zero k)
  | succ budget ih =>
      rw [tries]
      split
      · rename_i hfirst
        exact ⟨_, List.mem_singleton_self _, htest _ hfirst⟩
      · obtain ⟨k, hk, hreaches⟩ := h
        cases k with
        | zero => exact ⟨_, List.mem_cons_self .., hreaches⟩
        | succ k =>
            obtain ⟨outcome, hmem, houtcome⟩ :=
              ih (n := n + 1) ⟨k, Nat.lt_of_succ_lt_succ hk, by
                rwa [Nat.add_assoc, Nat.add_comm 1]⟩
            exact ⟨outcome, List.mem_cons_of_mem _ hmem, houtcome⟩

/-! ### First occurrences -/

section

variable [DecidableEq κ] (key : α → κ)

/-- What is left when everything is dropped that carries the key of something
before it. -/
def firsts (l : List α) : List α := l.eraseDupsBy fun a b => decide (key a = key b)

@[simp] theorem firsts_nil : firsts key [] = [] := rfl

theorem firsts_cons (a : α) (l : List α) :
    firsts key (a :: l) = a :: firsts key (l.filter fun b => decide (key b ≠ key a)) := by
  rw [firsts, List.eraseDupsBy_cons, firsts]
  congr 2
  exact List.filter_congr fun b _ => by simp

/-- Induction along the items that are kept. -/
theorem firsts_induction {P : List α → Prop} (nil : P [])
    (cons : ∀ a l, P (l.filter fun b => decide (key b ≠ key a)) → P (a :: l)) (l : List α) :
    P l := by
  induction hn : l.length using Nat.strongRecOn generalizing l with
  | ind n ih =>
      cases l with
      | nil => exact nil
      | cons a l =>
          refine cons a l (ih _ ?_ _ rfl)
          rw [← hn, List.length_cons]
          exact Nat.lt_succ_of_le (List.length_filter_le _ _)

theorem firsts_subset (l : List α) : firsts key l ⊆ l := by
  refine firsts_induction key (P := fun l => firsts key l ⊆ l) (List.Subset.refl []) ?_ l
  intro a l ih b hb
  rw [firsts_cons] at hb
  rcases List.mem_cons.mp hb with rfl | hb
  · exact List.mem_cons_self ..
  · exact List.mem_cons_of_mem _ (List.mem_of_mem_filter (ih hb))

/-- Something of its key is kept of whatever comes. -/
theorem exists_mem_firsts {l : List α} {b : α} (hb : b ∈ l) :
    ∃ a ∈ firsts key l, key a = key b := by
  refine firsts_induction key (P := fun l => b ∈ l → ∃ a ∈ firsts key l, key a = key b)
    (fun h => by cases h) ?_ l hb
  intro a l ih hb
  rw [firsts_cons]
  by_cases hkey : key b = key a
  · exact ⟨a, List.mem_cons_self .., hkey.symm⟩
  · have hlater : b ∈ l := (List.mem_cons.mp hb).resolve_left fun he => hkey (by rw [he])
    obtain ⟨c, hc, heq⟩ := ih (List.mem_filter.mpr ⟨hlater, decide_eq_true hkey⟩)
    exact ⟨c, List.mem_cons_of_mem _ hc, heq⟩

/-- What comes later adds what has not come before. -/
theorem firsts_append (l l' : List α) :
    firsts key (l ++ l') =
      firsts key l ++ firsts key (l'.filter fun b => decide (key b ∉ l.map key)) := by
  refine firsts_induction key (P := fun l => ∀ l', firsts key (l ++ l') =
    firsts key l ++ firsts key (l'.filter fun b => decide (key b ∉ l.map key))) ?_ ?_ l l'
  · simp
  · intro a l ih l'
    rw [List.cons_append, firsts_cons, firsts_cons, List.filter_append, ih, List.filter_filter,
      List.cons_append]
    congr 3
    refine List.filter_congr fun b _ => ?_
    rw [Bool.eq_iff_iff]
    simp only [Bool.and_eq_true, decide_eq_true_eq, List.mem_map, List.mem_filter, List.mem_cons]
    constructor
    · rintro ⟨hnot, hfirst⟩ ⟨c, rfl | hc, heq⟩
      · exact hfirst heq.symm
      · exact hnot ⟨c, ⟨hc, heq ▸ hfirst⟩, heq⟩
    · exact fun hnone => ⟨fun ⟨c, hc, heq⟩ => hnone ⟨c, .inr hc.1, heq⟩,
        fun heq => hnone ⟨a, .inl rfl, heq.symm⟩⟩

/-- Only more is kept as more comes. -/
theorem firsts_mono {l l' : List α} (h : l <+: l') : firsts key l <+: firsts key l' := by
  obtain ⟨more, rfl⟩ := h
  rw [firsts_append]
  exact List.prefix_append _ _

/-- Items of other keys do not mind what was before. -/
theorem firsts_append_of_new {l l' : List α} (h : ∀ b ∈ l', key b ∉ l.map key) :
    firsts key (l ++ l') = firsts key l ++ firsts key l' := by
  have hall : (l'.filter fun b => decide (key b ∉ l.map key)) = l' :=
    List.filter_eq_self.mpr fun b hb => decide_eq_true (h b hb)
  rw [firsts_append, hall]

/-- Of items sent in blocks of copies, one copy of each is left, in the order in
which they were sent. -/
theorem firsts_flatMap {f : ι → List α} {g : ι → α} {items : List ι}
    (hcopies : ∀ item ∈ items, ∀ a ∈ f item, a = g item)
    (hkeys : (items.map fun item => key (g item)).Nodup) :
    firsts key (items.flatMap f) = (items.filter fun item => !(f item).isEmpty).map g := by
  induction items with
  | nil => rfl
  | cons item items ih =>
      obtain ⟨hnot, hkeys⟩ := List.nodup_cons.mp hkeys
      have hrest := ih (fun other hother => hcopies other (List.mem_cons_of_mem _ hother)) hkeys
      have hitem := hcopies item (List.mem_cons_self ..)
      rw [List.flatMap_cons]
      cases hf : f item with
      | nil => simpa [hf] using hrest
      | cons a copies =>
          rw [hf] at hitem
          -- The other copies carry the key of the first, the later items do not.
          have hdropped : (copies.filter fun b => decide (key b ≠ key (g item))) = [] :=
            List.filter_eq_nil_iff.mpr fun b hb => by
              simp [hitem b (List.mem_cons_of_mem _ hb)]
          have hkept : ((items.flatMap f).filter fun b => decide (key b ≠ key (g item))) =
              items.flatMap f := by
            refine List.filter_eq_self.mpr fun b hb => ?_
            obtain ⟨other, hother, hb⟩ := List.mem_flatMap.mp hb
            rw [hcopies other (List.mem_cons_of_mem _ hother) b hb, decide_eq_true_eq]
            exact fun he => hnot (List.mem_map.mpr ⟨other, hother, he⟩)
          have hfirst := hitem a (List.mem_cons_self ..)
          rw [hfirst, List.cons_append, firsts_cons, List.filter_append, hdropped, hkept,
            List.nil_append, hrest]
          simp [hf]

end

end FerriteSfu.Lib

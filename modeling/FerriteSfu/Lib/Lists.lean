import Mathlib.Data.List.Nodup
import Mathlib.Data.List.Forall2

/-!
Lists whose elements are updated in place: the update of the first element that
passes a test, and what follows when the elements of two lists are related one
by one.
-/

namespace List

variable {α β γ : Type*}

theorem Forall₂.exists_left {R : α → β → Prop} {l : List α} {l' : List β}
    (h : Forall₂ R l l') {b : β} (hb : b ∈ l') : ∃ a ∈ l, R a b := by
  induction h with
  | nil => simp at hb
  | cons hab _ ih =>
      rcases mem_cons.mp hb with rfl | hb
      · exact ⟨_, by simp, hab⟩
      · obtain ⟨a, ha, hr⟩ := ih hb
        exact ⟨a, by simp [ha], hr⟩

theorem Forall₂.exists_right {R : α → β → Prop} {l : List α} {l' : List β}
    (h : Forall₂ R l l') {a : α} (ha : a ∈ l) : ∃ b ∈ l', R a b := by
  induction h with
  | nil => simp at ha
  | cons hab _ ih =>
      rcases mem_cons.mp ha with rfl | ha
      · exact ⟨_, by simp, hab⟩
      · obtain ⟨b, hb, hr⟩ := ih ha
        exact ⟨b, by simp [hb], hr⟩

theorem Forall₂.map_eq {R : α → β → Prop} {f : α → γ} {g : β → γ} {l : List α} {l' : List β}
    (h : Forall₂ R l l') (hfg : ∀ a b, R a b → g b = f a) : l'.map g = l.map f := by
  induction h with
  | nil => rfl
  | cons hab _ ih => simp [hfg _ _ hab, ih]

/-- Lists that each grow by so much grow by so much together. -/
theorem Forall₂.length_flatMap {f : α → List γ} {g : β → List γ} {more : α → List γ} {l : List α}
    {l' : List β} (h : Forall₂ (fun a b => (g b).length = (f a).length + (more a).length) l l') :
    (l'.flatMap g).length = (l.flatMap f).length + (l.flatMap more).length := by
  induction h with
  | nil => rfl
  | cons hab _ ih =>
      simp only [flatMap_cons, length_append, hab, ih]
      omega

def updateFirst (p : α → Bool) (f : α → α) : List α → List α
  | [] => []
  | a :: l => if p a then f a :: l else a :: updateFirst p f l

@[simp] theorem updateFirst_nil (p : α → Bool) (f : α → α) :
    updateFirst p f [] = [] := rfl

theorem updateFirst_of_forall_not {p : α → Bool} {f : α → α} {l : List α}
    (h : ∀ a ∈ l, p a = false) : l.updateFirst p f = l := by
  induction l with
  | nil => rfl
  | cons a l ih =>
      simp only [updateFirst, h a (by simp), Bool.false_eq_true, if_false]
      rw [ih fun b hb => h b (by simp [hb])]

theorem filterMap_cons_toList (f : α → Option β) (a : α) (l : List α) :
    (a :: l).filterMap f = (f a).toList ++ l.filterMap f := by
  rw [filterMap_cons]
  cases f a <;> rfl

/-- A search only looks at the elements of the list. -/
theorem find?_congr_of_mem {p q : α → Bool} {l : List α} (h : ∀ a ∈ l, p a = q a) :
    l.find? p = l.find? q := by
  induction l with
  | nil => rfl
  | cons a l ih =>
      rw [find?_cons, find?_cons, h a (by simp), ih fun b hb => h b (by simp [hb])]

/-- A search among the occurrences of one element. -/
theorem find?_filter_eq [DecidableEq α] (p : α → Bool) (a : α) (l : List α) :
    (l.filter fun b => b = a).find? p = if a ∈ l ∧ p a = true then some a else none := by
  induction l with
  | nil => simp
  | cons b l ih =>
      by_cases hb : b = a
      · subst hb
        cases hp : p b <;> simp_all
      · simp [hb, Ne.symm hb, ih]

/-- Anything the update keeps is kept by the whole list. -/
theorem map_updateFirst {g : α → β} {p : α → Bool} {f : α → α} {l : List α}
    (h : ∀ a ∈ l, p a → g (f a) = g a) : (l.updateFirst p f).map g = l.map g := by
  induction l with
  | nil => rfl
  | cons a l ih =>
      simp only [updateFirst]
      split
      · rename_i hp
        simp [h a (by simp) hp]
      · simp [ih fun b hb => h b (by simp [hb])]

/-- Updating the image of a list is updating the list, where the updates agree. -/
theorem updateFirst_map {g : α → β} {p : α → Bool} {q : β → Bool} {f : α → α} {f' : β → β}
    (hp : ∀ a, q (g a) = p a) (hf : ∀ a, f' (g a) = g (f a)) (l : List α) :
    (l.map g).updateFirst q f' = (l.updateFirst p f).map g := by
  induction l with
  | nil => rfl
  | cons a l ih =>
      simp only [map_cons, updateFirst, hp, hf]
      split
      · rfl
      · rw [ih, map_cons]

/-- The element that is updated is the one a search finds. -/
theorem find?_updateFirst_self {p : α → Bool} {f : α → α} {l : List α}
    (h : ∀ a ∈ l, p a → p (f a)) : (l.updateFirst p f).find? p = (l.find? p).map f := by
  induction l with
  | nil => rfl
  | cons a l ih =>
      simp only [updateFirst, find?_cons]
      cases hp : p a with
      | true => simp [h a (by simp) hp]
      | false => simpa [hp] using ih fun b hb => h b (by simp [hb])

/-- A search for other elements does not see the update. -/
theorem find?_updateFirst_other {p q : α → Bool} {f : α → α} {l : List α}
    (h : ∀ a ∈ l, p a → q a = false ∧ q (f a) = false) :
    (l.updateFirst p f).find? q = l.find? q := by
  induction l with
  | nil => rfl
  | cons a l ih =>
      simp only [updateFirst]
      split
      · rename_i hp
        obtain ⟨hq, hqf⟩ := h a (by simp) hp
        simp [hq, hqf]
      · simp only [find?_cons, ih fun b hb => h b (by simp [hb])]

/-- Every element is either as before or the update of one that passed the test. -/
theorem forall₂_updateFirst {R : α → α → Prop} {p : α → Bool} {f : α → α} {l : List α}
    (hrefl : ∀ a ∈ l, R a a) (hf : ∀ a ∈ l, p a → R a (f a)) :
    Forall₂ R l (l.updateFirst p f) := by
  induction l with
  | nil => exact .nil
  | cons a l ih =>
      simp only [updateFirst]
      split
      · rename_i hp
        refine .cons (hf a (by simp) hp) ?_
        exact forall₂_same.mpr fun b hb => hrefl b (by simp [hb])
      · exact .cons (hrefl a (by simp))
          (ih (fun b hb => hrefl b (by simp [hb])) fun b hb => hf b (by simp [hb]))

/-- With distinct keys, updating the first element with a key is updating the
element with that key. -/
theorem updateFirst_eq_map [DecidableEq β] {g : α → β} {f : α → α} {l : List α}
    (hl : (l.map g).Nodup) (k : β) :
    l.updateFirst (fun a => g a = k) f = l.map fun a => if g a = k then f a else a := by
  induction l with
  | nil => rfl
  | cons a l ih =>
      obtain ⟨hnot, hl⟩ := nodup_cons.mp hl
      simp only [updateFirst, decide_eq_true_eq, map_cons]
      split
      · rename_i hk
        subst hk
        have hrest : ∀ b ∈ l, (if g b = g a then f b else b) = b := by
          intro b hb
          exact if_neg fun he : g b = g a => hnot (he ▸ mem_map_of_mem hb)
        rw [map_congr_left hrest, map_id']
      · rw [ih hl]

/-! ### Lists with distinct keys -/

theorem eraseP_eq_filter [DecidableEq β] {g : α → β} {l : List α} (hl : (l.map g).Nodup)
    (k : β) : (l.eraseP fun a => g a = k) = l.filter fun a => g a ≠ k := by
  induction l with
  | nil => rfl
  | cons a l ih =>
      obtain ⟨hnot, hl⟩ := nodup_cons.mp hl
      by_cases hk : g a = k
      · subst hk
        have hrest : ∀ b ∈ l, decide (g b ≠ g a) = true :=
          fun b hb => by simpa using fun he : g b = g a => hnot (he ▸ mem_map_of_mem hb)
        rw [eraseP_cons_of_pos (by simp), filter_cons_of_neg (by simp),
          filter_eq_self.mpr hrest]
      · rw [eraseP_cons_of_neg (by simpa using hk), filter_cons_of_pos (by simpa using hk),
          ih hl]

theorem eq_of_map_eq {g : α → β} {l : List α} (hl : (l.map g).Nodup) {a b : α} (ha : a ∈ l)
    (hb : b ∈ l) (h : g a = g b) : a = b :=
  inj_on_of_nodup_map hl ha hb h

/-- Removing by key the elements that pass a test. -/
theorem filter_key_notMem [DecidableEq β] {g : α → β} {l : List α} (hl : (l.map g).Nodup)
    (q : α → Bool) :
    (l.filter fun a => g a ∉ (l.filter q).map g) = l.filter fun a => !q a := by
  refine filter_congr fun a ha => ?_
  have hiff : g a ∈ (l.filter q).map g ↔ q a = true := by
    constructor
    · intro h
      obtain ⟨b, hb, hba⟩ := mem_map.mp h
      obtain ⟨hbl, hq⟩ := mem_filter.mp hb
      rwa [← eq_of_map_eq hl hbl ha hba]
    · intro h
      exact mem_map_of_mem (mem_filter.mpr ⟨ha, h⟩)
  simp [hiff]

/-- Keys that are met in the order of the list can be filtered for one by one. -/
theorem filter_key_mem_cons [DecidableEq β] {g : α → β} {l : List α} (hl : (l.map g).Nodup)
    {k : β} {ks : List β} (hsub : (k :: ks).Sublist (l.map g)) :
    (l.filter fun a => g a ∈ k :: ks) =
      (l.filter fun a => g a = k) ++ l.filter fun a => g a ∈ ks := by
  induction l with
  | nil => simp at hsub
  | cons a l ih =>
      obtain ⟨hnot, htail⟩ := nodup_cons.mp hl
      by_cases hk : g a = k
      · subst hk
        have hks : g a ∉ ks := (nodup_cons.mp (hsub.nodup hl)).1
        have hne : ∀ b ∈ l, g b ≠ g a := fun b hb he => hnot (he ▸ mem_map_of_mem hb)
        have hnone : (l.filter fun b => g b = g a) = [] :=
          filter_eq_nil_iff.mpr fun b hb => by simpa using hne b hb
        have hsame : (l.filter fun b => g b ∈ g a :: ks) = l.filter fun b => g b ∈ ks :=
          filter_congr fun b hb => by simp [hne b hb]
        rw [filter_cons_of_pos (by simp), filter_cons_of_pos (by simp),
          filter_cons_of_neg (by simpa using hks), hnone, hsame]
        rfl
      · have hsub' : (k :: ks).Sublist (l.map g) := by
          rcases sublist_cons_iff.mp hsub with hsub | ⟨_, heq, _⟩
          · exact hsub
          · exact absurd (cons.inj heq).1.symm hk
        have hout : g a ∉ k :: ks := fun h => hnot (hsub'.subset h)
        have hks : g a ∉ ks := fun h => hout (mem_cons_of_mem k h)
        rw [filter_cons_of_neg (by simpa using hout), filter_cons_of_neg (by simpa using hk),
          filter_cons_of_neg (by simpa using hks), ih htail hsub']

theorem filter_key_eq_singleton [DecidableEq β] {g : α → β} {l : List α} (hl : (l.map g).Nodup)
    {k : β} {a : α} (ha : a ∈ l) (hk : g a = k) : (l.filter fun b => g b = k) = [a] := by
  induction l with
  | nil => simp at ha
  | cons b l ih =>
      obtain ⟨hnot, hl⟩ := nodup_cons.mp hl
      rcases mem_cons.mp ha with rfl | ha
      · have hne : ∀ b ∈ l, ¬decide (g b = k) = true :=
          fun b hb he => hnot (hk ▸ of_decide_eq_true he ▸ mem_map_of_mem hb)
        rw [filter_cons_of_pos (by simpa using hk), filter_eq_nil_iff.mpr hne]
      · have hne : g b ≠ k := fun he => hnot (he ▸ hk ▸ mem_map_of_mem ha)
        rw [filter_cons_of_neg (by simpa using hne), ih hl ha]

/-- What the elements of a list contribute can be told apart by key. -/
theorem filter_flatMap_key [DecidableEq β] {g : α → β} {f : α → List γ} {key : γ → β} {l : List α}
    (hl : (l.map g).Nodup) (hkey : ∀ a ∈ l, ∀ c ∈ f a, key c = g a) {a : α} (ha : a ∈ l) :
    ((l.flatMap f).filter fun c => key c = g a) = f a := by
  induction l with
  | nil => simp at ha
  | cons b l ih =>
      obtain ⟨hnot, hl⟩ := nodup_cons.mp hl
      have hne : ∀ b' ∈ l, g b' ≠ g b := fun b' hb' he => hnot (he ▸ mem_map_of_mem hb')
      rw [flatMap_cons, filter_append]
      rcases mem_cons.mp ha with rfl | ha
      · have hown : ((f a).filter fun c => key c = g a) = f a :=
          filter_eq_self.mpr fun c hc => by simpa using hkey a (by simp) c hc
        have hrest : ((l.flatMap f).filter fun c => key c = g a) = [] := by
          refine filter_eq_nil_iff.mpr fun c hc => ?_
          obtain ⟨b', hb', hcb⟩ := mem_flatMap.mp hc
          simpa [hkey b' (by simp [hb']) c hcb] using hne b' hb'
        rw [hown, hrest, append_nil]
      · have hfirst : ((f b).filter fun c => key c = g a) = [] :=
          filter_eq_nil_iff.mpr fun c hc => by
            simpa [hkey b (by simp) c hc] using (hne a ha).symm
        rw [hfirst, nil_append, ih hl (fun b' hb' => hkey b' (by simp [hb'])) ha]

theorem find?_key_eq_some [DecidableEq β] {g : α → β} {l : List α} (hl : (l.map g).Nodup)
    {k : β} {a : α} : l.find? (fun a => g a = k) = some a ↔ a ∈ l ∧ g a = k := by
  constructor
  · intro h
    exact ⟨mem_of_find?_eq_some h, by simpa using find?_some h⟩
  · rintro ⟨ha, hk⟩
    cases hfind : l.find? (fun a => g a = k) with
    | none => exact absurd hk (by simpa using find?_eq_none.mp hfind a ha)
    | some b =>
        have hb : g b = k := by simpa using find?_some hfind
        rw [eq_of_map_eq hl (mem_of_find?_eq_some hfind) ha (hb.trans hk.symm)]

/-- Lists that agree key by key have the same elements. -/
theorem perm_of_filter_key [DecidableEq α] [DecidableEq β] {g : α → β} {l l' : List α}
    (h : ∀ k, (l.filter fun a => g a = k) = l'.filter fun a => g a = k) : l.Perm l' := by
  refine perm_iff_count.mpr fun a => ?_
  have hcount : ∀ l : List α, (l.filter fun b => g b = g a).count a = l.count a :=
    fun l => count_filter (by simp)
  rw [← hcount l, h, hcount]

end List

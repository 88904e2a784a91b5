import Mathlib.Data.List.AList

/-!
A hash map is an association list without duplicate keys. Mathlib's `AList`
has lookup, insertion and removal; what a program that also updates values in
place needs on top is `modify`, and its effect on a lookup when it runs over a
list of keys.
-/

namespace AList

variable {κ ν : Type*} [DecidableEq κ]

theorem lookup_insert_eq_ite (k k' : κ) (v : ν) (m : AList fun _ : κ => ν) :
    (m.insert k v).lookup k' = if k' = k then some v else m.lookup k' := by
  by_cases h : k' = k
  · subst h
    simp [lookup_insert]
  · simp [h, lookup_insert_ne h]

theorem lookup_erase_eq_ite (k k' : κ) (m : AList fun _ : κ => ν) :
    (m.erase k).lookup k' = if k' = k then none else m.lookup k' := by
  by_cases h : k' = k
  · subst h
    simp [lookup_erase]
  · simp [h, lookup_erase_ne h]

/-- Replaces the value of a key that is present, as a mutable borrow does. -/
def modify (k : κ) (f : ν → ν) (m : AList fun _ : κ => ν) : AList fun _ : κ => ν :=
  match m.lookup k with
  | none => m
  | some v => m.insert k (f v)

theorem lookup_modify (k k' : κ) (f : ν → ν) (m : AList fun _ : κ => ν) :
    (m.modify k f).lookup k' = if k' = k then (m.lookup k').map f else m.lookup k' := by
  unfold modify
  split
  · rename_i hnone
    by_cases h : k' = k
    · subst h
      simp [hnone]
    · simp [h]
  · rename_i v hsome
    rw [lookup_insert_eq_ite]
    by_cases h : k' = k
    · subst h
      simp [hsome]
    · simp [h]

/-- Updating each key of a list once is updating the keys that occur in it. -/
theorem lookup_foldl_modify (f : ν → ν) (ks : List κ) (hks : ks.Nodup) (k : κ)
    (m : AList fun _ : κ => ν) :
    (ks.foldl (fun m k => m.modify k f) m).lookup k =
      if k ∈ ks then (m.lookup k).map f else m.lookup k := by
  induction ks generalizing m with
  | nil => simp
  | cons k₀ ks ih =>
      have hnot : k₀ ∉ ks := (List.nodup_cons.mp hks).1
      simp only [List.foldl_cons]
      rw [ih (List.nodup_cons.mp hks).2, lookup_modify]
      by_cases h : k = k₀
      · subst h
        simp [hnot]
      · simp [h]

/-- Removing the keys of a list one after the other. -/
theorem lookup_foldl_erase (ks : List κ) (k : κ) (m : AList fun _ : κ => ν) :
    (ks.foldl (fun m k => m.erase k) m).lookup k = if k ∈ ks then none else m.lookup k := by
  induction ks generalizing m with
  | nil => simp
  | cons k₀ ks ih =>
      simp only [List.foldl_cons]
      rw [ih, lookup_erase_eq_ite]
      by_cases h : k = k₀ <;> by_cases h' : k ∈ ks <;> simp [h, h']

end AList

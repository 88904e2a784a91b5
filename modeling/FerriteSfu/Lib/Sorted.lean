import Mathlib.Data.List.Sort
import Mathlib.Data.List.Perm.Basic

/-!
Sorting as a normal form: what a sorted list forgets is the order it came in.
-/

namespace List

variable {α β : Type*} {r : α → α → Prop} {s : β → β → Prop} [DecidableRel s]

theorem insertionSort_map_inj [Std.Antisymm r] {f : α → β} (hf : Function.Injective f)
    {l l' : List α} (hl : l.Pairwise r) (hl' : l'.Pairwise r) :
    (l.map f).insertionSort s = (l'.map f).insertionSort s ↔ l = l' := by
  constructor
  · intro h
    have hmap : (l.map f).Perm (l'.map f) :=
      (perm_insertionSort s _).symm.trans (h ▸ perm_insertionSort s _)
    exact Perm.eq_of_pairwise' hl hl' ((map_perm_map_iff hf).mp hmap)
  · rintro rfl
    rfl

variable [DecidableRel r] [Std.Total s] [IsTrans β s] [Std.Antisymm s]

theorem Perm.insertionSort_eq {l l' : List β} (h : l.Perm l') :
    l.insertionSort s = l'.insertionSort s :=
  Perm.eq_of_pairwise' (pairwise_insertionSort s l) (pairwise_insertionSort s l')
    ((perm_insertionSort s l).trans (h.trans (perm_insertionSort s l').symm))

theorem filter_insertionSort (p : β → Bool) (l : List β) :
    (l.insertionSort s).filter p = (l.filter p).insertionSort s :=
  Perm.eq_of_pairwise' ((pairwise_insertionSort s l).filter p) (pairwise_insertionSort s _)
    (((perm_insertionSort s l).filter p).trans (perm_insertionSort s _).symm)

/-- Sorting before a map is lost on sorting after it. -/
theorem insertionSort_map_insertionSort (f : α → β) (l : List α) :
    ((l.insertionSort r).map f).insertionSort s = (l.map f).insertionSort s :=
  ((perm_insertionSort r l).map f).insertionSort_eq

end List

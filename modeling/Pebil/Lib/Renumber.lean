import Mathlib.Data.List.InsertIdx
import Mathlib.Data.List.Nodup
import Mathlib.Logic.Equiv.Basic

/-!
# Moving the entries of a table

A table is a list of different entries, and a reference into it is a position.
`Renumbers φ l l'` says that every entry of `l` at a position `i` is in `l'` at `φ i`. A
reference keeps its entry exactly if it is renumbered by `φ`
(`Renumbers.designates_iff`); inserting an entry and swapping two are such moves.
-/

namespace Pebil

universe u

variable {α : Type u} {φ ψ : Nat → Nat} {l l' l'' : List α} {i j : Nat} {a : α}

/-- The entries of `l` are in `l'` where `φ` says. -/
def Renumbers (φ : Nat → Nat) (l l' : List α) : Prop :=
  ∀ i a, l[i]? = some a → l'[φ i]? = some a

namespace Renumbers

theorem trans (h : Renumbers φ l l') (h' : Renumbers ψ l' l'') :
    Renumbers (fun i => ψ (φ i)) l l'' := fun i a hi => h' _ a (h i a hi)

theorem map {β : Type u} (f : α → β) (h : Renumbers φ l l') : Renumbers φ (l.map f) (l'.map f) := by
  intro i b hi
  rw [List.getElem?_map, Option.map_eq_some_iff] at hi ⊢
  obtain ⟨a, ha, rfl⟩ := hi
  exact ⟨a, h i a ha, rfl⟩

theorem lt (h : Renumbers φ l l') (hi : i < l.length) : φ i < l'.length :=
  (List.getElem?_eq_some_iff.mp (h i _ (List.getElem?_eq_getElem hi))).1

/-- A reference keeps its entry exactly if it is renumbered. -/
theorem designates_iff (h : Renumbers φ l l') (hn : l'.Nodup) (hi : i < l.length) :
    l'[j]? = l[i]? ↔ j = φ i := by
  have hget := List.getElem?_eq_getElem hi
  have hmoved := h i _ hget
  constructor
  · intro hj
    rw [hget] at hj
    obtain ⟨hj', heq⟩ := List.getElem?_eq_some_iff.mp hj
    obtain ⟨hφ, heq'⟩ := List.getElem?_eq_some_iff.mp hmoved
    exact (hn.getElem_inj_iff).mp (heq.trans heq'.symm)
  · rintro rfl
    rw [hmoved, hget]

end Renumbers

/-- Where the entries go when one is inserted at `idx`. -/
def insertShift (idx i : Nat) : Nat := if i < idx then i else i + 1

theorem renumbers_insertIdx (l : List α) (idx : Nat) (a : α) :
    Renumbers (insertShift idx) l (l.insertIdx idx a) := by
  intro i b hi
  rw [insertShift]
  by_cases hlt : i < idx
  · rw [if_pos hlt, List.getElem?_insertIdx_of_lt hlt, hi]
  · rw [if_neg hlt, List.getElem?_insertIdx_of_gt (by omega), Nat.add_sub_cancel, hi]

/-- Writing an entry that looks the same changes nothing that is seen. -/
theorem map_set_of_eq {β : Type u} {f : α → β} {b : α} (hi : l[i]? = some a) (hb : f b = f a) :
    (l.set i b).map f = l.map f := by
  obtain ⟨hlt, rfl⟩ := List.getElem?_eq_some_iff.mp hi
  rw [List.map_set, hb]
  refine List.ext_getElem (by simp) fun k _ _ => ?_
  rw [List.getElem_set]
  split
  · rename_i hik
    subst hik
    exact (List.getElem_map ..).symm
  · rfl

/-- Exchange two entries; a position outside the table leaves it alone. -/
def swapAt (l : List α) (i j : Nat) : List α :=
  match l[i]?, l[j]? with
  | some a, some b => (l.set i b).set j a
  | _, _ => l

theorem swapAt_eq {b : α} (hi : l[i]? = some a) (hj : l[j]? = some b) :
    swapAt l i j = (l.set i b).set j a := by
  rw [swapAt, hi, hj]

theorem length_swapAt (l : List α) (i j : Nat) : (swapAt l i j).length = l.length := by
  rw [swapAt]
  split
  · rw [List.length_set, List.length_set]
  · rfl

theorem renumbers_swapAt (hi : i < l.length) (hj : j < l.length) :
    Renumbers (Equiv.swap i j) l (swapAt l i j) := by
  intro k c hk
  have hgi := List.getElem?_eq_getElem hi
  have hgj := List.getElem?_eq_getElem hj
  rw [swapAt_eq hgi hgj]
  by_cases hki : k = i
  · subst hki
    rw [Equiv.swap_apply_left, List.getElem?_set_self (by rwa [List.length_set]), ← hgi, hk]
  · by_cases hkj : k = j
    · subst hkj
      rw [Equiv.swap_apply_right, List.getElem?_set_ne hki, List.getElem?_set_self hi, ← hgj, hk]
    · rw [Equiv.swap_apply_of_ne_of_ne hki hkj, List.getElem?_set_ne (Ne.symm hkj),
        List.getElem?_set_ne (Ne.symm hki), hk]

/-- A swap only reorders. -/
theorem swapAt_perm (hi : i < l.length) (hj : j < l.length) : (swapAt l i j).Perm l := by
  have hgi := List.getElem?_eq_getElem hi
  have hgj := List.getElem?_eq_getElem hj
  rw [swapAt_eq hgi hgj]
  exact List.set_set_perm hi hj

theorem map_swapAt {β : Type u} (f : α → β) (l : List α) (i j : Nat) :
    (swapAt l i j).map f = swapAt (l.map f) i j := by
  rw [swapAt, swapAt, List.getElem?_map, List.getElem?_map]
  cases hi : l[i]? <;> cases hj : l[j]? <;> simp [List.map_set]

end Pebil

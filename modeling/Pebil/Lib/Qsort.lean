import Mathlib.Data.List.Sort

/-!
# The sort of the C library

`qsort` promises a sorted array only for a comparison that is consistent on the elements of
the array: one that never answers both ways round and that is transitive (`Consistent`). Of
elements that compare equal it may put either first, and so a sort is anything that keeps this
promise (`Qsort`). A comparison that follows the order of a key is consistent
(`Follows.consistent`), and its sort is one by the key (`Qsort.pairwise_key`). Whatever the
comparison, it may leave an element in front of another one that it does not compare greater
than (`Qsort.exists_sublist`).
-/

namespace Pebil

open scoped List

variable {α : Type*}

/-- The comparison `cmp` is consistent on the elements of `l`. -/
structure Consistent (cmp : α → α → Int) (l : List α) : Prop where
  total : ∀ a ∈ l, ∀ b ∈ l, cmp a b ≤ 0 ∨ cmp b a ≤ 0
  trans : ∀ a ∈ l, ∀ b ∈ l, ∀ c ∈ l, cmp a b ≤ 0 → cmp b c ≤ 0 → cmp a c ≤ 0

/-- `qsort` with the comparison `cmp`. -/
structure Qsort (cmp : α → α → Int) where
  sort : List α → List α
  perm : ∀ l, (sort l).Perm l
  sorted : ∀ l, Consistent cmp l → (sort l).Pairwise fun a b => cmp a b ≤ 0

/-- Insertion keeps the promise of `qsort`. -/
def insertionQsort (cmp : α → α → Int) : Qsort cmp where
  sort := List.insertionSort fun a b => cmp a b ≤ 0
  perm := List.perm_insertionSort _
  sorted l hl := by
    -- on the elements of `l` the comparison is total and transitive
    let r : {a // a ∈ l} → {a // a ∈ l} → Prop := fun a b => cmp a.1 b.1 ≤ 0
    have : Std.Total r := ⟨fun a b => hl.total a.1 a.2 b.1 b.2⟩
    have : IsTrans {a // a ∈ l} r := ⟨fun a b c => hl.trans a.1 a.2 b.1 b.2 c.1 c.2⟩
    have hsorted : (l.attach.insertionSort r).Pairwise r := List.pairwise_insertionSort r _
    have hmap := List.map_insertionSort (r := r) (fun a b => cmp a b ≤ 0) Subtype.val l.attach
      fun _ _ _ _ => Iff.rfl
    rw [List.attach_map_subtype_val] at hmap
    rw [← hmap]
    exact hsorted.map _ fun _ _ h => h

/-- Some `qsort` puts `x` in front of `y` if `x` does not compare greater. -/
theorem Qsort.exists_sublist {cmp : α → α → Int} {l : List α} {x y : α} (hx : x ∈ l)
    (hy : y ∈ l) (hne : x ≠ y) (hle : cmp x y ≤ 0) : ∃ q : Qsort cmp, [x, y] <+ q.sort l := by
  classical
  -- insertion is stable, so that it is enough to start from `x`
  let rearranged : List α → List α := fun l' => if l' = l then x :: l.erase x else l'
  have hperm : ∀ l', rearranged l' ~ l' := fun l' => by
    by_cases hl' : l' = l
    · simpa [rearranged, hl'] using (List.perm_cons_erase hx).symm
    · simp [rearranged, hl']
  refine ⟨⟨fun l' => (insertionQsort cmp).sort (rearranged l'), fun l' => ?_, fun l' hl' => ?_⟩, ?_⟩
  · exact ((insertionQsort cmp).perm _).trans (hperm l')
  · refine (insertionQsort cmp).sorted _ ⟨fun a ha b hb => ?_, fun a ha b hb c hc => ?_⟩
    · exact hl'.total a ((hperm l').mem_iff.mp ha) b ((hperm l').mem_iff.mp hb)
    · exact hl'.trans a ((hperm l').mem_iff.mp ha) b ((hperm l').mem_iff.mp hb) c
        ((hperm l').mem_iff.mp hc)
  · refine List.pair_sublist_insertionSort hle ?_
    simpa [rearranged] using (List.mem_erase_of_ne hne.symm).mpr hy

section Key

variable {κ : Type*} [LinearOrder κ] {cmp : α → α → Int} {key : α → κ} {l : List α}

/-- On the elements of `l` the comparison has the sign of the order of their keys. -/
structure Follows (cmp : α → α → Int) (key : α → κ) (l : List α) : Prop where
  lt : ∀ a ∈ l, ∀ b ∈ l, key a < key b → cmp a b < 0
  gt : ∀ a ∈ l, ∀ b ∈ l, key a < key b → 0 < cmp b a
  eq : ∀ a ∈ l, ∀ b ∈ l, key a = key b → cmp a b = 0

theorem Follows.le_iff (h : Follows cmp key l) {a b : α} (ha : a ∈ l) (hb : b ∈ l) :
    cmp a b ≤ 0 ↔ key a ≤ key b := by
  rcases lt_trichotomy (key a) (key b) with hab | hab | hab
  · have := h.lt a ha b hb hab
    exact iff_of_true (by omega) hab.le
  · have := h.eq a ha b hb hab
    exact iff_of_true (by omega) hab.le
  · have := h.gt b hb a ha hab
    exact iff_of_false (by omega) hab.not_ge

theorem Follows.consistent (h : Follows cmp key l) : Consistent cmp l where
  total a ha b hb := by
    rw [h.le_iff ha hb, h.le_iff hb ha]
    exact le_total _ _
  trans a ha b hb c hc := by
    rw [h.le_iff ha hb, h.le_iff hb hc, h.le_iff ha hc]
    exact le_trans

/-- A comparison that follows a key sorts by the key. -/
theorem Qsort.pairwise_key (qsort : Qsort cmp) (h : Follows cmp key l) :
    (qsort.sort l).Pairwise fun a b => key a ≤ key b := by
  refine (qsort.sorted l h.consistent).imp_of_mem fun {a b} ha hb hab => ?_
  rw [(qsort.perm l).mem_iff] at ha hb
  exact (h.le_iff ha hb).mp hab

end Key

end Pebil

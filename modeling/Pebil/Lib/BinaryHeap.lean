import Pebil.Lib.Renumber

/-!
# Binary heaps

A heap is the list of its entries, the root first; the children of entry `i` are the entries
`2 * i + 1` and `2 * i + 2`. `insert` and `deleteMin` keep it ordered (`insert_ordered`,
`deleteMin_spec`), so that what `deleteMin` takes has the least key of all, and neither loses or
adds an entry.
-/

namespace Pebil

universe u

namespace BinaryHeap

variable {α : Type u} (key : α → Nat)

/-- The key of an entry; 0 outside. -/
def keyAt (l : List α) (i : Nat) : Nat := ((l[i]?).map key).getD 0

def parent (i : Nat) : Nat := (i - 1) / 2

/-- Exchange an entry with its parents as long as those are larger. -/
def siftUp : Nat → List α → Nat → List α
  | 0, l, _ => l
  | fuel + 1, l, i =>
    if 0 < i ∧ keyAt key l i < keyAt key l (parent i) then
      siftUp fuel (swapAt l i (parent i)) (parent i)
    else l

/-- Put an entry last and exchange it upwards. -/
def insert (a : α) (l : List α) : List α := siftUp key l.length (l ++ [a]) l.length

/-- The least of an entry and its children; the entry itself in a tie, and else the left one. -/
def minIdx (l : List α) (i : Nat) : Nat :=
  let m := if 2 * i + 1 < l.length ∧ keyAt key l (2 * i + 1) < keyAt key l i then 2 * i + 1 else i
  if 2 * i + 2 < l.length ∧ keyAt key l (2 * i + 2) < keyAt key l m then 2 * i + 2 else m

/-- Exchange an entry with its smallest children as long as those are smaller. -/
def heapify : Nat → List α → Nat → List α
  | 0, l, _ => l
  | fuel + 1, l, i =>
    if minIdx key l i = i then l else heapify fuel (swapAt l i (minIdx key l i)) (minIdx key l i)

/-- Take the root; the last entry is put in its place and exchanged downwards. -/
def deleteMin : List α → Option (α × List α)
  | [] => none
  | a :: l =>
    let l' := ((a :: l).set 0 ((a :: l).getLast (by simp))).dropLast
    some (a, heapify key l'.length l' 0)

/-- No entry is smaller than its parent. -/
def Ordered (l : List α) : Prop := ∀ i, 0 < i → i < l.length → keyAt key l (parent i) ≤ keyAt key l i

variable {key} {l : List α} {i j : Nat}

/-! ## Positions -/

theorem parent_lt (h : 0 < i) : parent i < i := by
  unfold parent
  omega

theorem parent_eq_iff (h : 0 < j) : parent j = i ↔ j = 2 * i + 1 ∨ j = 2 * i + 2 := by
  unfold parent
  omega

theorem keyAt_eq (h : i < l.length) : keyAt key l i = key l[i] := by
  simp [keyAt, h]

theorem keyAt_swapAt (hi : i < l.length) (hj : j < l.length) (k : Nat) :
    keyAt key (swapAt l i j) k =
      if k = i then keyAt key l j else if k = j then keyAt key l i else keyAt key l k := by
  rw [swapAt_eq (List.getElem?_eq_getElem hi) (List.getElem?_eq_getElem hj)]
  unfold keyAt
  rw [List.getElem?_set, List.getElem?_set, List.length_set]
  grind

/-! ## Upwards -/

/-- All entries but the one at `i` are in order, and so are its parent and its children. -/
structure OrderedAbove (key : α → Nat) (l : List α) (i : Nat) : Prop where
  others : ∀ k, 0 < k → k < l.length → k ≠ i → keyAt key l (parent k) ≤ keyAt key l k
  across : 0 < i → ∀ k, 0 < k → k < l.length → parent k = i →
    keyAt key l (parent i) ≤ keyAt key l k

theorem siftUp_perm (fuel : Nat) (hi : i < l.length) : (siftUp key fuel l i).Perm l := by
  induction fuel generalizing l i with
  | zero => exact .refl _
  | succ fuel ih =>
    rw [siftUp]
    split
    next h =>
      have hp : parent i < l.length := Nat.lt_trans (parent_lt h.1) hi
      exact (ih (by rwa [length_swapAt])).trans (swapAt_perm hi hp)
    next => exact .refl _

/-- An exchange with a larger parent moves the place that is out of order there. -/
theorem OrderedAbove.swap (h : OrderedAbove key l i) (hi : i < l.length) (hpos : 0 < i)
    (hlt : keyAt key l i < keyAt key l (parent i)) :
    OrderedAbove key (swapAt l i (parent i)) (parent i) := by
  have hp : parent i < i := parent_lt hpos
  have hkey : ∀ k, keyAt key (swapAt l i (parent i)) k = _ :=
    keyAt_swapAt hi (Nat.lt_trans hp hi)
  constructor
  · intro k hk hklt hne
    rw [length_swapAt] at hklt
    have hpk : parent k < k := parent_lt hk
    by_cases hki : k = i
    · subst hki
      rw [hkey, hkey, if_neg (by omega), if_pos rfl, if_pos rfl]
      exact Nat.le_of_lt hlt
    · rw [hkey k, if_neg hki, if_neg hne, hkey (parent k)]
      by_cases hpi : parent k = i
      · rw [if_pos hpi]
        exact h.across hpos k hk hklt hpi
      · rw [if_neg hpi]
        by_cases hpp : parent k = parent i
        · have horder := h.others k hk hklt hki
          rw [hpp] at horder
          rw [if_pos hpp]
          exact Nat.le_trans (Nat.le_of_lt hlt) horder
        · rw [if_neg hpp]
          exact h.others k hk hklt hki
  · intro hpos' k hk hklt hparent
    rw [length_swapAt] at hklt
    have hpp : parent (parent i) < parent i := parent_lt hpos'
    have hup := h.others (parent i) hpos' (by omega) (by omega)
    rw [hkey (parent (parent i)), if_neg (by omega), if_neg (by omega), hkey k]
    by_cases hki : k = i
    · rw [if_pos hki]
      exact hup
    · have hpk : parent k < k := parent_lt hk
      have horder := h.others k hk hklt hki
      rw [hparent] at horder
      rw [if_neg hki, if_neg (by omega)]
      exact Nat.le_trans hup horder

theorem siftUp_ordered (fuel : Nat) (hi : i < l.length) (hfuel : i ≤ fuel)
    (h : OrderedAbove key l i) : Ordered key (siftUp key fuel l i) := by
  induction fuel generalizing l i with
  | zero =>
    obtain rfl : i = 0 := by omega
    exact fun k hk hklt => h.others k hk hklt (by omega)
  | succ fuel ih =>
    rw [siftUp]
    split
    next hup =>
      have hp : parent i < i := parent_lt hup.1
      exact ih (by rw [length_swapAt]; omega) (by omega) (h.swap hi hup.1 hup.2)
    next hstop =>
      intro k hk hklt
      by_cases hki : k = i
      · subst hki
        exact Nat.le_of_not_lt fun hlt => hstop ⟨hk, hlt⟩
      · exact h.others k hk hklt hki

theorem insert_perm (a : α) (l : List α) : (insert key a l).Perm (a :: l) :=
  (siftUp_perm _ (by simp)).trans (List.perm_append_singleton a l)

theorem insert_ordered {a : α} (h : Ordered key l) : Ordered key (insert key a l) := by
  refine siftUp_ordered _ (by simp) (Nat.le_refl _) ⟨fun k hk hklt hne => ?_, fun _ k hk hklt hp => ?_⟩
  · rw [List.length_append, List.length_singleton] at hklt
    have hpk : parent k < k := parent_lt hk
    have hold : ∀ j, j < l.length → keyAt key (l ++ [a]) j = keyAt key l j := fun j hj => by
      rw [keyAt, keyAt, List.getElem?_append_left hj]
    rw [hold k (by omega), hold (parent k) (by omega)]
    exact h k hk (by omega)
  · -- the last entry has no children
    rw [List.length_append, List.length_singleton] at hklt
    have hpk : parent k < k := parent_lt hk
    omega

/-! ## Downwards -/

/-- All entries but the children of the one at `i` are in order, and so are its parent and its
children. -/
structure OrderedBelow (key : α → Nat) (l : List α) (i : Nat) : Prop where
  others : ∀ k, 0 < k → k < l.length → parent k ≠ i → keyAt key l (parent k) ≤ keyAt key l k
  across : 0 < i → ∀ k, 0 < k → k < l.length → parent k = i →
    keyAt key l (parent i) ≤ keyAt key l k

/-- `minIdx` is a child in the heap, or the entry itself. -/
theorem minIdx_cases (key : α → Nat) (l : List α) (i : Nat) :
    minIdx key l i = i ∨
      (0 < minIdx key l i ∧ minIdx key l i < l.length ∧ parent (minIdx key l i) = i ∧
        keyAt key l (minIdx key l i) < keyAt key l i) := by
  unfold minIdx parent
  grind

theorem keyAt_minIdx_le (key : α → Nat) (l : List α) (i : Nat) :
    keyAt key l (minIdx key l i) ≤ keyAt key l i ∧
      ∀ k, 0 < k → k < l.length → parent k = i → keyAt key l (minIdx key l i) ≤ keyAt key l k := by
  have hchildren : ∀ k, 0 < k → parent k = i → k = 2 * i + 1 ∨ k = 2 * i + 2 :=
    fun k hk hp => (parent_eq_iff hk).mp hp
  unfold minIdx
  grind

theorem heapify_perm (fuel : Nat) (hi : i < l.length) : (heapify key fuel l i).Perm l := by
  induction fuel generalizing l i with
  | zero => exact .refl _
  | succ fuel ih =>
    rw [heapify]
    split
    next => exact .refl _
    next hne =>
      obtain ⟨-, hm, -, -⟩ := (minIdx_cases key l i).resolve_left hne
      exact (ih (by rwa [length_swapAt])).trans (swapAt_perm hi hm)

/-- An exchange with the smallest child moves the place that is out of order there. -/
theorem OrderedBelow.swap (h : OrderedBelow key l i) (hi : i < l.length) (hne : minIdx key l i ≠ i) :
    OrderedBelow key (swapAt l i (minIdx key l i)) (minIdx key l i) := by
  obtain ⟨hpos, hm, hparent, hlt⟩ := (minIdx_cases key l i).resolve_left hne
  have hmin := (keyAt_minIdx_le key l i).2
  have hkey : ∀ k, keyAt key (swapAt l i (minIdx key l i)) k = _ := keyAt_swapAt hi hm
  have hpm : parent (minIdx key l i) < minIdx key l i := parent_lt hpos
  generalize minIdx key l i = m at hpos hm hparent hlt hmin hkey hpm hne ⊢
  constructor
  · intro k hk hklt hp
    rw [length_swapAt] at hklt
    have hpk : parent k < k := parent_lt hk
    rw [hkey k, hkey (parent k), if_neg hp]
    by_cases hki : k = i
    · subst hki
      rw [if_pos rfl, if_neg (by omega)]
      exact h.across hk m hpos hm hparent
    · rw [if_neg hki]
      by_cases hkm : k = m
      · subst hkm
        rw [if_pos rfl, hparent, if_pos rfl]
        exact Nat.le_of_lt hlt
      · rw [if_neg hkm]
        by_cases hpi : parent k = i
        · rw [if_pos hpi]
          exact hmin k hk hklt hpi
        · rw [if_neg hpi]
          exact h.others k hk hklt hpi
  · intro _ k hk hklt hp
    rw [length_swapAt] at hklt
    have hpk : parent k < k := parent_lt hk
    rw [hparent, hkey i, if_pos rfl, hkey k, if_neg (by omega), if_neg (by omega), ← hp]
    exact h.others k hk hklt (by omega)

theorem heapify_ordered (fuel : Nat) (hi : i < l.length) (hfuel : l.length ≤ i + fuel)
    (h : OrderedBelow key l i) : Ordered key (heapify key fuel l i) := by
  induction fuel generalizing l i with
  | zero => omega
  | succ fuel ih =>
    rw [heapify]
    split
    next hstop =>
      intro k hk hklt
      by_cases hp : parent k = i
      · rw [hp]
        have hmin := (keyAt_minIdx_le key l i).2 k hk hklt hp
        rwa [hstop] at hmin
      · exact h.others k hk hklt hp
    next hne =>
      obtain ⟨hpos, hm, hparent, -⟩ := (minIdx_cases key l i).resolve_left hne
      have hlt : parent (minIdx key l i) < minIdx key l i := parent_lt hpos
      exact ih (by rwa [length_swapAt]) (by rw [length_swapAt]; omega) (h.swap hi hne)

/-! ## The least entry -/

/-- The root is not larger than any entry. -/
theorem Ordered.root_le (h : Ordered key l) (hi : i < l.length) :
    keyAt key l 0 ≤ keyAt key l i := by
  induction i using Nat.strongRecOn with
  | ind i ih =>
    by_cases hpos : 0 < i
    · have hp : parent i < i := parent_lt hpos
      exact Nat.le_trans (ih (parent i) hp (by omega)) (h i hpos hi)
    · obtain rfl : i = 0 := by omega
      exact Nat.le_refl _

theorem deleteMin_eq_none : deleteMin key l = none ↔ l = [] := by
  cases l with
  | nil => simp [deleteMin]
  | cons a l => simp [deleteMin]

/-- What is left when the last entry takes the root's place. -/
theorem moved_last {a b : α} (l : List α) :
    ((a :: b :: l).set 0 ((a :: b :: l).getLast (by simp))).dropLast =
      (b :: l).getLast (by simp) :: (b :: l).dropLast := by
  rw [List.set_cons_zero, List.dropLast_cons_of_ne_nil (by simp), List.getLast_cons (by simp)]

/-- What `deleteMin` takes has the least key; the others stay, in order. -/
theorem deleteMin_spec {a : α} {l' : List α} (h : Ordered key l)
    (hdel : deleteMin key l = some (a, l')) :
    (a :: l').Perm l ∧ Ordered key l' ∧ ∀ b ∈ l, key a ≤ key b := by
  cases l with
  | nil => cases hdel
  | cons r l =>
    obtain ⟨rfl, hl'⟩ : r = a ∧ _ = l' := by simpa only [deleteMin, Option.some.injEq, Prod.mk.injEq] using hdel
    have hroot : ∀ b ∈ r :: l, key r ≤ key b := by
      intro b hb
      obtain ⟨i, hi, rfl⟩ := List.getElem_of_mem hb
      have hle := h.root_le hi
      rwa [keyAt_eq hi, keyAt_eq (by simp)] at hle
    cases l with
    | nil =>
      subst hl'
      exact ⟨.refl _, fun k hk hklt => absurd hklt (by simp [heapify]), hroot⟩
    | cons b l =>
      rw [moved_last] at hl'
      subst hl'
      set last := (b :: l).getLast (by simp)
      have hlen : (last :: (b :: l).dropLast).length = l.length + 1 := by simp
      have hsame : ∀ k, 0 < k → k < l.length + 1 →
          keyAt key (last :: (b :: l).dropLast) k = keyAt key (r :: b :: l) k := by
        intro k hk hklt
        obtain ⟨k, rfl⟩ : ∃ k', k = k' + 1 := ⟨k - 1, by omega⟩
        rw [keyAt_eq (by omega), keyAt_eq (by simp; omega), List.getElem_cons_succ,
          List.getElem_cons_succ, List.getElem_dropLast]
      have hbelow : OrderedBelow key (last :: (b :: l).dropLast) 0 := by
        refine ⟨fun k hk hklt hp => ?_, fun hpos => absurd hpos (Nat.lt_irrefl 0)⟩
        rw [hlen] at hklt
        have hpk : parent k < k := parent_lt hk
        rw [hsame k hk hklt, hsame (parent k) (by omega) (by omega)]
        exact h k hk (by simp; omega)
      refine ⟨.cons _ ?_, heapify_ordered _ (by simp) (by simp) hbelow, hroot⟩
      have hrotate : (last :: (b :: l).dropLast).Perm (b :: l) := by
        have happend := List.dropLast_append_getLast (l := b :: l) (by simp)
        exact (List.perm_append_singleton last _).symm.trans (.of_eq happend)
      exact (heapify_perm _ (by simp)).trans hrotate

end BinaryHeap

end Pebil

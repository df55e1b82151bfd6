import Pebil.Lib.Loop
import Mathlib.Data.List.Basic
import Mathlib.Order.Basic
import Mathlib.Order.Lattice

/-!
# Binary search and binary insertion

`bsearch` halves a list as the C library function does: `cmp x` is how the key compares
with `x`. It finds an element that compares equal whenever the elements before some such
element never send it to the left and the elements behind never send it to the right; the
list need not be sorted otherwise. Where the comparison has the sign of the order of a key
(`Directs`), what is found has the key, and in a list sorted by it nothing of the key is missed.

The C library promises less: only in an array that is partitioned by the comparison does its
`bsearch` find what compares equal. `Bsearch` is anything that keeps this promise, and of any
other array it may return whatever it likes (`Bsearch.exists_search_eq`).

`rewind` steps back from an element that was found to the first one with its key.

`insertSorted` looks for the place of an element with the same halving, from a first probe
at the front, and inserts it there.
-/

namespace Pebil

variable {α : Type*}

/-- At most `fuel` probes of `bsearch`. -/
def bsearchFuel (cmp : α → Int) : Nat → List α → Option α
  | 0, _ => none
  | fuel + 1, l =>
    match l.drop (l.length / 2) with
    | [] => none
    | x :: right =>
      if cmp x < 0 then bsearchFuel cmp fuel (l.take (l.length / 2))
      else if 0 < cmp x then bsearchFuel cmp fuel right
      else some x

/-- `bsearch`: every probe drops at least the element it looks at. -/
def bsearch (cmp : α → Int) (l : List α) : Option α :=
  bsearchFuel cmp l.length l

section Search

variable {cmp : α → Int} {x y : α} {l before after : List α}

theorem bsearchFuel_sound {fuel : Nat} (h : bsearchFuel cmp fuel l = some x) :
    x ∈ l ∧ cmp x = 0 := by
  induction fuel generalizing l with
  | zero => cases h
  | succ fuel ih =>
    rw [bsearchFuel] at h
    split at h
    · cases h
    · rename_i y right hdrop
      have hright : ∀ z ∈ y :: right, z ∈ l := fun z hz => List.mem_of_mem_drop (hdrop ▸ hz)
      split at h
      · obtain ⟨hmem, hx⟩ := ih h
        exact ⟨List.mem_of_mem_take hmem, hx⟩
      · split at h
        · obtain ⟨hmem, hx⟩ := ih h
          exact ⟨hright x (List.mem_cons_of_mem y hmem), hx⟩
        · obtain rfl := Option.some.inj h
          exact ⟨hright y List.mem_cons_self, by omega⟩

/-- What is found is in the list and compares equal. -/
theorem bsearch_sound (h : bsearch cmp l = some x) : x ∈ l ∧ cmp x = 0 :=
  bsearchFuel_sound h

theorem bsearchFuel_complete {fuel : Nat} (hfuel : (before ++ y :: after).length ≤ fuel)
    (hbefore : ∀ x ∈ before, 0 ≤ cmp x) (hy : cmp y = 0) (hafter : ∀ x ∈ after, cmp x ≤ 0) :
    ∃ x, bsearchFuel cmp fuel (before ++ y :: after) = some x := by
  induction fuel generalizing before after with
  | zero => simp at hfuel
  | succ fuel ih =>
    generalize hl : before ++ y :: after = l at hfuel ⊢
    have hsplit : l.take (l.length / 2) ++ l.drop (l.length / 2) = l := List.take_append_drop ..
    have hlength : (l.take (l.length / 2)).length = l.length / 2 := by
      rw [List.length_take]
      omega
    have hpos : 0 < l.length := hl ▸ List.length_pos_of_mem (List.mem_append_cons_self)
    rw [bsearchFuel]
    generalize l.take (l.length / 2) = left at hsplit hlength ⊢
    cases hdrop : l.drop (l.length / 2) with
    | nil =>
      have := List.drop_eq_nil_iff.mp hdrop
      omega
    | cons x right =>
      rw [hdrop, ← hl] at hsplit
      have hlengths : left.length + (right.length + 1) = l.length := by
        simpa [← hl] using congrArg List.length hsplit
      simp only
      -- the probe is behind `y`, in front of it, or `y` itself
      rcases List.append_eq_append_iff.mp hsplit with ⟨c, hbeforeEq, hright⟩ | ⟨c, hleft, hy'⟩
      · cases c with
        | nil =>
          obtain ⟨rfl, rfl⟩ := List.cons.inj hright
          exact ⟨x, by rw [if_neg (by omega), if_neg (by omega)]⟩
        | cons z c =>
          obtain ⟨rfl, hc⟩ := List.cons.inj hright
          have hx := hbefore x (by simp [hbeforeEq])
          rw [if_neg (by omega), hc]
          split
          · refine ih ?_ (fun z hz => hbefore z (by simp [hbeforeEq, hz])) hafter
            have : (c ++ y :: after).length = right.length := congrArg List.length hc.symm
            omega
          · exact ⟨x, rfl⟩
      · cases c with
        | nil =>
          obtain ⟨rfl, rfl⟩ := List.cons.inj hy'
          exact ⟨y, by rw [if_neg (by omega), if_neg (by omega)]⟩
        | cons z c =>
          obtain ⟨rfl, rfl⟩ := List.cons.inj hy'
          have hx := hafter x (by simp)
          split
          · subst hleft
            refine ih ?_ hbefore (fun z hz => hafter z (by simp [hz]))
            omega
          · rw [if_neg (by omega)]
            exact ⟨x, rfl⟩

/-- An element that compares equal is not missed if no element before it compares greater
than the key and none behind it less. -/
theorem bsearch_complete (hbefore : ∀ x ∈ before, 0 ≤ cmp x) (hy : cmp y = 0)
    (hafter : ∀ x ∈ after, cmp x ≤ 0) : ∃ x, bsearch cmp (before ++ y :: after) = some x :=
  bsearchFuel_complete (Nat.le_refl _) hbefore hy hafter

end Search

/-! ## The search of the C library -/

/-- What compares greater stands in front of what compares equal, and that in front of what
compares less. -/
def Partitioned (cmp : α → Int) (l : List α) : Prop :=
  l.Pairwise fun a b => (cmp a < 0 → cmp b < 0) ∧ (cmp a ≤ 0 → cmp b ≤ 0)

/-- `bsearch` of the C library. -/
structure Bsearch (α : Type*) where
  search : (α → Int) → List α → Option α
  sound : ∀ cmp l, Partitioned cmp l → ∀ x, search cmp l = some x → x ∈ l ∧ cmp x = 0
  complete : ∀ cmp l, Partitioned cmp l → search cmp l = none → ∀ x ∈ l, cmp x ≠ 0

/-- In a partitioned list the halving misses nothing. -/
theorem bsearch_ne_none {cmp : α → Int} {l : List α} (hl : Partitioned cmp l) {x : α}
    (hx : x ∈ l) (hzero : cmp x = 0) : bsearch cmp l ≠ none := by
  obtain ⟨before, after, rfl⟩ := List.append_of_mem hx
  obtain ⟨-, hafter, hbefore⟩ := List.pairwise_append.mp hl
  have hbefore : ∀ y ∈ before, 0 ≤ cmp y := fun y hy => by
    have := (hbefore y hy x List.mem_cons_self).1
    omega
  have hafter : ∀ y ∈ after, cmp y ≤ 0 := fun y hy =>
    ((List.pairwise_cons.mp hafter).1 y hy).2 (Int.le_of_eq hzero)
  obtain ⟨y, hy⟩ := bsearch_complete hbefore hzero hafter
  simp [hy]

/-- Halving keeps the promise of `bsearch`. -/
def halvingBsearch (α : Type*) : Bsearch α where
  search := bsearch
  sound _ _ _ _ := bsearch_sound
  complete _ _ hl hnone _ hx hzero := bsearch_ne_none hl hx hzero hnone

/-- Nothing is promised of an array that is not partitioned. -/
theorem Bsearch.exists_search_eq {cmp : α → Int} {l : List α} (h : ¬ Partitioned cmp l)
    (result : Option α) : ∃ b : Bsearch α, b.search cmp l = result := by
  classical
  let search : (α → Int) → List α → Option α := fun cmp' l' =>
    if cmp' = cmp ∧ l' = l then result else bsearch cmp' l'
  have hsearch : ∀ cmp' l', Partitioned cmp' l' → search cmp' l' = bsearch cmp' l' :=
    fun cmp' l' hl' => if_neg fun ⟨hcmp, hl⟩ => h (hcmp ▸ hl ▸ hl')
  refine ⟨⟨search, fun cmp' l' hl' x hx => ?_, fun cmp' l' hl' hnone => ?_⟩, ?_⟩
  · rw [hsearch cmp' l' hl'] at hx
    exact bsearch_sound hx
  · rw [hsearch cmp' l' hl'] at hnone
    exact fun x hx hzero => bsearch_ne_none hl' hx hzero hnone
  · exact if_pos ⟨rfl, rfl⟩

/-! ## Search for a key -/

section Key

variable {κ : Type*} [LinearOrder κ] {cmp : α → Int} {key : α → κ} {k : κ}
  {l before after : List α} {x : α}

/-- The comparison with the sought key has the sign of the order. -/
structure Directs (cmp : α → Int) (key : α → κ) (k : κ) : Prop where
  nonneg_iff : ∀ x, 0 ≤ cmp x ↔ key x ≤ k
  nonpos_iff : ∀ x, cmp x ≤ 0 ↔ k ≤ key x

/-- The usual comparison does. -/
theorem directs_threeWay (key : α → κ) (k : κ) :
    Directs (fun x => if k < key x then -1 else if key x < k then 1 else 0) key k where
  nonneg_iff x := by
    rcases lt_trichotomy k (key x) with h | h | h
    · simp [h]
    · simp [h]
    · simp [h, h.le, h.not_gt]
  nonpos_iff x := by
    rcases lt_trichotomy k (key x) with h | h | h
    · simp [h, h.le]
    · simp [h]
    · simp [h, h.not_gt]

/-- What is found has the key. -/
theorem Directs.of_bsearch (h : Directs cmp key k) (hx : bsearch cmp l = some x) :
    x ∈ l ∧ key x = k := by
  obtain ⟨hmem, hzero⟩ := bsearch_sound hx
  have hlow := (h.nonneg_iff x).mp (Int.le_of_eq hzero.symm)
  have hhigh := (h.nonpos_iff x).mp (Int.le_of_eq hzero)
  exact ⟨hmem, le_antisymm hlow hhigh⟩

/-- An element of the key is not missed if no key before it is greater and none behind it
less. -/
theorem Directs.exists_bsearch (h : Directs cmp key k) (hbefore : ∀ y ∈ before, key y ≤ k)
    (hkey : key x = k) (hafter : ∀ y ∈ after, k ≤ key y) :
    ∃ y, bsearch cmp (before ++ x :: after) = some y := by
  refine bsearch_complete (fun y hy => (h.nonneg_iff y).mpr (hbefore y hy)) ?_ fun y hy =>
    (h.nonpos_iff y).mpr (hafter y hy)
  exact Int.le_antisymm ((h.nonpos_iff x).mpr hkey.ge) ((h.nonneg_iff x).mpr hkey.le)

/-- In a list sorted by the key, an element of the key is found if there is one. -/
theorem Directs.exists_bsearch_of_sorted (h : Directs cmp key k)
    (hl : l.Pairwise fun a b => key a ≤ key b) (hx : x ∈ l) (hkey : key x = k) :
    ∃ y, bsearch cmp l = some y := by
  obtain ⟨before, after, rfl⟩ := List.append_of_mem hx
  obtain ⟨-, hafter, hbefore⟩ := List.pairwise_append.mp hl
  exact h.exists_bsearch (fun y hy => hkey ▸ hbefore y hy x List.mem_cons_self) hkey fun y hy =>
    hkey ▸ (List.pairwise_cons.mp hafter).1 y hy

end Key

/-! ## The first of several elements with one key -/

section Rewind

variable {κ : Type*} {key : α → κ} {k : κ} {l before equal after : List α}

/-- From index `i` back to the first element of the run of elements with its key. -/
def rewind [DecidableEq κ] (key : α → κ) (l : List α) : Nat → Nat
  | 0 => 0
  | i + 1 => if l[i]?.map key = l[i + 1]?.map key then rewind key l i else i + 1

/-- From anywhere in a run of one key to the front of the run. -/
theorem rewind_eq [DecidableEq κ] (hbefore : ∀ x ∈ before, key x ≠ k)
    (hequal : ∀ x ∈ equal, key x = k) {i : Nat} (hi : i < equal.length) :
    rewind key (before ++ (equal ++ after)) (before.length + i) = before.length := by
  have hkey : ∀ j, j < equal.length →
      (before ++ (equal ++ after))[before.length + j]?.map key = some k := fun j hj => by
    rw [List.getElem?_append_right (by omega), Nat.add_sub_cancel_left,
      List.getElem?_append_left hj, List.getElem?_eq_getElem hj, Option.map_some,
      hequal _ (List.getElem_mem hj)]
  induction i with
  | zero =>
    have hfirst := hkey 0 hi
    rw [Nat.add_zero] at hfirst ⊢
    cases hb : before.length with
    | zero => rfl
    | succ n =>
      -- the last element before the run has another key
      have hn : n < before.length := by omega
      rw [hb] at hfirst
      rw [rewind, hfirst, List.getElem?_append_left hn, List.getElem?_eq_getElem hn,
        Option.map_some, if_neg]
      exact fun h => hbefore _ (List.getElem_mem hn) (Option.some.inj h)
  | succ i ih =>
    rw [← Nat.add_assoc, rewind, hkey i (by omega), Nat.add_assoc, hkey (i + 1) hi, if_pos rfl]
    exact ih (by omega)

/-- A sorted list has the elements of one key in one run. -/
theorem eq_append_run [LinearOrder κ] (hl : l.Pairwise fun a b => key a ≤ key b) (k : κ) :
    l = l.filter (key · < k) ++ (l.filter (key · = k) ++ l.filter (k < key ·)) := by
  induction l with
  | nil => rfl
  | cons a l ih =>
    obtain ⟨ha, hl⟩ := List.pairwise_cons.mp hl
    have ih := ih hl
    rcases lt_trichotomy (key a) k with hk | hk | hk
    · simpa [hk, hk.ne, hk.not_gt] using ih
    · have hlt : l.filter (key · < k) = [] := by
        simpa using fun b hb => hk ▸ ha b hb
      rw [hlt] at ih
      simpa [hk, hlt] using ih
    · have hlt : l.filter (key · < k) = [] := by
        simpa using fun b hb => hk.le.trans (ha b hb)
      have heq : l.filter (key · = k) = [] := by
        simpa using fun b hb => (hk.trans_le (ha b hb)).ne'
      rw [hlt, heq] at ih
      simpa [hk, hk.ne', hk.not_gt, hlt, heq] using ih

end Rewind

/-! ## Binary insertion -/

/-- The window and the next probe of `insertSorted`. -/
structure Probe where
  l : Nat
  m : Nat
  h : Nat
  deriving DecidableEq, Repr

/-- A round of the search for the place of an element: `cmp x` is how `x` compares with
it. -/
def insertStep (cmp : α → Int) (elements : List α) (p : Probe) : Probe ⊕ Nat :=
  if p.l < p.h then
    match elements[p.m]? with
    | none => .inr p.m
    | some x =>
      if cmp x < 0 then .inl { p with l := p.m + 1, m := (p.m + 1 + p.h) / 2 }
      else if 0 < cmp x then .inl { p with h := p.m, m := (p.l + p.m) / 2 }
      else .inr p.m
  else .inr p.m

/-- `insertSorted`. -/
def insertSorted (cmp : α → α → Int) (elt : α) (elements : List α) : List α :=
  match loop (insertStep (cmp · elt) elements) (elements.length + 1) ⟨0, 0, elements.length⟩ with
  | some m => elements.take m ++ elt :: elements.drop m
  | none => elements

/-- The window encloses the place between the smaller and the greater elements. -/
structure Probe.Encloses (p : Probe) (place length : Nat) : Prop where
  low : p.l ≤ place
  high : place ≤ p.h
  bound : p.h ≤ length
  probe_low : p.l ≤ p.m
  probe_high : p.m ≤ p.h
  probe_lt : p.l < p.h → p.m < p.h

/-- Between elements that compare less and elements that compare greater, that is where the
element goes. -/
theorem insertSorted_eq {cmp : α → α → Int} {elt : α} {before after : List α}
    (hbefore : ∀ x ∈ before, cmp x elt < 0) (hafter : ∀ x ∈ after, 0 < cmp x elt) :
    insertSorted cmp elt (before ++ after) = before ++ elt :: after := by
  have hstart : Probe.Encloses ⟨0, 0, (before ++ after).length⟩ before.length
      (before ++ after).length :=
    { low := Nat.zero_le _
      high := by simp
      bound := Nat.le_refl _
      probe_low := Nat.le_refl _
      probe_high := Nat.zero_le _
      probe_lt := id }
  -- the window shrinks until only the place is left
  obtain ⟨m, hm, rfl⟩ : ∃ m, loop (insertStep (cmp · elt) (before ++ after))
      ((before ++ after).length + 1) ⟨0, 0, (before ++ after).length⟩ = some m ∧
        m = before.length := by
    refine loop_total (fun p => p.Encloses before.length (before ++ after).length)
      (fun p => p.h - p.l) _ (fun p hp => ?_) hstart (by simp)
    obtain ⟨hlow, hhigh, hbound, hml, hmh, hlt⟩ := hp
    unfold insertStep
    split
    · rename_i hlh
      have hm := hlt hlh
      obtain ⟨x, hx⟩ : ∃ x, (before ++ after)[p.m]? = some x :=
        ⟨_, List.getElem?_eq_getElem (Nat.lt_of_lt_of_le hm hbound)⟩
      rw [hx]
      simp only
      rcases Nat.lt_or_ge p.m before.length with hin | hin
      · rw [List.getElem?_append_left hin] at hx
        rw [if_pos (hbefore x (List.mem_of_getElem? hx))]
        refine .inl ⟨_, rfl, ⟨?_, hhigh, hbound, ?_, ?_, ?_⟩, ?_⟩ <;> simp only <;> omega
      · rw [List.getElem?_append_right hin] at hx
        have hgt := hafter x (List.mem_of_getElem? hx)
        rw [if_neg (by omega), if_pos hgt]
        refine .inl ⟨_, rfl, ⟨hlow, hin, ?_, ?_, ?_, ?_⟩, ?_⟩ <;> simp only <;> omega
    · exact .inr ⟨p.m, rfl, by omega⟩
  unfold insertSorted
  rw [hm]
  simp only
  rw [List.take_left, List.drop_left]

section Ties

variable {κ : Type*} [LinearOrder κ] {cmp : α → α → Int} {key : α → κ} {elt : α} {l : List α}

/-- No key in front of the window is greater than the one sought, and none behind it less. -/
structure Probe.Splits (p : Probe) (key : α → κ) (k : κ) (l : List α) : Prop where
  before : ∀ x ∈ l.take p.l, key x ≤ k
  after : ∀ x ∈ l.drop p.h, k ≤ key x
  bound : p.h ≤ l.length
  probe_low : p.l ≤ p.m
  probe_high : p.m ≤ p.h
  probe_lt : p.l < p.h → p.m < p.h

/-- In a list sorted by the key, everything up to an index has at most the key that stands
there. -/
theorem le_of_mem_take (hl : l.Pairwise fun a b => key a ≤ key b) {m : Nat} {x y : α}
    (hx : l[m]? = some x) (hy : y ∈ l.take (m + 1)) : key y ≤ key x := by
  obtain ⟨i, hi, rfl⟩ := List.mem_take_iff_getElem.mp hy
  obtain ⟨hm, rfl⟩ := List.getElem?_eq_some_iff.mp hx
  rcases Nat.lt_or_ge i m with hlt | hge
  · exact List.pairwise_iff_getElem.mp hl i m (by omega) hm hlt
  · obtain rfl : i = m := by omega
    exact le_rfl

/-- Everything from an index on has at least the key that stands there. -/
theorem le_of_mem_drop (hl : l.Pairwise fun a b => key a ≤ key b) {m : Nat} {x y : α}
    (hx : l[m]? = some x) (hy : y ∈ l.drop m) : key x ≤ key y := by
  obtain ⟨i, hi, rfl⟩ := List.mem_drop_iff_getElem.mp hy
  obtain ⟨hm, rfl⟩ := List.getElem?_eq_some_iff.mp hx
  rcases Nat.eq_zero_or_pos i with rfl | hpos
  · exact le_rfl
  · exact List.pairwise_iff_getElem.mp hl m (m + i) hm (by omega) (by omega)

/-- Into a list sorted by a key that the comparison follows, the element goes between keys
that are not greater and keys that are not less than its own. -/
theorem insertSorted_split (hl : l.Pairwise fun a b => key a ≤ key b)
    (hlt : ∀ x ∈ l, cmp x elt < 0 → key x ≤ key elt)
    (hgt : ∀ x ∈ l, 0 < cmp x elt → key elt ≤ key x)
    (heq : ∀ x ∈ l, cmp x elt = 0 → key x = key elt) :
    ∃ before after, l = before ++ after ∧ insertSorted cmp elt l = before ++ elt :: after ∧
      (∀ x ∈ before, key x ≤ key elt) ∧ ∀ x ∈ after, key elt ≤ key x := by
  have hstart : Probe.Splits ⟨0, 0, l.length⟩ key (key elt) l :=
    { before := by simp
      after := by simp
      bound := Nat.le_refl _
      probe_low := Nat.le_refl _
      probe_high := Nat.zero_le _
      probe_lt := id }
  obtain ⟨m, hm, hbefore, hafter⟩ : ∃ m, loop (insertStep (cmp · elt) l) (l.length + 1)
      ⟨0, 0, l.length⟩ = some m ∧ (∀ x ∈ l.take m, key x ≤ key elt) ∧
        ∀ x ∈ l.drop m, key elt ≤ key x := by
    refine loop_total (fun p => p.Splits key (key elt) l) (fun p => p.h - p.l) _ (fun p hp => ?_)
      hstart (by simp)
    obtain ⟨hbefore, hafter, hbound, hml, hmh, hlower⟩ := hp
    unfold insertStep
    split
    · rename_i hlh
      have hm := hlower hlh
      obtain ⟨x, hx⟩ : ∃ x, l[p.m]? = some x :=
        ⟨_, List.getElem?_eq_getElem (Nat.lt_of_lt_of_le hm hbound)⟩
      have hmem := List.mem_of_getElem? hx
      rw [hx]
      simp only
      split
      · rename_i hless
        refine .inl ⟨_, rfl, ⟨fun y hy => ?_, hafter, hbound, ?_, ?_, ?_⟩, ?_⟩
        · exact (le_of_mem_take hl hx hy).trans (hlt x hmem hless)
        all_goals simp only; omega
      · split
        · rename_i hmore
          refine .inl ⟨_, rfl, ⟨hbefore, fun y hy => ?_, ?_, ?_, ?_, ?_⟩, ?_⟩
          · exact (hgt x hmem hmore).trans (le_of_mem_drop hl hx hy)
          all_goals simp only; omega
        · have hkey := heq x hmem (by omega)
          refine .inr ⟨p.m, rfl, fun y hy => ?_, fun y hy => hkey ▸ le_of_mem_drop hl hx hy⟩
          exact hkey ▸ le_of_mem_take hl hx (List.take_subset_take_left l (Nat.le_succ _) hy)
    · have hml : p.m = p.l := by omega
      have hmh : p.m = p.h := by omega
      exact .inr ⟨p.m, rfl, hml ▸ hbefore, hmh ▸ hafter⟩
  refine ⟨l.take m, l.drop m, (List.take_append_drop m l).symm, ?_, hbefore, hafter⟩
  unfold insertSorted
  rw [hm]

end Ties

end Pebil

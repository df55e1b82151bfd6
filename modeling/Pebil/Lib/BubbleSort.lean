import Mathlib.Data.List.Basic

/-!
# Bubble sort by a key

The full bubble sort: as many passes of adjacent compare-and-swap as there are
elements, with no early exit. `bubbleCarry` is one pass that has reached the
element it carries; an element is exchanged with its successor only when its key is
strictly greater, so the sort is stable.

Stability is stated bucket by bucket: the elements of one key keep their order
(`bubbleSort_filter`). Together with sortedness this determines the result:
`bubbleSort_eq_flatMap` says that it is the concatenation of the buckets, each
in the original order.
-/

namespace Pebil

universe u v

variable {α : Type u} (key : α → Nat)

/-- The rest of a pass that carries `a`. -/
def bubbleCarry (a : α) : List α → List α
  | [] => [a]
  | b :: l => if key b < key a then b :: bubbleCarry a l else a :: bubbleCarry b l

/-- One pass over the whole list. -/
def bubblePass : List α → List α
  | [] => []
  | a :: l => bubbleCarry key a l

/-- `n` passes. -/
def bubblePasses : Nat → List α → List α
  | 0, l => l
  | n + 1, l => bubblePasses n (bubblePass key l)

/-- As many passes as there are elements. -/
def bubbleSort (l : List α) : List α := bubblePasses key l.length l

variable {key}

/-! ## A pass permutes -/

theorem bubbleCarry_perm (a : α) (l : List α) : (bubbleCarry key a l).Perm (a :: l) := by
  induction l generalizing a with
  | nil => exact .refl _
  | cons b l ih =>
    rw [bubbleCarry]
    split
    · exact ((ih a).cons b).trans (.swap a b l)
    · exact (ih b).cons a

theorem bubblePass_perm (l : List α) : (bubblePass key l).Perm l := by
  cases l with
  | nil => exact .refl _
  | cons a l => exact bubbleCarry_perm a l

theorem bubblePasses_perm (n : Nat) (l : List α) : (bubblePasses key n l).Perm l := by
  induction n generalizing l with
  | zero => exact .refl _
  | succ n ih => exact (ih _).trans (bubblePass_perm l)

theorem bubbleSort_perm (key : α → Nat) (l : List α) : (bubbleSort key l).Perm l :=
  bubblePasses_perm _ l

@[simp] theorem bubbleSort_length (l : List α) : (bubbleSort key l).length = l.length :=
  (bubbleSort_perm key l).length_eq

/-! ## Sorting commutes with a map that keeps the keys -/

theorem bubbleCarry_map {β : Type v} (f : β → α) (b : β) (l : List β) :
    (bubbleCarry (key ∘ f) b l).map f = bubbleCarry key (f b) (l.map f) := by
  induction l generalizing b with
  | nil => rfl
  | cons c l ih =>
    simp only [bubbleCarry, List.map_cons, Function.comp_apply]
    split
    · rw [List.map_cons, ih b]
    · rw [List.map_cons, ih c]

theorem bubblePasses_map {β : Type v} (f : β → α) (n : Nat) (l : List β) :
    (bubblePasses (key ∘ f) n l).map f = bubblePasses key n (l.map f) := by
  induction n generalizing l with
  | zero => rfl
  | succ n ih =>
    rw [bubblePasses, ih]
    cases l with
    | nil => rfl
    | cons a l => rw [bubblePass, bubbleCarry_map]; rfl

theorem bubbleSort_map {β : Type v} (f : β → α) (l : List β) :
    (bubbleSort (key ∘ f) l).map f = bubbleSort key (l.map f) := by
  rw [bubbleSort, bubblePasses_map, bubbleSort, List.length_map]

/-! ## A pass settles one more element -/

/-- A pass over `u ++ v` first turns `u` into `u'` and then goes on with the
greatest element of `a :: u`. -/
theorem bubbleCarry_append (key : α → Nat) (a : α) (u : List α) :
    ∃ u' m, u'.length = u.length ∧ (u' ++ [m]).Perm (a :: u) ∧ (∀ x ∈ a :: u, key x ≤ key m) ∧
      ∀ v, bubbleCarry key a (u ++ v) = u' ++ bubbleCarry key m v := by
  induction u generalizing a with
  | nil => exact ⟨[], a, rfl, .refl _, by simp, fun _ => rfl⟩
  | cons b u ih =>
    by_cases hlt : key b < key a
    · -- `b` stays behind, `a` is carried on
      obtain ⟨u', m, hlen, hperm, hmax, heq⟩ := ih a
      obtain ⟨ha, hu⟩ := List.forall_mem_cons.mp hmax
      refine ⟨b :: u', m, by simp [hlen], (hperm.cons b).trans (.swap a b u), ?_, fun v => ?_⟩
      · exact List.forall_mem_cons.mpr ⟨ha, List.forall_mem_cons.mpr ⟨by omega, hu⟩⟩
      · rw [List.cons_append, bubbleCarry, if_pos hlt, heq, List.cons_append]
    · -- `a` stays behind, `b` is carried on
      obtain ⟨u', m, hlen, hperm, hmax, heq⟩ := ih b
      obtain ⟨hb, hu⟩ := List.forall_mem_cons.mp hmax
      refine ⟨a :: u', m, by simp [hlen], hperm.cons a, ?_, fun v => ?_⟩
      · exact List.forall_mem_cons.mpr ⟨by omega, hmax⟩
      · rw [List.cons_append, bubbleCarry, if_neg hlt, heq, List.cons_append]

/-- An element that is not above the sorted rest stays in front of it. -/
theorem bubbleCarry_sorted {a : α} {l : List α}
    (h : (a :: l).Pairwise fun x y => key x ≤ key y) : bubbleCarry key a l = a :: l := by
  induction l generalizing a with
  | nil => rfl
  | cons b l ih =>
    obtain ⟨ha, hl⟩ := List.pairwise_cons.mp h
    have hab := ha b (List.mem_cons_self ..)
    rw [bubbleCarry, if_neg (by omega), ih hl]

/-- The last `k` elements are sorted and none is below an element before them. -/
def Settled (key : α → Nat) (k : Nat) (l : List α) : Prop :=
  ∃ u v, l = u ++ v ∧ u.length = l.length - k ∧ v.Pairwise (fun x y => key x ≤ key y) ∧
    ∀ x ∈ u, ∀ y ∈ v, key x ≤ key y

theorem Settled.pass {k : Nat} {l : List α} (h : Settled key k l) :
    Settled key (k + 1) (bubblePass key l) := by
  obtain ⟨u, v, rfl, hlen, hv, huv⟩ := h
  cases u with
  | nil =>
    -- everything is settled already
    have hpass : bubblePass key v = v := by
      cases v with
      | nil => rfl
      | cons a v => exact bubbleCarry_sorted hv
    rw [List.nil_append, hpass]
    refine ⟨[], v, rfl, ?_, hv, by simp⟩
    simp only [List.nil_append, List.length_nil] at hlen ⊢
    omega
  | cons a u =>
    obtain ⟨u', m, hlen', hperm, hmax, heq⟩ := bubbleCarry_append key a u
    have hm : m ∈ a :: u := hperm.subset (by simp)
    have hsub : ∀ x ∈ u', x ∈ a :: u := fun x hx => hperm.subset (by simp [hx])
    have hmv : (m :: v).Pairwise fun x y => key x ≤ key y :=
      List.pairwise_cons.mpr ⟨fun y hy => huv m hm y hy, hv⟩
    have hpass : bubblePass key (a :: u ++ v) = u' ++ (m :: v) := by
      show bubbleCarry key a (u ++ v) = _
      rw [heq, bubbleCarry_sorted hmv]
    rw [hpass]
    refine ⟨u', m :: v, rfl, ?_, hmv, ?_⟩
    · simp only [List.length_append, List.length_cons] at hlen ⊢
      omega
    · rintro x hx y (_ | ⟨_, hy⟩)
      · exact hmax x (hsub x hx)
      · exact huv x (hsub x hx) y hy

theorem Settled.passes {k : Nat} (n : Nat) {l : List α} (h : Settled key k l) :
    Settled key (k + n) (bubblePasses key n l) := by
  induction n generalizing k l with
  | zero => exact h
  | succ n ih =>
    have hnext := ih h.pass
    rwa [show k + 1 + n = k + (n + 1) by omega] at hnext

theorem bubbleSort_pairwise (key : α → Nat) (l : List α) :
    (bubbleSort key l).Pairwise fun x y => key x ≤ key y := by
  have hstart : Settled key 0 l := ⟨l, [], by simp, by simp, by simp, by simp⟩
  obtain ⟨u, v, heq, hlen, hv, -⟩ := hstart.passes l.length
  have hl : (bubblePasses key l.length l).length = l.length := (bubblePasses_perm _ l).length_eq
  have hu : u = [] := List.length_eq_zero_iff.mp (by omega)
  rw [bubbleSort, heq, hu]
  exact hv

/-! ## Stability -/

theorem bubbleCarry_filter (a : α) (l : List α) (k : Nat) :
    (bubbleCarry key a l).filter (key · = k) = (a :: l).filter (key · = k) := by
  induction l generalizing a with
  | nil => rfl
  | cons b l ih =>
    rw [bubbleCarry]
    split
    next hlt =>
      -- two elements of one key are never exchanged
      have hne : ¬ (key a = k ∧ key b = k) := by omega
      rw [List.filter_cons, ih a]
      simp only [List.filter_cons, decide_eq_true_eq]
      split_ifs <;> simp_all
    next => rw [List.filter_cons, ih b, List.filter_cons (x := a)]

theorem bubblePass_filter (l : List α) (k : Nat) :
    (bubblePass key l).filter (key · = k) = l.filter (key · = k) := by
  cases l with
  | nil => rfl
  | cons a l => exact bubbleCarry_filter a l k

theorem bubblePasses_filter (n : Nat) (l : List α) (k : Nat) :
    (bubblePasses key n l).filter (key · = k) = l.filter (key · = k) := by
  induction n generalizing l with
  | zero => rfl
  | succ n ih => rw [bubblePasses, ih, bubblePass_filter]

/-- The sort is stable: the elements of one key keep their order. -/
theorem bubbleSort_filter (l : List α) (k : Nat) :
    (bubbleSort key l).filter (key · = k) = l.filter (key · = k) :=
  bubblePasses_filter _ l k

/-! ## The result as the concatenation of the buckets -/

/-- The elements of key `0`, then those of key `1`, and so on below `n`. -/
def grouped (key : α → Nat) (n : Nat) (l : List α) : List α :=
  (List.range n).flatMap fun k => l.filter (key · = k)

theorem grouped_succ (n : Nat) (l : List α) :
    grouped key (n + 1) l = grouped key n l ++ l.filter (key · = n) := by
  simp [grouped, List.range_succ]

/-- A sorted list is the concatenation of its buckets. -/
theorem grouped_of_pairwise {l : List α} (h : l.Pairwise fun x y => key x ≤ key y) (n : Nat) :
    grouped key n l = l.filter (key · < n) := by
  induction n with
  | zero => simp [grouped]
  | succ n ih =>
    rw [grouped_succ, ih]
    clear ih
    induction l with
    | nil => rfl
    | cons a l ihl =>
      obtain ⟨ha, hl⟩ := List.pairwise_cons.mp h
      have ihl := ihl hl
      simp only [List.filter_cons, decide_eq_true_eq]
      rcases Nat.lt_trichotomy (key a) n with hlt | heq | hgt
      · rw [if_pos hlt, if_neg (by omega), if_pos (by omega), List.cons_append, ihl]
      · -- nothing behind `a` has a smaller key
        have hnil : l.filter (key · < n) = [] := by
          refine List.filter_eq_nil_iff.mpr fun x hx => ?_
          have := ha x hx
          simp only [decide_eq_true_eq]
          omega
        rw [hnil, List.nil_append] at ihl
        rw [if_neg (by omega), if_pos heq, if_pos (by omega), hnil, List.nil_append, ihl]
      · rw [if_neg (by omega), if_neg (by omega), if_neg (by omega), ihl]

theorem bubbleSort_eq_grouped {n : Nat} {l : List α} (h : ∀ a ∈ l, key a < n) :
    bubbleSort key l = grouped key n l := by
  have hsorted := grouped_of_pairwise (bubbleSort_pairwise key l) n
  rw [List.filter_eq_self.mpr (fun a ha => by
    simpa using h a ((bubbleSort_perm key l).subset ha))] at hsorted
  rw [← hsorted]
  simp only [grouped, bubbleSort_filter]

/-! ## Where an element comes to be -/

theorem grouped_length (n : Nat) (l : List α) :
    (grouped key n l).length = l.countP (key · < n) := by
  induction n with
  | zero => simp [grouped]
  | succ n ih =>
    rw [grouped_succ, List.length_append, ih, ← List.countP_eq_length_filter]
    clear ih
    induction l with
    | nil => rfl
    | cons a l ihl =>
      simp only [List.countP_cons, decide_eq_true_eq]
      split_ifs <;> omega

/-- In a filtered list an element has as many before it as pass the filter before it. -/
theorem getElem?_filter_countP {p : α → Bool} {l : List α} {i : Nat} {a : α}
    (h : l[i]? = some a) (ha : p a = true) : (l.filter p)[(l.take i).countP p]? = some a := by
  induction l generalizing i with
  | nil => simp at h
  | cons b l ih =>
    cases i with
    | zero =>
      obtain rfl : b = a := by simpa using h
      rw [List.take_zero, List.countP_nil, List.filter_cons_of_pos ha, List.getElem?_cons_zero]
    | succ i =>
      rw [List.take_succ_cons, List.countP_cons]
      by_cases hb : p b = true
      · rw [if_pos hb, List.filter_cons_of_pos hb, List.getElem?_cons_succ]
        exact ih (by simpa using h)
      · rw [if_neg hb, List.filter_cons_of_neg hb]
        exact ih (by simpa using h)

theorem grouped_getElem? {n : Nat} {l : List α} {i : Nat} {a : α} (h : l[i]? = some a)
    (ha : key a < n) :
    (grouped key n l)[l.countP (key · < key a) + (l.take i).countP (key · = key a)]? = some a := by
  induction n with
  | zero => omega
  | succ n ih =>
    rw [grouped_succ]
    by_cases hlt : key a < n
    · have hat := ih hlt
      rwa [List.getElem?_append_left (List.getElem?_eq_some_iff.mp hat).1]
    · -- the last group
      obtain rfl : n = key a := by omega
      rw [List.getElem?_append_right (by rw [grouped_length]; omega), grouped_length,
        Nat.add_sub_cancel_left]
      exact getElem?_filter_countP h (by simp)

theorem exists_key_lt (key : α → Nat) (l : List α) : ∃ n, ∀ a ∈ l, key a < n := by
  induction l with
  | nil => exact ⟨0, by simp⟩
  | cons a l ih =>
    obtain ⟨n, hn⟩ := ih
    refine ⟨max n (key a + 1), List.forall_mem_cons.mpr ⟨by omega, fun b hb => ?_⟩⟩
    have := hn b hb
    omega

/-- An element of the list comes behind those with a smaller key and behind those with the same
key that are before it. -/
theorem bubbleSort_getElem? {l : List α} {i : Nat} {a : α} (h : l[i]? = some a) :
    (bubbleSort key l)[l.countP (key · < key a) + (l.take i).countP (key · = key a)]? = some a := by
  obtain ⟨n, hbound⟩ := exists_key_lt key l
  rw [bubbleSort_eq_grouped hbound]
  exact grouped_getElem? h (hbound a (List.mem_of_getElem? h))

end Pebil

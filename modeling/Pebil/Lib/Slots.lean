import Mathlib.Algebra.BigOperators.Group.Finset.Basic
import Mathlib.Algebra.GroupWithZero.Nat
import Mathlib.Data.List.Basic
import Mathlib.Data.Sum.Basic

/-!
# Items and the fillers between them

A list of items (`inl`) and fillers (`inr`) is its items in order and, for every `g`, the
fillers of slot `g`, those with `g` items in front of them. It is determined by these
(`Slots.ext`).

`insertSlot` puts a filler to the front of a slot, `insertAt` to a position of the list.
The two agree if the position is that of an item before which nothing has been filled in.
In general a filler at position `i` lands in the slot whose number is the number of items
before it, which is at most `i`. `weight` adds up the sizes of the fillers, each times its
slot, so that it tells whether some filler has landed in front of where it belongs.
-/

namespace Pebil

namespace Slots

variable {α β : Type*}

/-- The items. -/
def items : List (α ⊕ β) → List α
  | [] => []
  | .inl a :: l => a :: items l
  | .inr _ :: l => items l

/-- The fillers that have `g` items in front of them. -/
def slot : Nat → List (α ⊕ β) → List β
  | _, [] => []
  | 0, .inl _ :: _ => []
  | g + 1, .inl _ :: l => slot g l
  | 0, .inr b :: l => b :: slot 0 l
  | g + 1, .inr _ :: l => slot (g + 1) l

/-- A filler at a position of the list. -/
def insertAt (i : Nat) (b : β) (l : List (α ⊕ β)) : List (α ⊕ β) :=
  l.take i ++ .inr b :: l.drop i

/-- A filler in front of the others of its slot. -/
def insertSlot : Nat → β → List (α ⊕ β) → List (α ⊕ β)
  | 0, b, l => .inr b :: l
  | _ + 1, _, [] => []
  | g + 1, b, .inl a :: l => .inl a :: insertSlot g b l
  | g + 1, b, .inr c :: l => .inr c :: insertSlot (g + 1) b l

/-- Some fillers at a position, one after the other. -/
def insertAllAt (i : Nat) (bs : List β) (l : List (α ⊕ β)) : List (α ⊕ β) :=
  bs.foldl (fun l b => insertAt i b l) l

/-- Some fillers in front of a slot, one after the other. -/
def fillSlot (g : Nat) (bs : List β) (l : List (α ⊕ β)) : List (α ⊕ β) :=
  bs.foldl (fun l b => insertSlot g b l) l

variable {l l' : List (α ⊕ β)} {a : α} {b c : β} {bs : List β} {g h i j : Nat}

@[simp] theorem items_append : items (l ++ l') = items l ++ items l' := by
  induction l with
  | nil => rfl
  | cons e l ih => cases e <;> simp [items, ih]

@[simp] theorem items_map_inl (as : List α) : items (as.map (.inl : α → α ⊕ β)) = as := by
  induction as with
  | nil => rfl
  | cons a as ih => simp [items, ih]

@[simp] theorem slot_map_inl (as : List α) : slot g (as.map (.inl : α → α ⊕ β)) = [] := by
  induction as generalizing g with
  | nil => rfl
  | cons a as ih => cases g <;> simp [slot, ih]

theorem items_length_le (l : List (α ⊕ β)) : (items l).length ≤ l.length := by
  induction l with
  | nil => simp [items]
  | cons e l ih => cases e <;> simp [items] <;> omega

theorem mem_items : a ∈ items l ↔ .inl a ∈ l := by
  induction l with
  | nil => simp [items]
  | cons e l ih => cases e <;> simp [items, ih]

theorem exists_mem_slot (hb : .inr b ∈ l) : ∃ g, b ∈ slot g l := by
  induction l with
  | nil => cases hb
  | cons e l ih =>
    rcases List.mem_cons.mp hb with rfl | hb
    · exact ⟨0, List.mem_cons_self⟩
    · obtain ⟨g, hg⟩ := ih hb
      cases e with
      | inl a => exact ⟨g + 1, hg⟩
      | inr c =>
        cases g with
        | zero => exact ⟨0, List.mem_cons_of_mem c hg⟩
        | succ g => exact ⟨g + 1, hg⟩

/-- The items and the slots make up the list. -/
theorem ext (hitems : items l = items l') (hslots : ∀ g, slot g l = slot g l') : l = l' := by
  induction l generalizing l' with
  | nil =>
    cases l' with
    | nil => rfl
    | cons e l' =>
      cases e with
      | inl a => cases hitems
      | inr b => cases hslots 0
  | cons e l ih =>
    cases e with
    | inl a =>
      cases l' with
      | nil => cases hitems
      | cons e' l' =>
        cases e' with
        | inl a' =>
          obtain ⟨rfl, htail⟩ := List.cons.inj hitems
          rw [ih htail fun g => hslots (g + 1)]
        | inr b => cases hslots 0
    | inr b =>
      cases l' with
      | nil => cases hslots 0
      | cons e' l' =>
        cases e' with
        | inl a' => cases hslots 0
        | inr b' =>
          obtain ⟨rfl, hzero⟩ := List.cons.inj (hslots 0)
          have htail : ∀ g, slot g l = slot g l' := by
            intro g
            cases g with
            | zero => exact hzero
            | succ g => exact hslots (g + 1)
          have hrest : items l = items l' := hitems
          rw [ih hrest htail]

/-! ## Filling a slot -/

@[simp] theorem items_insertSlot : items (insertSlot g b l) = items l := by
  induction l generalizing g with
  | nil => cases g <;> simp [insertSlot, items]
  | cons e l ih => cases g <;> cases e <;> simp [insertSlot, items, ih]

/-- The filler comes to the front of its slot, and the other slots stay the same. -/
theorem slot_insertSlot (hg : g ≤ (items l).length) :
    slot h (insertSlot g b l) = if h = g then b :: slot h l else slot h l := by
  induction l generalizing g h with
  | nil =>
    obtain rfl : g = 0 := by simpa [items] using hg
    cases h <;> simp [insertSlot, slot]
  | cons e l ih =>
    cases g with
    | zero => cases h <;> simp [insertSlot, slot]
    | succ g =>
      cases e with
      | inl a =>
        have hg : g ≤ (items l).length := Nat.le_of_succ_le_succ hg
        cases h with
        | zero => simp [insertSlot, slot]
        | succ h => simp [insertSlot, slot, ih hg]
      | inr c =>
        have hg : g + 1 ≤ (items l).length := hg
        cases h with
        | zero => simp [insertSlot, slot, ih hg]
        | succ h => simp [insertSlot, slot, ih hg]

@[simp] theorem items_fillSlot : items (fillSlot g bs l) = items l := by
  unfold fillSlot
  induction bs generalizing l with
  | nil => rfl
  | cons b bs ih => rw [List.foldl_cons, ih, items_insertSlot]

theorem slot_fillSlot (hg : g ≤ (items l).length) :
    slot h (fillSlot g bs l) = if h = g then bs.reverse ++ slot h l else slot h l := by
  unfold fillSlot
  induction bs generalizing l with
  | nil => simp
  | cons b bs ih =>
    rw [List.foldl_cons, ih (by rwa [items_insertSlot]), slot_insertSlot hg]
    split <;> simp

/-! ## Inserting at a position -/

@[simp] theorem items_insertAt : items (insertAt i b l) = items l := by
  unfold insertAt
  rw [items_append, items, ← items_append, List.take_append_drop]

theorem length_insertAt : (insertAt i b l).length = l.length + 1 := by
  unfold insertAt
  rw [List.length_append, List.length_cons, ← Nat.add_assoc, ← List.length_append,
    List.take_append_drop]

/-- Where nothing is filled in before the position, it is the number of the slot. -/
theorem insertAt_eq_insertSlot {as : List α} (htake : l.take i = as.map .inl)
    (hi : i ≤ l.length) : insertAt i b l = insertSlot i b l := by
  induction l generalizing i as with
  | nil =>
    obtain rfl : i = 0 := by simpa using hi
    rfl
  | cons e l ih =>
    cases i with
    | zero => rfl
    | succ i =>
      cases as with
      | nil => simp at htake
      | cons a as =>
        rw [List.take_succ_cons, List.map_cons] at htake
        obtain ⟨rfl, hrest⟩ := List.cons.inj htake
        have h := ih hrest (by simpa using hi)
        simp only [insertAt, insertSlot, List.take_succ_cons, List.drop_succ_cons,
          List.cons_append] at h ⊢
        rw [h]

/-- What is before the position stays. -/
theorem take_insertAt (hij : j ≤ i) (hi : i ≤ l.length) :
    (insertAt i b l).take j = l.take j := by
  unfold insertAt
  rw [List.take_append_of_le_length (by rw [List.length_take]; omega), List.take_take,
    Nat.min_eq_left hij]

/-- The position has the filler, and a later one does not move it. -/
theorem getElem?_insertAt (hij : j ≤ i) (hi : i ≤ l.length) :
    (insertAt i b l)[j]? = if j = i then some (.inr b) else l[j]? := by
  unfold insertAt
  rcases Nat.lt_or_eq_of_le hij with hlt | rfl
  · rw [List.getElem?_append_left (by rw [List.length_take]; omega), List.getElem?_take,
      if_pos hlt, if_neg (by omega)]
  · have hlength : (l.take j).length = j := by rw [List.length_take]; omega
    rw [List.getElem?_append_right (by omega), hlength, Nat.sub_self, if_pos rfl]
    rfl

@[simp] theorem items_insertAllAt : items (insertAllAt i bs l) = items l := by
  unfold insertAllAt
  induction bs generalizing l with
  | nil => rfl
  | cons b bs ih => rw [List.foldl_cons, ih, items_insertAt]

theorem length_insertAllAt : (insertAllAt i bs l).length = l.length + bs.length := by
  unfold insertAllAt
  induction bs generalizing l with
  | nil => rfl
  | cons b bs ih =>
    rw [List.foldl_cons, ih, length_insertAt, List.length_cons]
    omega

theorem take_insertAllAt (hij : j ≤ i) (hi : i ≤ l.length) :
    (insertAllAt i bs l).take j = l.take j := by
  unfold insertAllAt
  induction bs generalizing l with
  | nil => rfl
  | cons b bs ih =>
    rw [List.foldl_cons, ih (by rw [length_insertAt]; omega), take_insertAt hij hi]

theorem insertAllAt_eq_fillSlot {as : List α} (htake : l.take i = as.map .inl)
    (hi : i ≤ l.length) : insertAllAt i bs l = fillSlot i bs l := by
  unfold insertAllAt fillSlot
  induction bs generalizing l with
  | nil => rfl
  | cons b bs ih =>
    rw [List.foldl_cons, List.foldl_cons, ← insertAt_eq_insertSlot htake hi]
    refine ih ?_ (by rw [length_insertAt]; omega)
    rw [take_insertAt (Nat.le_refl i) hi, htake]

/-- After fillers were inserted at a position, one of them is there. -/
theorem getElem?_insertAllAt (hi : i ≤ l.length) (hbs : bs ≠ []) :
    ∃ b, (insertAllAt i bs l)[i]? = some (.inr b) := by
  induction bs generalizing l with
  | nil => exact absurd rfl hbs
  | cons b bs ih =>
    rw [insertAllAt, List.foldl_cons]
    cases bs with
    | nil =>
      refine ⟨b, ?_⟩
      rw [List.foldl_nil, getElem?_insertAt (Nat.le_refl i) hi, if_pos rfl]
    | cons c bs => exact ih (by rw [length_insertAt]; omega) (by simp)

/-- A filler stays where it is when others are inserted behind it. -/
theorem getElem?_insertAllAt_of_lt (hji : j < i) (hi : i ≤ l.length) :
    (insertAllAt i bs l)[j]? = l[j]? := by
  have htake : (insertAllAt i bs l).take i = l.take i := take_insertAllAt (Nat.le_refl i) hi
  have hget := congrArg (fun t : List (α ⊕ β) => t[j]?) htake
  simpa [List.getElem?_take, hji] using hget

/-! ## Weights -/

section Weight

variable (size : β → Nat)

/-- The size of all fillers. -/
def total : List (α ⊕ β) → Nat
  | [] => 0
  | .inl _ :: l => total l
  | .inr b :: l => size b + total l

/-- The sizes of the fillers, each times the number of items before it, when `c` items are
in front of the list. -/
def weight (c : Nat) : List (α ⊕ β) → Nat
  | [] => 0
  | .inl _ :: l => weight (c + 1) l
  | .inr b :: l => c * size b + weight c l

variable {size} {n : Nat}

theorem total_append : total size (l ++ l') = total size l + total size l' := by
  induction l with
  | nil => simp [total]
  | cons e l ih =>
    cases e
    · simp [total, ih]
    · simp only [List.cons_append, total, ih]
      omega

theorem weight_append :
    weight size n (l ++ l') = weight size n l + weight size (n + (items l).length) l' := by
  induction l generalizing n with
  | nil => simp [weight, items]
  | cons e l ih =>
    cases e
    · simp only [List.cons_append, weight, ih, items, List.length_cons]
      rw [Nat.add_right_comm n 1, Nat.add_assoc n]
    · simp only [List.cons_append, weight, ih, items]
      omega

theorem total_insertAt : total size (insertAt i b l) = total size l + size b := by
  have hl : total size (l.take i ++ l.drop i) = total size l := by rw [List.take_append_drop]
  unfold insertAt
  rw [total_append] at hl ⊢
  rw [total]
  omega

theorem total_insertSlot (hg : g ≤ (items l).length) :
    total size (insertSlot g b l) = total size l + size b := by
  induction l generalizing g with
  | nil =>
    obtain rfl : g = 0 := by simpa [items] using hg
    simp [insertSlot, total]
  | cons e l ih =>
    cases g with
    | zero => simp [insertSlot, total, Nat.add_comm]
    | succ g =>
      cases e with
      | inl a => simp only [insertSlot, total, ih (Nat.le_of_succ_le_succ hg)]
      | inr c =>
        have hg : g + 1 ≤ (items l).length := hg
        simp only [insertSlot, total, ih hg]
        omega

/-- A filler weighs its size times the number of items before it. -/
theorem weight_insertAt :
    weight size 0 (insertAt i b l) = weight size 0 l + (items (l.take i)).length * size b := by
  have hl : weight size 0 (l.take i ++ l.drop i) = weight size 0 l := by
    rw [List.take_append_drop]
  unfold insertAt
  rw [weight_append] at hl ⊢
  rw [weight, Nat.zero_add] at *
  omega

theorem weight_insertSlot (hg : g ≤ (items l).length) :
    weight size n (insertSlot g b l) = weight size n l + (n + g) * size b := by
  induction l generalizing g n with
  | nil =>
    obtain rfl : g = 0 := by simpa [items] using hg
    simp [insertSlot, weight]
  | cons e l ih =>
    cases g with
    | zero => simp [insertSlot, weight, Nat.add_comm]
    | succ g =>
      cases e with
      | inl a =>
        simp only [insertSlot, weight, ih (Nat.le_of_succ_le_succ hg)]
        rw [Nat.add_right_comm, Nat.add_assoc n]
      | inr c =>
        have hg : g + 1 ≤ (items l).length := hg
        simp only [insertSlot, weight, ih hg]
        omega

theorem total_insertAllAt :
    total size (insertAllAt i bs l) = total size l + (bs.map size).sum := by
  unfold insertAllAt
  induction bs generalizing l with
  | nil => rfl
  | cons b bs ih =>
    rw [List.foldl_cons, ih, total_insertAt, List.map_cons, List.sum_cons]
    omega

theorem total_fillSlot (hg : g ≤ (items l).length) :
    total size (fillSlot g bs l) = total size l + (bs.map size).sum := by
  unfold fillSlot
  induction bs generalizing l with
  | nil => rfl
  | cons b bs ih =>
    rw [List.foldl_cons, ih (by rwa [items_insertSlot]), total_insertSlot hg, List.map_cons,
      List.sum_cons]
    omega

theorem weight_insertAllAt (hi : i ≤ l.length) : weight size 0 (insertAllAt i bs l) =
    weight size 0 l + (items (l.take i)).length * (bs.map size).sum := by
  unfold insertAllAt
  induction bs generalizing l with
  | nil => simp
  | cons b bs ih =>
    rw [List.foldl_cons, ih (by rw [length_insertAt]; omega), weight_insertAt,
      take_insertAt (Nat.le_refl i) hi, List.map_cons, List.sum_cons, Nat.mul_add]
    omega

theorem weight_fillSlot (hg : g ≤ (items l).length) : weight size 0 (fillSlot g bs l) =
    weight size 0 l + g * (bs.map size).sum := by
  unfold fillSlot
  induction bs generalizing l with
  | nil => simp
  | cons b bs ih =>
    rw [List.foldl_cons, ih (by rwa [items_insertSlot]), weight_insertSlot hg, List.map_cons,
      List.sum_cons, Nat.mul_add, Nat.zero_add]
    omega

/-- The sizes of the fillers are those in the slots. -/
theorem total_eq_sum (l : List (α ⊕ β)) : total size l =
    ∑ g ∈ Finset.range ((items l).length + 1), ((slot g l).map size).sum := by
  induction l with
  | nil => simp [total, items, slot]
  | cons e l ih =>
    cases e with
    | inl a => simp [total, items, slot, ih, Finset.sum_range_succ' _ ((items l).length + 1)]
    | inr b =>
      rw [total, ih, items, Finset.sum_range_succ', Finset.sum_range_succ']
      simp only [slot, List.map_cons, List.sum_cons]
      omega

/-- A slot weighs its sizes, each times the number of items in front. -/
theorem weight_eq_sum (l : List (α ⊕ β)) : weight size n l =
    ∑ g ∈ Finset.range ((items l).length + 1), (n + g) * ((slot g l).map size).sum := by
  induction l generalizing n with
  | nil => simp [weight, items, slot]
  | cons e l ih =>
    cases e with
    | inl a =>
      rw [weight, ih, items, List.length_cons, Finset.sum_range_succ' _ ((items l).length + 1)]
      simp [slot, Nat.add_right_comm n 1, Nat.add_assoc n]
    | inr b =>
      rw [weight, ih, items, Finset.sum_range_succ', Finset.sum_range_succ']
      simp only [slot, List.map_cons, List.sum_cons, Nat.add_zero, Nat.mul_add]
      omega

end Weight

/-! ## What is in front of a slot -/

/-- What is in front of a slot. -/
def before : Nat → List (α ⊕ β) → List (α ⊕ β)
  | 0, _ => []
  | _ + 1, [] => []
  | g + 1, .inl a :: l => .inl a :: before g l
  | g + 1, .inr b :: l => .inr b :: before (g + 1) l

@[simp] theorem before_zero : before 0 l = [] := by
  cases l <;> rfl

/-- A slot comes directly behind what is in front of it. -/
theorem exists_eq_before (l : List (α ⊕ β)) (g : Nat) :
    ∃ rest, l = before g l ++ ((slot g l).map .inr ++ rest) := by
  induction l generalizing g with
  | nil => cases g <;> exact ⟨[], rfl⟩
  | cons e l ih =>
    cases e with
    | inl a =>
      cases g with
      | zero => exact ⟨_, rfl⟩
      | succ g =>
        obtain ⟨rest, hrest⟩ := ih g
        exact ⟨rest, congrArg (.inl a :: ·) hrest⟩
    | inr b =>
      obtain ⟨rest, hrest⟩ := ih g
      cases g with
      | zero =>
        rw [before_zero, List.nil_append] at hrest
        refine ⟨rest, ?_⟩
        rw [before_zero, List.nil_append]
        exact congrArg (.inr b :: ·) hrest
      | succ g => exact ⟨rest, congrArg (.inr b :: ·) hrest⟩

/-- In front of the next slot there is the item behind the slot in addition. -/
theorem before_succ (h : (items l)[g]? = some a) :
    before (g + 1) l = before g l ++ ((slot g l).map .inr ++ [.inl a]) := by
  induction l generalizing g with
  | nil => simp [items] at h
  | cons e l ih =>
    cases e with
    | inl a' =>
      cases g with
      | zero =>
        obtain rfl : a' = a := by simpa [items] using h
        cases l <;> rfl
      | succ g => exact congrArg (.inl a' :: ·) (ih (by simpa [items] using h))
    | inr b =>
      have hrest := ih (g := g) h
      cases g with
      | zero =>
        rw [before_zero, List.nil_append] at hrest ⊢
        exact congrArg (.inr b :: ·) hrest
      | succ g => exact congrArg (.inr b :: ·) hrest

theorem items_before (hg : g ≤ (items l).length) : items (before g l) = (items l).take g := by
  induction l generalizing g with
  | nil => cases g <;> rfl
  | cons e l ih =>
    cases g with
    | zero => simp [before, items]
    | succ g =>
      cases e with
      | inl a => simp only [before, items, List.take_succ_cons, ih (Nat.le_of_succ_le_succ hg)]
      | inr b => simp only [before, items, ih (g := g + 1) hg]

/-- There are as many items as positions before `i` only if nothing is filled in there. -/
theorem take_eq_of_items (hi : i ≤ l.length) (h : (items (l.take i)).length = i) :
    l.take i = (items (l.take i)).map .inl := by
  have hlength : (l.take i).length = (items (l.take i)).length := by
    rw [List.length_take]
    omega
  generalize l.take i = t at hlength
  induction t with
  | nil => rfl
  | cons e t ih =>
    cases e with
    | inl a =>
      rw [items, List.map_cons, ← ih (by simpa [items] using hlength)]
    | inr b =>
      have := items_length_le t
      simp only [items, List.length_cons] at hlength
      omega

end Slots

end Pebil

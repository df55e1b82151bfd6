import Mathlib.Data.List.Perm.Subperm
import Mathlib.Logic.Function.Basic
import Mathlib.Logic.Relation

/-!
# Climbing along pointers

A table of pointers is a function on the natural numbers with 0 for null. `Climb up x l` says that
the climb from `x` ends and that `l` is what it passes, `x` and the end included; `Up up x y` says
that it passes `y`. A climb passes nothing twice. A `jump` lets one element point to where the next
one does, and this leaves out the next one at most (`Up.jump`).

`StandFor` compares the values on a climb with those it stands for: it has one that is not larger
than each of these, and what it has beside them is larger than some of them. So its least element
is the least of these, and it may lose or get elements with `StandFor.shrink` and `StandFor.insert`.
-/

namespace Pebil

open Relation (ReflTransGen)
open Function (update)

/-- The elements from `x` up to one that points to null. -/
inductive Climb (up : Nat → Nat) : Nat → List Nat → Prop where
  | top {x} : up x = 0 → Climb up x [x]
  | step {x l} : up x ≠ 0 → Climb up (up x) l → Climb up x (x :: l)

/-- The climb from `x` passes `y`. -/
def Up (up : Nat → Nat) : Nat → Nat → Prop := ReflTransGen fun x y => up x = y ∧ y ≠ 0

variable {up up' : Nat → Nat} {x y v : Nat} {l l' : List Nat}

namespace Climb

theorem mem_self (h : Climb up x l) : x ∈ l := by
  cases h with
  | top _ => exact List.mem_singleton_self x
  | step _ _ => exact List.mem_cons_self

theorem unique (h : Climb up x l) (h' : Climb up x l') : l = l' := by
  induction h generalizing l' with
  | top hx =>
    cases h' with
    | top _ => rfl
    | step hne _ => exact absurd hx hne
  | step hne _ ih =>
    cases h' with
    | top hx => exact absurd hx hne
    | step _ h' => rw [ih h']

theorem suffix (h : Climb up x l) (hy : y ∈ l) : ∃ l', Climb up y l' ∧ l' <:+ l := by
  induction h with
  | @top x hx =>
    obtain rfl := List.mem_singleton.mp hy
    exact ⟨[y], .top hx, List.suffix_refl _⟩
  | @step x l hne h ih =>
    rcases List.mem_cons.mp hy with rfl | hy
    · exact ⟨y :: l, .step hne h, List.suffix_refl _⟩
    · obtain ⟨l', hl', hsuffix⟩ := ih hy
      exact ⟨l', hl', hsuffix.trans (List.suffix_cons x l)⟩

theorem nodup (h : Climb up x l) : l.Nodup := by
  induction h with
  | top _ => exact List.pairwise_singleton _ _
  | @step x l hne h ih =>
    refine List.nodup_cons.mpr ⟨fun hx => ?_, ih⟩
    -- the climb from `x` would be a part of itself
    obtain ⟨l', hl', hsuffix⟩ := h.suffix hx
    have hlen := hsuffix.length_le
    rw [← (Climb.step hne h).unique hl'] at hlen
    exact absurd hlen (Nat.not_succ_le_self _)

theorem up_ne (h : Climb up x l) (hx : up x ≠ 0) : up x ≠ x := by
  cases h with
  | top hx' => exact absurd hx' hx
  | step _ h' =>
    intro heq
    exact (List.nodup_cons.mp (Climb.step hx h').nodup).1 (heq ▸ h'.mem_self)

theorem mem_iff (h : Climb up x l) : y ∈ l ↔ Up up x y := by
  constructor
  · intro hy
    induction h with
    | top _ =>
      obtain rfl := List.mem_singleton.mp hy
      exact .refl
    | step hne _ ih =>
      rcases List.mem_cons.mp hy with rfl | hy
      · exact .refl
      · exact .head ⟨rfl, hne⟩ (ih hy)
  · intro hy
    induction hy with
    | refl => exact h.mem_self
    | @tail a b _ hab ih =>
      obtain ⟨l', hl', hsuffix⟩ := h.suffix ih
      cases hl' with
      | top ha => exact absurd (hab.1.symm.trans ha) hab.2
      | step _ hl' => exact hsuffix.subset (List.mem_cons_of_mem _ (hab.1 ▸ hl'.mem_self))

theorem congr (h : Climb up x l) (heq : ∀ y ∈ l, up' y = up y) : Climb up' x l := by
  induction h with
  | @top x hx => exact .top ((heq x (List.mem_singleton_self x)).trans hx)
  | @step x l hne h ih =>
    have hx := heq x List.mem_cons_self
    refine .step (hx ▸ hne) ?_
    rw [hx]
    exact ih fun y hy => heq y (List.mem_cons_of_mem _ hy)

theorem of_up (h : Up up x y) (hy : up y = 0) : ∃ l, Climb up x l := by
  induction h using ReflTransGen.head_induction_on with
  | refl => exact ⟨[y], .top hy⟩
  | @head a b hab _ ih =>
    obtain ⟨l, hl⟩ := ih
    obtain ⟨rfl, hne⟩ := hab
    exact ⟨a :: l, .step hne hl⟩

theorem exists_top (h : Climb up x l) : ∃ t, Up up x t ∧ up t = 0 := by
  induction h with
  | @top x hx => exact ⟨x, .refl, hx⟩
  | step hne _ ih =>
    obtain ⟨t, ht, htop⟩ := ih
    exact ⟨t, .head ⟨rfl, hne⟩ ht, htop⟩

theorem length_le (h : Climb up x l) {n : Nat} (hl : ∀ y ∈ l, y ≠ 0 ∧ y ≤ n) : l.length ≤ n := by
  have hnodup : (0 :: l).Nodup := List.nodup_cons.mpr ⟨fun h0 => (hl 0 h0).1 rfl, h.nodup⟩
  have hsub : 0 :: l ⊆ List.range (n + 1) := List.cons_subset.mpr
    ⟨List.mem_range.mpr (Nat.succ_pos n), fun y hy =>
      List.mem_range.mpr (Nat.lt_succ_of_le (hl y hy).2)⟩
  have hlen := (List.subperm_of_subset hnodup hsub).length_le
  rw [List.length_cons, List.length_range] at hlen
  exact Nat.le_of_succ_le_succ hlen

/-- A jump leaves a climb that ends. -/
theorem jump (h : Climb up x l) (hv : up v ≠ 0) (hvv : up (up v) ≠ 0) :
    ∃ l', Climb (update up v (up (up v))) x l' := by
  induction h with
  | @top x hx =>
    have hxv : x ≠ v := fun heq => hv (heq ▸ hx)
    exact ⟨[x], .top (by rw [Function.update_of_ne hxv, hx])⟩
  | @step x l hne h ih =>
    obtain ⟨l', hl'⟩ := ih
    by_cases hxv : x = v
    · subst hxv
      have hup : up x ≠ x := (Climb.step hne h).up_ne hne
      cases hl' with
      | top htop =>
        rw [Function.update_of_ne hup] at htop
        exact absurd htop hvv
      | @step _ l' _ hl' =>
        rw [Function.update_of_ne hup] at hl'
        refine ⟨x :: l', .step ?_ ?_⟩
        · rwa [Function.update_self]
        · rwa [Function.update_self]
    · refine ⟨x :: l', .step ?_ ?_⟩
      · rwa [Function.update_of_ne hxv]
      · rwa [Function.update_of_ne hxv]

end Climb

namespace Up

theorem single (hx : up x ≠ 0) : Up up x (up x) := ReflTransGen.single ⟨rfl, hx⟩

theorem mono (h : Up up x y) (heq : ∀ a, up a ≠ 0 → up' a = up a) : Up up' x y := by
  refine ReflTransGen.mono (fun a b hab => ⟨?_, hab.2⟩) _ _ h
  rw [heq a (fun ha => hab.2 (hab.1.symm.trans ha)), hab.1]

/-- From an element that points to null nothing else is passed. -/
theorem eq_of_top (h : Up up x y) (hx : up x = 0) : y = x := by
  cases ReflTransGen.cases_head h with
  | inl heq => exact heq.symm
  | inr hstep =>
    obtain ⟨b, hb, -⟩ := hstep
    exact absurd (hb.1.symm.trans hx) hb.2

/-- A climb of one step. -/
theorem eq_or_eq (h : Up up x y) (hx : up (up x) = 0) : y = x ∨ y = up x := by
  cases ReflTransGen.cases_head h with
  | inl heq => exact .inl heq.symm
  | inr hstep =>
    obtain ⟨b, hb, hby⟩ := hstep
    obtain ⟨rfl, -⟩ := hb
    exact .inr (eq_of_top hby hx)

theorem of_jump (hv : up v ≠ 0) (h : Up (update up v (up (up v))) x y) : Up up x y := by
  induction h with
  | refl => exact .refl
  | @tail a b _ hab ih =>
    by_cases hav : a = v
    · subst hav
      rw [Function.update_self] at hab
      exact (ReflTransGen.tail ih ⟨rfl, hv⟩).tail hab
    · rw [Function.update_of_ne hav] at hab
      exact ih.tail hab

/-- What a jump may leave out. -/
theorem jump (h : Up up x y) :
    Up (update up v (up (up v))) x y ∨ y = up v ∧ Up (update up v (up (up v))) x v := by
  induction h with
  | refl => exact .inl .refl
  | @tail a b _ hab ih =>
    rcases ih with ih | ⟨rfl, ih⟩
    · by_cases hav : a = v
      · subst hav
        exact .inr ⟨hab.1.symm, ih⟩
      · exact .inl (ih.tail ⟨by rw [Function.update_of_ne hav, hab.1], hab.2⟩)
    · exact .inl (ih.tail ⟨by rw [Function.update_self, hab.1], hab.2⟩)

end Up

/-! ## Values that stand for others -/

section StandFor

variable {α : Type} {value : α → Nat} {C L L' : α → Prop} {a w z : α}

/-- The values of `L` stand for those of `C`. -/
def StandFor (value : α → Nat) (C L : α → Prop) : Prop :=
  (∀ z, C z → ∃ a, L a ∧ value a ≤ value z) ∧ ∀ a, L a → C a ∨ ∃ z, C z ∧ value z < value a

theorem StandFor.least (h : StandFor value C L) (ha : L a) (hle : ∀ b, L b → value a ≤ value b) :
    C a ∧ ∀ z, C z → value a ≤ value z := by
  have hall : ∀ z, C z → value a ≤ value z := fun z hz => by
    obtain ⟨b, hb, hbz⟩ := h.1 z hz
    exact Nat.le_trans (hle b hb) hbz
  refine ⟨(h.2 a ha).resolve_right ?_, hall⟩
  rintro ⟨z, hz, hlt⟩
  exact absurd (hall z hz) (Nat.not_le_of_lt hlt)

theorem StandFor.shrink (h : StandFor value C L) (hsub : ∀ a, L' a → L a)
    (hle : ∀ a, L a → ∃ b, L' b ∧ value b ≤ value a) : StandFor value C L' := by
  refine ⟨fun z hz => ?_, fun a ha => h.2 a (hsub a ha)⟩
  obtain ⟨a, ha, haz⟩ := h.1 z hz
  obtain ⟨b, hb, hba⟩ := hle a ha
  exact ⟨b, hb, Nat.le_trans hba haz⟩

/-- A new value `w` to stand for; elements larger than it may come and go. -/
theorem StandFor.insert (h : StandFor value C L)
    (hsub : ∀ a, L' a → L a ∨ a = w ∨ value w < value a)
    (hle : ∀ a, L a → ∃ b, L' b ∧ value b ≤ value a) (hw : ∃ b, L' b ∧ value b ≤ value w) :
    StandFor value (fun z => z = w ∨ C z) L' := by
  constructor
  · rintro z (rfl | hz)
    · exact hw
    · obtain ⟨a, ha, haz⟩ := h.1 z hz
      obtain ⟨b, hb, hba⟩ := hle a ha
      exact ⟨b, hb, Nat.le_trans hba haz⟩
  · intro a ha
    rcases hsub a ha with ha | rfl | hlt
    · exact (h.2 a ha).imp .inr fun ⟨z, hz, hlt⟩ => ⟨z, .inr hz, hlt⟩
    · exact .inl (.inl rfl)
    · exact .inr ⟨w, .inl rfl, hlt⟩

end StandFor

end Pebil

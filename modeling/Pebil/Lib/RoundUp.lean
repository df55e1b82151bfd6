import Mathlib.Algebra.Order.Group.Nat
import Mathlib.Data.Nat.Basic
import Mathlib.Order.Bounds.Basic

/-!
# Rounding up to alignments

`roundUp a e` is the least multiple of `a` from `e` on; the alignment 0 asks for nothing.
Alignments are powers of two, so that of two the smaller divides the larger: rounding to
several of them in turn is rounding to the strictest once (`roundUp_roundUp`).
-/

namespace Pebil

/-- The least multiple of `a` that is not below `e`. -/
def roundUp (a e : Nat) : Nat := if a = 0 then e else (e + (a - 1)) / a * a

/-- An alignment: none at all, or a power of two. -/
def IsAlignment (a : Nat) : Prop := a = 0 ∨ ∃ k, a = 2 ^ k

/-- The strictest of some alignments, at least 1. -/
def strictest (as : List Nat) : Nat := as.foldr max 1

/-- `x` is aligned to `a`; everything is to 0. -/
def AlignedTo (a x : Nat) : Prop := a = 0 ∨ a ∣ x

variable {a b e x : Nat} {as bs : List Nat}

@[simp] theorem roundUp_zero_left (e : Nat) : roundUp 0 e = e := if_pos rfl

theorem roundUp_of_pos (ha : 0 < a) (e : Nat) : roundUp a e = (e + (a - 1)) / a * a :=
  if_neg ha.ne'

@[simp] theorem roundUp_one (e : Nat) : roundUp 1 e = e := by
  rw [roundUp_of_pos Nat.one_pos, Nat.sub_self, Nat.add_zero, Nat.div_one, Nat.mul_one]

theorem le_roundUp (a e : Nat) : e ≤ roundUp a e := by
  rcases Nat.eq_zero_or_pos a with rfl | ha
  · rw [roundUp_zero_left]
  · rw [roundUp_of_pos ha]
    have hdiv := Nat.lt_div_mul_add ha (a := e + (a - 1))
    omega

theorem dvd_roundUp (ha : 0 < a) (e : Nat) : a ∣ roundUp a e := by
  rw [roundUp_of_pos ha]
  exact Nat.dvd_mul_left ..

/-- It is the least such multiple. -/
theorem roundUp_le (ha : 0 < a) (hx : a ∣ x) (he : e ≤ x) : roundUp a e ≤ x := by
  obtain ⟨q, rfl⟩ := hx
  rw [roundUp_of_pos ha, Nat.mul_comm a q]
  refine Nat.mul_le_mul_right a (Nat.lt_succ_iff.mp ((Nat.div_lt_iff_lt_mul ha).mpr ?_))
  rw [Nat.succ_mul, Nat.mul_comm q a]
  omega

theorem isLeast_roundUp (ha : 0 < a) (e : Nat) : IsLeast {m | a ∣ m ∧ e ≤ m} (roundUp a e) :=
  ⟨⟨dvd_roundUp ha e, le_roundUp a e⟩, fun _ hm => roundUp_le ha hm.1 hm.2⟩

theorem roundUp_eq_self (hx : a ∣ x) : roundUp a x = x := by
  rcases Nat.eq_zero_or_pos a with rfl | ha
  · exact roundUp_zero_left x
  · exact Nat.le_antisymm (roundUp_le ha hx le_rfl) (le_roundUp a x)

theorem alignedTo_roundUp (a e : Nat) : AlignedTo a (roundUp a e) :=
  (Nat.eq_zero_or_pos a).imp id fun ha => dvd_roundUp ha e

theorem AlignedTo.add {y : Nat} (hx : AlignedTo a x) (hy : AlignedTo a y) : AlignedTo a (x + y) := by
  rcases hx with rfl | hx
  · exact Or.inl rfl
  · exact hy.imp id fun hy => Nat.dvd_add hx hy

theorem roundUp_of_not_dvd (ha : 0 < a) (hx : ¬ a ∣ x) : roundUp a x = x / a * a + a := by
  have hrem : 0 < x % a := Nat.pos_of_ne_zero fun h => hx (Nat.dvd_of_mod_eq_zero h)
  have hlt := Nat.mod_lt x ha
  have hsplit : x + (a - 1) = a * (x / a + 1) + (x % a - 1) := by
    rw [Nat.mul_succ]
    have hx := Nat.div_add_mod x a
    omega
  have hsmall : x % a - 1 < a := (Nat.sub_le _ 1).trans_lt hlt
  rw [roundUp_of_pos ha, hsplit, Nat.mul_add_div ha, Nat.div_eq_of_lt hsmall, Nat.add_zero,
    Nat.succ_mul]

theorem roundUp_mono (a : Nat) {e e' : Nat} (h : e ≤ e') : roundUp a e ≤ roundUp a e' := by
  rcases Nat.eq_zero_or_pos a with rfl | ha
  · rwa [roundUp_zero_left, roundUp_zero_left]
  · exact roundUp_le ha (dvd_roundUp ha e') (h.trans (le_roundUp a e'))

/-- An aligned part is not touched. -/
theorem roundUp_add (hx : AlignedTo a x) (e : Nat) : roundUp a (x + e) = x + roundUp a e := by
  rcases Nat.eq_zero_or_pos a with rfl | ha
  · rw [roundUp_zero_left, roundUp_zero_left]
  · obtain ⟨q, rfl⟩ := hx.resolve_left ha.ne'
    rw [roundUp_of_pos ha, roundUp_of_pos ha, Nat.add_assoc, Nat.mul_add_div ha, Nat.add_mul,
      Nat.mul_comm q a]

theorem roundUp_le_of_dvd (hb : 0 < b) (h : a ∣ b) (e : Nat) : roundUp a e ≤ roundUp b e :=
  roundUp_le (Nat.pos_of_dvd_of_pos h hb) (Nat.dvd_trans h (dvd_roundUp hb e)) (le_roundUp b e)

theorem IsAlignment.dvd_of_le (ha : IsAlignment a) (hb : IsAlignment b) (hpos : 0 < a)
    (hle : a ≤ b) : a ∣ b := by
  rcases ha with rfl | ⟨j, rfl⟩
  · exact absurd hpos (Nat.lt_irrefl 0)
  · rcases hb with rfl | ⟨k, rfl⟩
    · exact Nat.dvd_zero _
    · exact Nat.pow_dvd_pow 2 ((Nat.pow_le_pow_iff_right (by decide)).mp hle)

theorem roundUp_mono_left (ha : IsAlignment a) (hb : IsAlignment b) (hpos : 0 < a) (hle : a ≤ b)
    (e : Nat) : roundUp a e ≤ roundUp b e :=
  roundUp_le_of_dvd (hpos.trans_le hle) (ha.dvd_of_le hb hpos hle) e

/-- Rounding twice is rounding to the stricter of the two. -/
theorem roundUp_roundUp (ha : IsAlignment a) (hb : IsAlignment b) (e : Nat) :
    roundUp b (roundUp a e) = roundUp (max a b) e := by
  rcases Nat.eq_zero_or_pos a with rfl | hapos
  · rw [roundUp_zero_left, Nat.zero_max]
  rcases Nat.eq_zero_or_pos b with rfl | hbpos
  · rw [roundUp_zero_left, Nat.max_zero]
  rcases Nat.le_total a b with hle | hle
  · rw [Nat.max_eq_right hle]
    have hdvd := ha.dvd_of_le hb hapos hle
    refine Nat.le_antisymm (roundUp_le hbpos (dvd_roundUp hbpos e) ?_)
      (roundUp_mono b (le_roundUp a e))
    exact roundUp_le_of_dvd hbpos hdvd e
  · rw [Nat.max_eq_left hle]
    exact roundUp_eq_self (Nat.dvd_trans (hb.dvd_of_le ha hbpos hle) (dvd_roundUp hapos e))

theorem IsAlignment.max (ha : IsAlignment a) (hb : IsAlignment b) : IsAlignment (max a b) := by
  rcases Nat.le_total a b with hle | hle
  · rwa [Nat.max_eq_right hle]
  · rwa [Nat.max_eq_left hle]

theorem isAlignment_one : IsAlignment 1 := Or.inr ⟨0, rfl⟩

theorem isAlignment_strictest (h : ∀ a ∈ as, IsAlignment a) : IsAlignment (strictest as) := by
  induction as with
  | nil => exact isAlignment_one
  | cons a as ih =>
    obtain ⟨ha, has⟩ := List.forall_mem_cons.mp h
    exact ha.max (ih has)

theorem strictest_pos (as : List Nat) : 0 < strictest as := by
  induction as with
  | nil => exact Nat.one_pos
  | cons a as ih => exact Nat.lt_of_lt_of_le ih (Nat.le_max_right ..)

/-- The strictest of a longer list, by its first. -/
theorem roundUp_strictest_cons (ha : IsAlignment a) (has : ∀ a ∈ as, IsAlignment a) (e : Nat) :
    roundUp (strictest (a :: as)) e = roundUp (strictest as) (roundUp a e) :=
  (roundUp_roundUp ha (isAlignment_strictest has) e).symm

theorem strictest_append (as bs : List Nat) :
    strictest (as ++ bs) = max (strictest as) (strictest bs) := by
  induction as with
  | nil => exact (Nat.max_eq_right (strictest_pos bs)).symm
  | cons a as ih =>
    calc strictest (a :: as ++ bs)
      _ = max a (strictest (as ++ bs)) := rfl
      _ = max (max a (strictest as)) (strictest bs) := by rw [ih, Nat.max_assoc]

/-- What is aligned to the strictest is aligned to each. -/
theorem alignedTo_of_strictest (h : ∀ a ∈ as, IsAlignment a) (ha : a ∈ as) (hx : strictest as ∣ x) :
    AlignedTo a x := by
  rcases Nat.eq_zero_or_pos a with rfl | hpos
  · exact Or.inl rfl
  · have hle : a ≤ strictest as := by
      obtain ⟨l, r, rfl⟩ := List.append_of_mem ha
      rw [strictest_append]
      exact (Nat.le_max_left a _).trans (Nat.le_max_right _ (strictest (a :: r)))
    exact Or.inr (Nat.dvd_trans ((h a ha).dvd_of_le (isAlignment_strictest h) hpos hle) hx)

end Pebil

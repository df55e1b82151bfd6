import Mathlib.Algebra.Group.Nat.Defs
import Mathlib.Data.Nat.Init

/-!
# The binary logarithm by halves

A number of `2 ^ k` bits is tested for a bit in its upper half. If there is one, the number is
shifted down by the half, and the bit of the half goes to the result. After the round of every `k`
the result is the logarithm of the number, or nothing has been added to it where the number is 0.
-/

namespace BinaryLog

/-- The round for a half of `w` bits: the number and the result. -/
def halve (w : Nat) (s : Nat × Nat) : Nat × Nat :=
  if s.1 &&& ((2 ^ w - 1) <<< w) ≠ 0 then (s.1 >>> w, s.2 ||| w) else s

/-- The rounds from the half of `2 ^ k` bits down to that of one bit. -/
def rounds : Nat → Nat × Nat → Nat × Nat
  | 0, s => s
  | k + 1, s => rounds k (halve (2 ^ k) s)

variable {x w r k : Nat}

/-- What the test of the upper half leaves. -/
theorem and_upper (hx : x < 2 ^ (w + w)) : x &&& ((2 ^ w - 1) <<< w) = (x >>> w) <<< w := by
  refine Nat.eq_of_testBit_eq fun i => ?_
  rw [Nat.testBit_and, Nat.testBit_shiftLeft, Nat.testBit_shiftLeft, Nat.testBit_two_pow_sub_one,
    Nat.testBit_shiftRight]
  by_cases hwi : w ≤ i
  · rw [Nat.add_sub_cancel' hwi]
    by_cases hiw : i - w < w
    · simp [hwi, hiw]
    · -- the number has no bits from `w + w` on
      have hpow : 2 ^ (w + w) ≤ 2 ^ i := Nat.pow_le_pow_right (by omega) (by omega)
      simp [Nat.testBit_lt_two_pow (Nat.lt_of_lt_of_le hx hpow)]
  · simp [hwi]

theorem and_upper_ne_zero (hx : x < 2 ^ (w + w)) :
    x &&& ((2 ^ w - 1) <<< w) ≠ 0 ↔ 2 ^ w ≤ x := by
  rw [and_upper hx, Nat.shiftLeft_eq, Nat.shiftRight_eq_div_pow, Nat.mul_ne_zero_iff]
  have hpos : 0 < 2 ^ w := Nat.two_pow_pos w
  constructor
  · rintro ⟨h, -⟩
    exact Nat.le_of_not_lt fun hlt => h (Nat.div_eq_of_lt hlt)
  · exact fun h => ⟨Nat.ne_of_gt (Nat.div_pos h hpos), Nat.ne_of_gt hpos⟩

/-- The bits of the result below the half are not set before the half is tested. -/
theorem or_half (hr : 2 ^ (k + 1) ∣ r) : r ||| 2 ^ k = r + 2 ^ k := by
  obtain ⟨a, rfl⟩ := hr
  exact (Nat.two_pow_add_eq_or_of_lt (Nat.pow_lt_pow_right (by omega) (Nat.lt_succ_self k)) a).symm

theorem log2_div (h : 2 ^ w ≤ x) : Nat.log2 x = Nat.log2 (x / 2 ^ w) + w := by
  have hpos : 0 < 2 ^ w := Nat.two_pow_pos w
  have hx : x ≠ 0 := Nat.ne_of_gt (Nat.lt_of_lt_of_le hpos h)
  have hdiv : x / 2 ^ w ≠ 0 := Nat.ne_of_gt (Nat.div_pos h hpos)
  rw [Nat.log2_eq_iff hx, Nat.pow_succ, Nat.pow_add]
  obtain ⟨hle, hlt⟩ := (Nat.log2_eq_iff hdiv).mp rfl
  refine ⟨(Nat.le_div_iff_mul_le hpos).mp hle, ?_⟩
  rw [Nat.mul_right_comm, ← Nat.pow_succ]
  exact (Nat.div_lt_iff_lt_mul hpos).mp hlt

/-- The rounds add the logarithm to the result. -/
theorem rounds_spec (hx : x < 2 ^ 2 ^ k) (hr : 2 ^ k ∣ r) : (rounds k (x, r)).2 = r + Nat.log2 x := by
  induction k generalizing x r with
  | zero =>
    have hlog : Nat.log2 x = 0 := by
      obtain rfl | rfl : x = 0 ∨ x = 1 := by omega
      · exact Nat.log2_zero
      · exact Nat.log2_two_pow (n := 0)
    rw [rounds, hlog, Nat.add_zero]
  | succ k ih =>
    have hdouble : 2 ^ (k + 1) = 2 ^ k + 2 ^ k := by rw [Nat.pow_succ]; omega
    have hrk : 2 ^ k ∣ r := Nat.dvd_trans (Nat.pow_dvd_pow 2 (Nat.le_succ k)) hr
    rw [hdouble] at hx
    rw [rounds, halve]
    split
    · rename_i hbit
      have hle := (and_upper_ne_zero hx).mp hbit
      have hlt : x / 2 ^ 2 ^ k < 2 ^ 2 ^ k := by
        rw [Nat.div_lt_iff_lt_mul (Nat.two_pow_pos _), ← Nat.pow_add]
        exact hx
      rw [or_half hr, Nat.shiftRight_eq_div_pow, ih hlt (Nat.dvd_add hrk (Nat.dvd_refl _)),
        log2_div hle]
      omega
    · rename_i hbit
      have hlt : x < 2 ^ 2 ^ k :=
        Nat.lt_of_not_le fun hle => hbit ((and_upper_ne_zero hx).mpr hle)
      exact ih hlt hrk

end BinaryLog

import Mathlib.Data.List.Range
import Mathlib.Order.Basic

/-!
# Whole pieces of a list

The pieces of a width that a list begins with, one behind the other. What is left over at the
end and is shorter is no piece.
-/

namespace Pebil

variable {α : Type*}

/-- The whole pieces of width `w`. -/
def chunks (w : Nat) (l : List α) : List (List α) :=
  (List.range (l.length / w)).map fun i => (l.drop (i * w)).take w

variable {w : Nat} {l : List α}

/-- A list shorter than the width has no piece. -/
theorem chunks_of_lt (h : l.length < w) : chunks w l = [] := by
  rw [chunks, Nat.div_eq_of_lt h, List.range_zero, List.map_nil]

/-- The first piece, and those of the rest. -/
theorem chunks_of_le (hw : 0 < w) (h : w ≤ l.length) :
    chunks w l = l.take w :: chunks w (l.drop w) := by
  have hdiv : l.length / w = (l.drop w).length / w + 1 := by
    rw [List.length_drop, Nat.div_eq_sub_div hw h]
  rw [chunks, hdiv, List.range_succ_eq_map, List.map_cons, List.map_map, Nat.zero_mul,
    List.drop_zero, chunks]
  refine congrArg (_ :: ·) (List.map_congr_left fun i _ => ?_)
  rw [Function.comp_apply, Nat.succ_mul, Nat.add_comm, List.drop_drop]

end Pebil

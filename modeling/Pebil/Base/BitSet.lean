import Mathlib.Algebra.GroupWithZero.Nat
import Mathlib.Data.Vector.Basic

/-!
# `BitSet<T>` (include/BitSet.h)

A set of numbers below `maximum`, stored in 32-bit words. The element array that
`duplicateMembers` reads is not modelled here, its indices are; the cached
`cardinality` is.

`BitSet.test` reads a bit of the storage without the bound check of `contains`;
it is what the word-wise operators act on, and two sets are equal for
`operator==` exactly when it agrees on every stored bit.
-/

namespace Pebil

/-- `BitStorage`. -/
abbrev BitStorage := BitVec 32

/-- The divide and mod masks of the class: `n >> DivideLog` and `n & ModMask`. -/
def wordIndex (n : Nat) : Nat := n / 32

def bitIndex (n : Nat) : Nat := n % 32

/-- `BitSet::internalCount`: the number of words for `maximum` bits. -/
def internalCount (maximum : Nat) : Nat :=
  maximum / 32 + (if maximum % 32 ≠ 0 then 1 else 0)

theorem wordIndex_lt {n maximum : Nat} (h : n < maximum) :
    wordIndex n < internalCount maximum := by
  unfold wordIndex internalCount
  split <;> omega

/-- `count_bits`: the number of set bits of a word. -/
def countBits (w : BitStorage) : Nat :=
  (List.range 32).countP w.getLsbD

/-- The storage of a `BitSet` over the numbers below `maximum`. -/
structure BitSet (maximum : Nat) where
  bits : Vector BitStorage (internalCount maximum)
  cardinality : Nat
  deriving DecidableEq, Repr

namespace BitSet

variable {maximum : Nat}

/-- The constructor: every word zero. -/
def new (maximum : Nat) : BitSet maximum where
  bits := Vector.replicate _ 0
  cardinality := 0

/-- `cardinalize`: recount the set bits. -/
def cardinalize (b : BitSet maximum) : BitSet maximum :=
  { b with cardinality := (b.bits.toList.map countBits).sum }

/-- `insert`: out of range is ignored. -/
def insert (b : BitSet maximum) (n : Nat) : BitSet maximum :=
  if h : n < maximum then
    have hw := wordIndex_lt h
    let mask : BitStorage := 1#32 <<< bitIndex n
    { bits := b.bits.set (wordIndex n) (b.bits[wordIndex n] ||| mask)
      cardinality :=
        if b.bits[wordIndex n] &&& mask = 0 then b.cardinality + 1 else b.cardinality }
  else b

/-- `remove`: out of range is ignored. -/
def remove (b : BitSet maximum) (n : Nat) : BitSet maximum :=
  if h : n < maximum then
    have hw := wordIndex_lt h
    let mask : BitStorage := 1#32 <<< bitIndex n
    { bits := b.bits.set (wordIndex n) (b.bits[wordIndex n] &&& ~~~mask)
      cardinality :=
        if b.bits[wordIndex n] &&& mask = 0 then b.cardinality else b.cardinality - 1 }
  else b

/-- `setall`: every word all ones, slack bits included. -/
def setall (maximum : Nat) : BitSet maximum where
  bits := Vector.replicate _ (BitVec.allOnes 32)
  cardinality := maximum

/-- `contains`: out of range is absent. -/
def contains (b : BitSet maximum) (n : Nat) : Bool :=
  if h : n < maximum then
    have hw := wordIndex_lt h
    b.bits[wordIndex n] &&& (1#32 <<< bitIndex n) != 0
  else false

/-- `duplicateMembers`, by index: nothing where the cached cardinality is 0, none where it is
wrong. -/
def duplicateMembers (b : BitSet maximum) : Option (List Nat) :=
  let members := (List.range maximum).filter b.contains
  if b.cardinality = 0 then some []
  else if b.cardinality = members.length then some members
  else none

/-- `operator|=`. -/
def union (b src : BitSet maximum) : BitSet maximum :=
  cardinalize { b with bits := Vector.zipWith (· ||| ·) b.bits src.bits }

/-- `operator-=`. -/
def diff (b src : BitSet maximum) : BitSet maximum :=
  cardinalize { b with bits := Vector.zipWith (fun x y => x &&& ~~~y) b.bits src.bits }

/-- `operator==`: word by word; the cached cardinality is not compared. -/
def eq (b src : BitSet maximum) : Bool :=
  b.bits == src.bits

/-- A stored bit, slack bits of the last word included. -/
def test (b : BitSet maximum) (n : Nat) : Bool :=
  if h : wordIndex n < internalCount maximum then
    b.bits[wordIndex n].getLsbD (bitIndex n)
  else false

theorem bitIndex_lt (n : Nat) : bitIndex n < 32 := Nat.mod_lt _ (by decide)

theorem mask_eq_zero_iff (w : BitStorage) (n : Nat) :
    w &&& (1#32 <<< bitIndex n) = 0 ↔ w.getLsbD (bitIndex n) = false := by
  have hlt := bitIndex_lt n
  constructor
  · intro h
    have hbit := congrArg (fun v : BitStorage => v.getLsbD (bitIndex n)) h
    simpa [BitVec.getLsbD_shiftLeft, hlt] using hbit
  · intro h
    refine BitVec.eq_of_getLsbD_eq fun i hi => ?_
    by_cases hin : i = bitIndex n
    · subst hin
      simp [h]
    · have : ¬ (¬ i < bitIndex n ∧ i - bitIndex n = 0) := by omega
      simp only [BitVec.getLsbD_and, BitVec.getLsbD_shiftLeft, hi, decide_true, Bool.true_and]
      by_cases hlt' : i < bitIndex n
      · simp [hlt']
      · have hone : (1#32).getLsbD (i - bitIndex n) = false := by
          rw [BitVec.getLsbD_one]
          simp
          omega
        simp [hone]

/-- In range, `contains` reads the stored bit. -/
theorem contains_eq_test (b : BitSet maximum) {n : Nat} (h : n < maximum) :
    b.contains n = b.test n := by
  have hw := wordIndex_lt h
  unfold contains test
  rw [dif_pos h, dif_pos hw]
  cases hbit : b.bits[wordIndex n].getLsbD (bitIndex n) with
  | false => simpa using (mask_eq_zero_iff _ n).mpr hbit
  | true =>
    have : ¬ b.bits[wordIndex n] &&& (1#32 <<< bitIndex n) = 0 := fun h0 => by
      rw [(mask_eq_zero_iff _ n).mp h0] at hbit
      cases hbit
    simpa using this

theorem contains_of_ge (b : BitSet maximum) {n : Nat} (h : maximum ≤ n) :
    b.contains n = false := by
  unfold contains
  rw [dif_neg (by omega)]

@[simp] theorem test_new (n : Nat) : (new maximum).test n = false := by
  unfold test new
  split <;> simp

@[simp] theorem test_cardinalize (b : BitSet maximum) (n : Nat) :
    b.cardinalize.test n = b.test n := rfl

@[simp] theorem test_union (b src : BitSet maximum) (n : Nat) :
    (b.union src).test n = (b.test n || src.test n) := by
  unfold union
  rw [test_cardinalize]
  unfold test
  split <;> simp

@[simp] theorem test_diff (b src : BitSet maximum) (n : Nat) :
    (b.diff src).test n = (b.test n && !src.test n) := by
  unfold diff
  rw [test_cardinalize]
  unfold test
  split <;> simp [bitIndex_lt]

theorem contains_new (n : Nat) : (new maximum).contains n = false := by
  by_cases hn : n < maximum
  · rw [contains_eq_test _ hn, test_new]
  · exact contains_of_ge _ (by omega)

theorem contains_setall {n : Nat} (h : n < maximum) : (setall maximum).contains n = true := by
  have hw := wordIndex_lt h
  rw [contains_eq_test _ h, test, dif_pos hw]
  show (Vector.replicate _ (BitVec.allOnes 32))[wordIndex n].getLsbD (bitIndex n) = true
  rw [Vector.getElem_replicate, BitVec.getLsbD_allOnes]
  exact decide_eq_true (bitIndex_lt n)

/-- Within a word, the mask of a number selects that number. -/
theorem mask_getLsbD {n m : Nat} (hw : wordIndex n = wordIndex m) :
    (1#32 <<< bitIndex n).getLsbD (bitIndex m) = decide (m = n) := by
  rw [BitVec.getLsbD_shiftLeft, BitVec.getLsbD_one]
  have h1 := bitIndex_lt m
  have h2 := bitIndex_lt n
  simp only [wordIndex, bitIndex] at hw h1 h2 ⊢
  by_cases hmn : m = n
  · subst hmn
    simp [h1]
  · simp only [h1, decide_true, Bool.true_and, hmn, decide_false]
    by_cases hlt : m % 32 < n % 32
    · simp [hlt]
    · simp only [hlt, decide_false, Bool.not_false, Bool.true_and]
      have hpos : m % 32 - n % 32 ≠ 0 := by omega
      simp [hpos]

/-- `insert` sets exactly one stored bit. -/
theorem test_insert (b : BitSet maximum) {n : Nat} (hn : n < maximum) (m : Nat) :
    (b.insert n).test m = (b.test m || decide (m = n)) := by
  rw [insert, dif_pos hn]
  unfold test
  split
  next hwm =>
    simp only [Vector.getElem_set]
    by_cases hw : wordIndex n = wordIndex m
    · simp only [hw, if_true, BitVec.getLsbD_or, mask_getLsbD hw]
    · have hmn : m ≠ n := fun h => hw (by rw [h])
      simp [hw, hmn]
  next hwm =>
    have hmn : m ≠ n := fun h => hwm (h ▸ wordIndex_lt hn)
    simp [hmn]

/-- `remove` clears exactly one stored bit. -/
theorem test_remove (b : BitSet maximum) {n : Nat} (hn : n < maximum) (m : Nat) :
    (b.remove n).test m = (b.test m && !decide (m = n)) := by
  rw [remove, dif_pos hn]
  unfold test
  split
  next hwm =>
    simp only [Vector.getElem_set]
    by_cases hw : wordIndex n = wordIndex m
    · simp only [hw, if_true, BitVec.getLsbD_and, BitVec.getLsbD_not, mask_getLsbD hw, bitIndex_lt,
        decide_true, Bool.true_and]
    · have hmn : m ≠ n := fun h => hw (by rw [h])
      simp [hw, hmn]
  next hwm => rfl

/-- `insert` adds exactly one member. -/
theorem contains_insert (b : BitSet maximum) (n m : Nat) :
    (b.insert n).contains m = (b.contains m || (decide (m = n) && decide (n < maximum))) := by
  by_cases hn : n < maximum
  · by_cases hm : m < maximum
    · rw [contains_eq_test _ hm, contains_eq_test _ hm, test_insert b hn, decide_eq_true hn,
        Bool.and_true]
    · have hmn : m ≠ n := by omega
      rw [contains_of_ge _ (by omega), contains_of_ge _ (by omega)]
      simp [hmn]
  · rw [insert, dif_neg hn]
    simp [hn]

/-- `remove` takes exactly one member out. -/
theorem contains_remove (b : BitSet maximum) (n m : Nat) :
    (b.remove n).contains m = (b.contains m && !decide (m = n)) := by
  by_cases hm : m < maximum
  · by_cases hn : n < maximum
    · rw [contains_eq_test _ hm, contains_eq_test _ hm, test_remove b hn]
    · have hmn : m ≠ n := by omega
      rw [remove, dif_neg hn]
      simp [hmn]
  · rw [contains_of_ge _ (by omega), contains_of_ge _ (by omega), Bool.false_and]

/-- `operator==` compares the stored bits. -/
theorem eq_iff_test (b src : BitSet maximum) :
    b.eq src = true ↔ ∀ n, b.test n = src.test n := by
  unfold eq
  rw [beq_iff_eq]
  constructor
  · intro h n
    simp only [test, h]
  · intro h
    refine Vector.ext fun i hi => BitVec.eq_of_getLsbD_eq fun j hj => ?_
    have hij := h (32 * i + j)
    have hw : wordIndex (32 * i + j) = i := by unfold wordIndex; omega
    have hb : bitIndex (32 * i + j) = j := by unfold bitIndex; omega
    unfold test at hij
    rw [dif_pos (by rw [hw]; exact hi), dif_pos (by rw [hw]; exact hi)] at hij
    simpa [hw, hb] using hij

/-- No bit is stored past the last word. -/
theorem test_of_ge (b : BitSet maximum) {n : Nat} (h : 32 * internalCount maximum ≤ n) :
    b.test n = false := by
  unfold test
  rw [dif_neg]
  unfold wordIndex
  omega

/-! ## The cached cardinality -/

/-- The cached cardinality is the number of members. -/
def Counted (b : BitSet maximum) : Prop :=
  b.cardinality = ((List.range maximum).filter b.contains).length

theorem counted_setall : Counted (setall maximum) := by
  have hall : (List.range maximum).filter (setall maximum).contains = List.range maximum :=
    List.filter_eq_self.mpr fun n hn => contains_setall (List.mem_range.mp hn)
  rw [Counted, hall, List.length_range]
  rfl

theorem cardinality_remove (b : BitSet maximum) {n : Nat} (hn : n < maximum) :
    (b.remove n).cardinality = if b.contains n then b.cardinality - 1 else b.cardinality := by
  rw [remove, dif_pos hn, contains, dif_pos hn]
  have hw := wordIndex_lt hn
  by_cases h : b.bits[wordIndex n] &&& 1#32 <<< bitIndex n = 0
  · simp [h]
  · simp

theorem counted_remove {b : BitSet maximum} (h : b.Counted) (n : Nat) : (b.remove n).Counted := by
  by_cases hn : n < maximum
  · have hfun : (List.range maximum).filter (b.remove n).contains =
        ((List.range maximum).filter b.contains).filter fun m => m != n := by
      rw [List.filter_filter]
      refine List.filter_congr fun m _ => ?_
      rw [contains_remove, Bool.and_comm]
      rfl
    rw [Counted, cardinality_remove b hn, hfun, h]
    have hnodup : ((List.range maximum).filter b.contains).Nodup := List.nodup_range.filter _
    rw [← hnodup.erase_eq_filter n]
    by_cases hc : b.contains n = true
    · have hmem : n ∈ (List.range maximum).filter b.contains :=
        List.mem_filter.mpr ⟨List.mem_range.mpr hn, hc⟩
      rw [if_pos hc, List.length_erase_of_mem hmem]
    · have hmem : n ∉ (List.range maximum).filter b.contains :=
        fun hmem => hc (List.mem_filter.mp hmem).2
      rw [if_neg hc, List.erase_of_not_mem hmem]
  · rw [remove, dif_neg hn]
    exact h

theorem duplicateMembers_eq {b : BitSet maximum} (h : b.Counted) :
    b.duplicateMembers = some ((List.range maximum).filter b.contains) := by
  unfold duplicateMembers
  split
  next hzero =>
    rw [List.length_eq_zero_iff.mp (h.symm.trans hzero)]
  next => exact if_pos h

end BitSet

end Pebil

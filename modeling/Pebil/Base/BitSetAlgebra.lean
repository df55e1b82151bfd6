import Pebil.Base.BitSet
import Mathlib.Data.Finset.Card
import Mathlib.Data.Finset.Range
import Mathlib.Data.List.FinRange
import Mathlib.Logic.Function.Basic
import Mathlib.Tactic.ByContra

/-!
# The algebra of `BitSet` (include/BitSet.h:36–255)

A set of bits represents a set of numbers when it stores exactly its members, none of them in the
bits behind `maximum`, and has counted them (`Represents`). Every operation keeps this, apart from
`setall` and `operator~`: these set the bits behind `maximum` in the last word as well, which
`cardinalize`, `operator==` and `isSubsetOf` read, unless the last word has none.
-/

namespace Pebil

namespace BitSet

variable {maximum : Nat}

/-- `operator&=`. -/
def inter (b src : BitSet maximum) : BitSet maximum :=
  cardinalize { b with bits := Vector.zipWith (· &&& ·) b.bits src.bits }

/-- `operator~`, on the set itself; the cardinality is a `uint32_t`. -/
def compl (b : BitSet maximum) : BitSet maximum where
  bits := b.bits.map (~~~·)
  cardinality := (maximum + 2 ^ 32 - b.cardinality) % 2 ^ 32

/-- `operator=`. -/
def assign (_ src : BitSet maximum) : BitSet maximum := src

/-- `clear`. -/
def clear (_ : BitSet maximum) : BitSet maximum := new maximum

/-- `isSubsetOf`. -/
def isSubsetOf (b src : BitSet maximum) : Bool :=
  (Vector.zipWith (fun x y => x &&& ~~~y) b.bits src.bits).all (· == 0)

/-- `duplicateMembers`, on a set with an array of elements: the words, and the bits of each, are
gone through in order up to `maximum`. None is a failed assertion. -/
def duplicateMembersOf {T : Type} (b : BitSet maximum) (elements : Vector T maximum) :
    Option (List T) :=
  if b.cardinality = 0 then some []
  else
    let members := (List.finRange maximum).filter fun idx : Fin maximum => b.test idx.val
    let ret := members.map elements.get
    if b.cardinality = ret.length then some ret else none

@[simp] theorem test_inter (b src : BitSet maximum) (n : Nat) :
    (b.inter src).test n = (b.test n && src.test n) := by
  unfold inter
  rw [test_cardinalize]
  unfold test
  split <;> simp

theorem test_compl (b : BitSet maximum) {n : Nat} (h : n < 32 * internalCount maximum) :
    b.compl.test n = !b.test n := by
  have hw : wordIndex n < internalCount maximum := by
    unfold wordIndex
    omega
  unfold test compl
  rw [dif_pos hw, dif_pos hw, Vector.getElem_map, BitVec.getLsbD_not]
  simp [bitIndex_lt]

theorem test_setall {n : Nat} (h : n < 32 * internalCount maximum) :
    (setall maximum).test n = true := by
  have hw : wordIndex n < internalCount maximum := by
    unfold wordIndex
    omega
  unfold test setall
  rw [dif_pos hw, Vector.getElem_replicate, BitVec.getLsbD_allOnes]
  exact decide_eq_true (bitIndex_lt n)

theorem le_internalCount (maximum : Nat) : maximum ≤ 32 * internalCount maximum := by
  unfold internalCount
  split <;> omega

theorem internalCount_of_dvd (h : 32 ∣ maximum) : 32 * internalCount maximum = maximum := by
  unfold internalCount
  split <;> omega

theorem isSubsetOf_iff_test (b src : BitSet maximum) :
    b.isSubsetOf src = true ↔ ∀ n, b.test n = true → src.test n = true := by
  unfold isSubsetOf
  rw [Vector.all_eq_true]
  constructor
  · intro h n hn
    unfold test at hn ⊢
    split at hn
    next hw =>
      rw [dif_pos hw]
      have hzero := h (wordIndex n) hw
      rw [Vector.getElem_zipWith, beq_iff_eq] at hzero
      have hbit := congrArg (fun w : BitStorage => w.getLsbD (bitIndex n)) hzero
      simpa [bitIndex_lt, hn] using hbit
    next => cases hn
  · intro h i hi
    rw [Vector.getElem_zipWith, beq_iff_eq]
    refine BitVec.eq_of_getLsbD_eq fun j hj => ?_
    have hij := h (32 * i + j)
    have hw : wordIndex (32 * i + j) = i := by unfold wordIndex; omega
    have hb : bitIndex (32 * i + j) = j := by unfold bitIndex; omega
    unfold test at hij
    rw [dif_pos (by rw [hw]; exact hi), dif_pos (by rw [hw]; exact hi)] at hij
    simp only [hw, hb] at hij
    simp only [BitVec.getLsbD_and, BitVec.getLsbD_not, hj, decide_true, Bool.true_and]
    cases hbit : b.bits[i].getLsbD j with
    | false => simp
    | true => simp [hij hbit]

theorem cardinality_insert (b : BitSet maximum) {n : Nat} (hn : n < maximum) :
    (b.insert n).cardinality = if b.test n then b.cardinality else b.cardinality + 1 := by
  have hw := wordIndex_lt hn
  rw [insert, dif_pos hn, test, dif_pos hw]
  dsimp only
  cases hbit : b.bits[wordIndex n].getLsbD (bitIndex n) with
  | false => rw [if_pos ((mask_eq_zero_iff _ n).mpr hbit), if_neg Bool.false_ne_true]
  | true =>
    rw [if_neg, if_pos rfl]
    intro h0
    rw [(mask_eq_zero_iff _ n).mp h0] at hbit
    cases hbit

/-! ## The stored bits, counted -/

/-- A bit of a list of words. -/
def testWords (ws : List BitStorage) (n : Nat) : Bool :=
  (ws[wordIndex n]?.getD 0).getLsbD (bitIndex n)

theorem test_eq_testWords (b : BitSet maximum) (n : Nat) : b.test n = testWords b.bits.toList n := by
  unfold test testWords
  split
  next h => rw [Vector.getElem?_toList, Vector.getElem?_eq_getElem h, Option.getD_some]
  next h =>
    rw [List.getElem?_eq_none (by rw [Vector.length_toList]; omega)]
    simp

theorem sum_countBits (ws : List BitStorage) :
    (ws.map countBits).sum = (List.range (32 * ws.length)).countP (testWords ws) := by
  induction ws with
  | nil => rfl
  | cons w ws ih =>
    have hfirst : (List.range 32).countP (testWords (w :: ws)) = countBits w := by
      refine List.countP_congr fun j hj => ?_
      have hlt := List.mem_range.mp hj
      have hword : wordIndex j = 0 := Nat.div_eq_of_lt hlt
      have hbit : bitIndex j = j := Nat.mod_eq_of_lt hlt
      simp [testWords, hword, hbit]
    have hrest : ∀ k, testWords (w :: ws) (32 + k) = testWords ws k := by
      intro k
      have hword : wordIndex (32 + k) = wordIndex k + 1 := by unfold wordIndex; omega
      have hbit : bitIndex (32 + k) = bitIndex k := by unfold bitIndex; omega
      simp [testWords, hword, hbit]
    rw [List.map_cons, List.sum_cons, ih, List.length_cons,
      show 32 * (ws.length + 1) = 32 + 32 * ws.length by omega, List.range_add,
      List.countP_append, List.countP_map, hfirst]
    congr 1
    exact List.countP_congr fun k _ => by simp [hrest]

theorem cardinality_cardinalize (b : BitSet maximum) :
    b.cardinalize.cardinality = (List.range (32 * internalCount maximum)).countP b.test := by
  rw [cardinalize, sum_countBits, Vector.length_toList]
  exact List.countP_congr fun n _ => by rw [test_eq_testWords]

/-! ## What a set of bits represents -/

/-- The stored bits are the members of `s`, and are counted. -/
structure Represents (b : BitSet maximum) (s : Finset Nat) : Prop where
  test_iff : ∀ n, b.test n = true ↔ n ∈ s
  lt : ∀ n ∈ s, n < maximum
  cardinality : b.cardinality = s.card

variable {b src : BitSet maximum} {s t : Finset Nat}

theorem countP_test (h : ∀ n, b.test n = true ↔ n ∈ s) (hlt : ∀ n ∈ s, n < maximum) :
    (List.range (32 * internalCount maximum)).countP b.test = s.card := by
  have hnodup : ((List.range (32 * internalCount maximum)).filter b.test).Nodup :=
    List.nodup_range.filter _
  rw [List.countP_eq_length_filter, ← List.toFinset_card_of_nodup hnodup]
  congr 1
  ext n
  rw [List.mem_toFinset, List.mem_filter, List.mem_range, h]
  have hle := le_internalCount maximum
  exact ⟨And.right, fun hn => ⟨Nat.lt_of_lt_of_le (hlt n hn) hle, hn⟩⟩

/-- The members below `maximum`, in increasing order. -/
def increasing (maximum : Nat) (s : Finset Nat) : List (Fin maximum) :=
  (List.finRange maximum).filter fun idx => decide (idx.val ∈ s)

theorem length_increasing (hlt : ∀ n ∈ s, n < maximum) :
    (increasing maximum s).length = s.card := by
  have hnodup : ((increasing maximum s).map Fin.val).Nodup :=
    ((List.nodup_finRange maximum).filter _).map Fin.val_injective
  rw [← List.length_map Fin.val, ← List.toFinset_card_of_nodup hnodup]
  congr 1
  ext n
  simp only [increasing, List.mem_toFinset, List.mem_map, List.mem_filter, List.mem_finRange,
    true_and, decide_eq_true_iff]
  exact ⟨fun ⟨idx, hidx, heq⟩ => heq ▸ hidx, fun hn => ⟨⟨n, hlt n hn⟩, hn, rfl⟩⟩

/-- After `cardinalize`, the bits alone have to be right. -/
theorem represents_cardinalize (h : ∀ n, b.test n = true ↔ n ∈ s) (hlt : ∀ n ∈ s, n < maximum) :
    b.cardinalize.Represents s where
  test_iff := h
  lt := hlt
  cardinality := (cardinality_cardinalize b).trans (countP_test h hlt)

theorem represents_new : (new maximum).Represents ∅ where
  test_iff n := by simp
  lt := nofun
  cardinality := rfl

namespace Represents

theorem union (hb : b.Represents s) (hsrc : src.Represents t) : (b.union src).Represents (s ∪ t) := by
  refine represents_cardinalize (fun n => ?_) fun n hn => ?_
  · have htest := test_union b src n
    rw [BitSet.union, test_cardinalize] at htest
    rw [htest, Bool.or_eq_true, hb.test_iff, hsrc.test_iff, Finset.mem_union]
  · rcases Finset.mem_union.mp hn with hn | hn
    · exact hb.lt n hn
    · exact hsrc.lt n hn

theorem inter (hb : b.Represents s) (hsrc : src.Represents t) : (b.inter src).Represents (s ∩ t) := by
  refine represents_cardinalize (fun n => ?_) fun n hn => hb.lt n (Finset.mem_inter.mp hn).1
  have htest := test_inter b src n
  rw [BitSet.inter, test_cardinalize] at htest
  rw [htest, Bool.and_eq_true, hb.test_iff, hsrc.test_iff, Finset.mem_inter]

theorem diff (hb : b.Represents s) (hsrc : src.Represents t) : (b.diff src).Represents (s \ t) := by
  refine represents_cardinalize (fun n => ?_) fun n hn => hb.lt n (Finset.mem_sdiff.mp hn).1
  have htest := test_diff b src n
  rw [BitSet.diff, test_cardinalize] at htest
  rw [htest, Bool.and_eq_true, hb.test_iff, Finset.mem_sdiff, ← hsrc.test_iff]
  simp

theorem insert (hb : b.Represents s) {n : Nat} (hn : n < maximum) :
    (b.insert n).Represents (Insert.insert n s) where
  test_iff m := by
    rw [test_insert b hn, Bool.or_eq_true, hb.test_iff, decide_eq_true_iff, Finset.mem_insert,
      or_comm]
  lt m hm := by
    rcases Finset.mem_insert.mp hm with rfl | hm
    · exact hn
    · exact hb.lt m hm
  cardinality := by
    rw [cardinality_insert b hn]
    by_cases h : n ∈ s
    · rw [if_pos ((hb.test_iff n).mpr h), Finset.insert_eq_of_mem h, hb.cardinality]
    · rw [if_neg fun htest => h ((hb.test_iff n).mp htest), Finset.card_insert_of_notMem h,
        hb.cardinality]

theorem remove (hb : b.Represents s) {n : Nat} (hn : n < maximum) :
    (b.remove n).Represents (s.erase n) where
  test_iff m := by
    rw [test_remove b hn, Bool.and_eq_true, hb.test_iff, Finset.mem_erase, and_comm]
    simp
  lt m hm := hb.lt m (Finset.mem_of_mem_erase hm)
  cardinality := by
    rw [cardinality_remove b hn, contains_eq_test b hn]
    by_cases h : n ∈ s
    · rw [if_pos ((hb.test_iff n).mpr h), Finset.card_erase_of_mem h, hb.cardinality]
    · rw [if_neg fun htest => h ((hb.test_iff n).mp htest), Finset.erase_eq_of_notMem h,
        hb.cardinality]

/-- The complement, where no bits are stored behind `maximum`. -/
theorem compl (hb : b.Represents s) (hfull : 32 ∣ maximum) (hmax : maximum < 2 ^ 32) :
    b.compl.Represents (Finset.range maximum \ s) := by
  have hsub : s ⊆ Finset.range maximum := fun n hn => Finset.mem_range.mpr (hb.lt n hn)
  have hbits := internalCount_of_dvd hfull
  refine ⟨fun n => ?_, fun n hn => Finset.mem_range.mp (Finset.mem_sdiff.mp hn).1, ?_⟩
  · rw [Finset.mem_sdiff, Finset.mem_range, ← hb.test_iff]
    by_cases hn : n < maximum
    · rw [test_compl b (by omega)]
      simp [hn]
    · rw [test_of_ge _ (by omega)]
      simp [hn]
  · have hle := Finset.card_le_card hsub
    rw [Finset.card_range] at hle
    rw [Finset.card_sdiff_of_subset hsub, Finset.card_range]
    show (maximum + 2 ^ 32 - b.cardinality) % 2 ^ 32 = maximum - s.card
    rw [hb.cardinality]
    omega

/-- In range, `contains` decides membership; out of range nothing is a member. -/
theorem contains_iff (hb : b.Represents s) (n : Nat) : b.contains n = true ↔ n ∈ s := by
  by_cases hn : n < maximum
  · rw [contains_eq_test b hn, hb.test_iff]
  · rw [contains_of_ge b (by omega)]
    exact iff_of_false (by simp) fun hmem => hn (hb.lt n hmem)

theorem eq_iff (hb : b.Represents s) (hsrc : src.Represents t) : b.eq src = true ↔ s = t := by
  rw [eq_iff_test, Finset.ext_iff]
  refine forall_congr' fun n => ?_
  rw [← hb.test_iff, ← hsrc.test_iff, Bool.eq_iff_iff]

theorem isSubsetOf_iff (hb : b.Represents s) (hsrc : src.Represents t) :
    b.isSubsetOf src = true ↔ s ⊆ t := by
  rw [isSubsetOf_iff_test]
  exact forall_congr' fun n => by rw [hb.test_iff, hsrc.test_iff]

/-- The elements of the members, in increasing order; the assertion holds. -/
theorem duplicateMembersOf_eq (hb : b.Represents s) {T : Type} (elements : Vector T maximum) :
    b.duplicateMembersOf elements = some ((increasing maximum s).map elements.get) := by
  have hfilter : ((List.finRange maximum).filter fun idx : Fin maximum => b.test idx.val) =
      increasing maximum s :=
    List.filter_congr fun idx _ => by
      rw [Bool.eq_iff_iff, hb.test_iff, decide_eq_true_iff]
  have hlength := length_increasing hb.lt
  unfold duplicateMembersOf
  rw [hfilter, hb.cardinality]
  split
  next hzero =>
    rw [hzero] at hlength
    rw [List.length_eq_zero_iff.mp hlength, List.map_nil]
  next =>
    dsimp only
    rw [List.length_map, hlength, if_pos rfl]

end Represents

/-- All numbers, where no bits are stored behind `maximum`. -/
theorem represents_setall (hfull : 32 ∣ maximum) :
    (setall maximum).Represents (Finset.range maximum) where
  test_iff n := by
    have hbits := internalCount_of_dvd hfull
    rw [Finset.mem_range]
    by_cases hn : n < maximum
    · exact iff_of_true (test_setall (by omega)) hn
    · rw [test_of_ge _ (by omega)]
      exact iff_of_false (by simp) hn
  lt n hn := Finset.mem_range.mp hn
  cardinality := (Finset.card_range maximum).symm

end BitSet

/-! ## Sequences of operations -/

/-- An operation on the sets of bits in variables. -/
inductive BitSetOp where
  | insert (v n : Nat)
  | remove (v n : Nat)
  | setall (v : Nat)
  | clear (v : Nat)
  | assign (v src : Nat)
  | inter (v src : Nat)
  | union (v src : Nat)
  | diff (v src : Nat)
  | compl (v : Nat)

namespace BitSetOp

open Function (update)

variable {maximum : Nat}

/-- What the operation does to the sets of bits. -/
def run (st : Nat → BitSet maximum) : BitSetOp → Nat → BitSet maximum
  | insert v n => update st v ((st v).insert n)
  | remove v n => update st v ((st v).remove n)
  | setall v => update st v (.setall maximum)
  | clear v => update st v (st v).clear
  | assign v src => update st v ((st v).assign (st src))
  | inter v src => update st v ((st v).inter (st src))
  | union v src => update st v ((st v).union (st src))
  | diff v src => update st v ((st v).diff (st src))
  | compl v => update st v (st v).compl

/-- What the operation means, for subsets of the numbers below `maximum`. -/
def denote (maximum : Nat) (sets : Nat → Finset Nat) : BitSetOp → Nat → Finset Nat
  | insert v n => update sets v (if n < maximum then Insert.insert n (sets v) else sets v)
  | remove v n => update sets v ((sets v).erase n)
  | setall v => update sets v (Finset.range maximum)
  | clear v => update sets v ∅
  | assign v src => update sets v (sets src)
  | inter v src => update sets v (sets v ∩ sets src)
  | union v src => update sets v (sets v ∪ sets src)
  | diff v src => update sets v (sets v \ sets src)
  | compl v => update sets v (Finset.range maximum \ sets v)

/-- The operations that set the bits behind `maximum` as well. -/
def fills : BitSetOp → Bool
  | setall _ | compl _ => true
  | _ => false

/-- The queries answer what they should. -/
structure Agree (st : Nat → BitSet maximum) (sets : Nat → Finset Nat) : Prop where
  contains_iff : ∀ v n, (st v).contains n = true ↔ n ∈ sets v
  size : ∀ v, (st v).cardinality = (sets v).card
  eq_iff : ∀ v w, (st v).eq (st w) = true ↔ sets v = sets w
  isSubsetOf_iff : ∀ v w, (st v).isSubsetOf (st w) = true ↔ sets v ⊆ sets w
  duplicateMembers : ∀ v {T : Type} (elements : Vector T maximum),
    (st v).duplicateMembersOf elements =
      some ((BitSet.increasing maximum (sets v)).map elements.get)

/-- The sets of bits represent the sets of numbers. -/
def Holds (st : Nat → BitSet maximum) (sets : Nat → Finset Nat) : Prop :=
  ∀ v, (st v).Represents (sets v)

variable {st : Nat → BitSet maximum} {sets : Nat → Finset Nat}

theorem Holds.agree (h : Holds st sets) : Agree st sets where
  contains_iff v := (h v).contains_iff
  size v := (h v).cardinality
  eq_iff v w := (h v).eq_iff (h w)
  isSubsetOf_iff v w := (h v).isSubsetOf_iff (h w)
  duplicateMembers v _ := (h v).duplicateMembersOf_eq

theorem Holds.update (h : Holds st sets) (v : Nat) {b : BitSet maximum} {s : Finset Nat}
    (hb : b.Represents s) : Holds (update st v b) (update sets v s) := by
  intro w
  by_cases hw : w = v
  · subst hw
    rwa [Function.update_self, Function.update_self]
  · rw [Function.update_of_ne hw, Function.update_of_ne hw]
    exact h w

theorem Holds.run (h : Holds st sets) (op : BitSetOp) (hfull : op.fills = true → 32 ∣ maximum)
    (hmax : maximum < 2 ^ 32) : Holds (op.run st) (op.denote maximum sets) := by
  cases op with
  | insert v n =>
    refine h.update v ?_
    by_cases hn : n < maximum
    · rw [if_pos hn]
      exact (h v).insert hn
    · rw [if_neg hn, BitSet.insert, dif_neg hn]
      exact h v
  | remove v n =>
    refine h.update v ?_
    by_cases hn : n < maximum
    · exact (h v).remove hn
    · rw [BitSet.remove, dif_neg hn, Finset.erase_eq_of_notMem fun hmem => hn ((h v).lt n hmem)]
      exact h v
  | setall v => exact h.update v (BitSet.represents_setall (hfull rfl))
  | clear v => exact h.update v BitSet.represents_new
  | assign v src => exact h.update v (h src)
  | inter v src => exact h.update v ((h v).inter (h src))
  | union v src => exact h.update v ((h v).union (h src))
  | diff v src => exact h.update v ((h v).diff (h src))
  | compl v => exact h.update v ((h v).compl (hfull rfl) hmax)

/-- A sequence of operations, from empty sets. -/
def runAll (maximum : Nat) (ops : List BitSetOp) : Nat → BitSet maximum :=
  ops.foldl run fun _ => .new maximum

def denoteAll (maximum : Nat) (ops : List BitSetOp) : Nat → Finset Nat :=
  ops.foldl (denote maximum) fun _ => ∅

theorem Holds.runs {ops : List BitSetOp} (h : Holds st sets)
    (hfull : ∀ op ∈ ops, op.fills = true → 32 ∣ maximum) (hmax : maximum < 2 ^ 32) :
    Holds (ops.foldl BitSetOp.run st) (ops.foldl (denote maximum) sets) := by
  induction ops generalizing st sets with
  | nil => exact h
  | cons op ops ih =>
    exact ih (h.run op (hfull op List.mem_cons_self) hmax)
      fun op' hop' => hfull op' (List.mem_cons_of_mem _ hop')

/-- With bits behind `maximum`, a set that is recounted after `setall` has too many members. -/
theorem not_agree (h : ¬32 ∣ maximum) :
    ¬Agree (runAll maximum [setall 0, diff 0 1]) (denoteAll maximum [setall 0, diff 0 1]) := by
  intro hagree
  have hcount : (runAll maximum [setall 0, diff 0 1] 0).cardinality =
      32 * internalCount maximum := by
    show (BitSet.diff (.setall maximum) (.new maximum)).cardinality = _
    rw [BitSet.diff, BitSet.cardinality_cardinalize, List.countP_eq_length.mpr, List.length_range]
    intro n hn
    have htest := BitSet.test_diff (.setall maximum) (.new maximum) n
    rw [BitSet.diff, BitSet.test_cardinalize] at htest
    rw [htest, BitSet.test_setall (List.mem_range.mp hn), BitSet.test_new]
    rfl
  have hsize := hagree.size 0
  rw [hcount] at hsize
  have hset : denoteAll maximum [setall 0, diff 0 1] 0 = Finset.range maximum \ ∅ := rfl
  rw [hset, Finset.sdiff_empty, Finset.card_range] at hsize
  omega

/-- Sequences without `setall` and `operator~` are right for every maximum, and all sequences where
the last word has no bits behind it. -/
theorem runAll_agree (maximum : BitVec 32) :
    (∀ ops, (∀ op ∈ ops, op.fills = true → 32 ∣ maximum.toNat) →
      Agree (runAll maximum.toNat ops) (denoteAll maximum.toNat ops)) ∧
    ((∀ ops, Agree (runAll maximum.toNat ops) (denoteAll maximum.toNat ops)) ↔
      32 ∣ maximum.toNat) := by
  have hruns : ∀ ops, (∀ op ∈ ops, op.fills = true → 32 ∣ maximum.toNat) →
      Agree (runAll maximum.toNat ops) (denoteAll maximum.toNat ops) := fun ops hfull =>
    (Holds.runs (fun _ => BitSet.represents_new) hfull maximum.isLt).agree
  refine ⟨hruns, fun hall => ?_, fun hfull ops => hruns ops fun _ _ _ => hfull⟩
  by_contra hnot
  exact not_agree hnot (hall _)

/-- Five numbers: all of them set at once, and inserted one by one. -/
theorem not_runAll_agree : ¬∀ (maximum : BitVec 32) ops,
    Agree (runAll maximum.toNat ops) (denoteAll maximum.toNat ops) := by
  intro h
  have hagree := h 5 [setall 0, insert 1 0, insert 1 1, insert 1 2, insert 1 3, insert 1 4]
  exact absurd ((hagree.eq_iff 0 1).mpr (by decide)) (by decide)

end BitSetOp

end Pebil

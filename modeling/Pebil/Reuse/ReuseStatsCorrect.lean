import Mathlib.Tactic.Tauto
import Pebil.Lib.BinaryLog
import Pebil.Lib.Rounds
import Pebil.Reuse.ReuseStats

/-!
# What the counted bins say

The bin of a distance above `binindividual` is the least power of two that is not below it, as long
as that power is an `int`. So what is printed covers every tracked distance once, and the count of a
line is the number of distances between its boundaries.
-/

namespace Pebil

open BinaryLog

/-! ## The power of two -/

section Shave

/-- A round is one of the rounds for the logarithm, where the mask is that of the upper half. -/
theorem shaveRound_toNat {s e : BitVec 64 × BitVec 64}
    (he : e.1.toNat = (2 ^ e.2.toNat - 1) <<< e.2.toNat) :
    ((shaveRound s e).1.toNat, (shaveRound s e).2.toNat) =
      halve e.2.toNat (s.1.toNat, s.2.toNat) := by
  have htest : s.1 &&& e.1 ≠ 0 ↔ s.1.toNat &&& ((2 ^ e.2.toNat - 1) <<< e.2.toNat) ≠ 0 := by
    rw [← he, ← BitVec.toNat_and]
    exact not_congr BitVec.toNat_inj.symm
  rw [shaveRound, halve]
  by_cases h : s.1 &&& e.1 ≠ 0
  · rw [if_pos h, if_pos (htest.mp h)]
    simp
  · rw [if_neg h, if_neg (mt htest.mpr h)]

theorem foldl_shaveRound {table : List (BitVec 64 × BitVec 64)}
    (htable : ∀ e ∈ table, e.1.toNat = (2 ^ e.2.toNat - 1) <<< e.2.toNat)
    (s : BitVec 64 × BitVec 64) :
    ((table.foldl shaveRound s).1.toNat, (table.foldl shaveRound s).2.toNat) =
      (table.map fun e => e.2.toNat).foldl (fun s w => halve w s) (s.1.toNat, s.2.toNat) := by
  induction table generalizing s with
  | nil => rfl
  | cons e table ih =>
    obtain ⟨he, htable⟩ := List.forall_mem_cons.mp htable
    rw [List.foldl_cons, ih htable, shaveRound_toNat he, List.map_cons, List.foldl_cons]

/-- The loop gives the logarithm of the value before. -/
theorem shaveTable_log2 (x : BitVec 64) :
    (shaveTable.foldl shaveRound (x, 0)).2.toNat = Nat.log2 x.toNat := by
  have htable : ∀ e ∈ shaveTable, e.1.toNat = (2 ^ e.2.toNat - 1) <<< e.2.toNat := by
    simp [shaveTable]
  have hfold := congrArg Prod.snd (foldl_shaveRound htable (x, 0))
  have hrounds : (rounds 6 (x.toNat, 0)).2 = 0 + Nat.log2 x.toNat :=
    rounds_spec x.isLt (Nat.dvd_zero _)
  rw [Nat.zero_add] at hrounds
  exact hfold.trans hrounds

theorem shaveBitsPwr2_toNat {v : BitVec 64} (hle : 2 ≤ v.toNat) (hmax : v.toNat ≤ 2 ^ 30) :
    (shaveBitsPwr2 v).toNat = 2 ^ (Nat.log2 (v.toNat - 1) + 1) := by
  have hsub : (v - 1).toNat = v.toNat - 1 := by
    rw [BitVec.toNat_sub_of_le (BitVec.le_def.mpr (show (1 : BitVec 64).toNat ≤ v.toNat by
      simp; omega))]
    rfl
  have hlog : Nat.log2 (v.toNat - 1) < 30 := (Nat.log2_lt (by omega)).mpr (by omega)
  rw [shaveBitsPwr2, shaveTable_log2, hsub]
  generalize Nat.log2 (v.toNat - 1) = r at hlog
  have hall : ∀ r < 30, (((2 : BitVec 32) <<< (r % 32)).signExtend 64).toNat = 2 ^ (r + 1) := by
    decide
  exact hall r hlog

end Shave

/-! ## Bins -/

/-- The keys of a map come out of `std::sort` without repetition. -/
theorem pairwise_keys {β : BitVec 64 → Type} (m : AList β) :
    (m.keys.insertionSort (· ≤ ·)).Pairwise (· < ·) := by
  have htotal : Std.Total (α := BitVec 64) (· ≤ ·) := ⟨BitVec.le_total⟩
  have htrans : IsTrans (BitVec 64) (· ≤ ·) := ⟨fun _ _ _ => BitVec.le_trans⟩
  have hsorted : (m.keys.insertionSort (· ≤ ·)).Pairwise (· ≤ ·) := List.pairwise_insertionSort _ _
  have hnodup : (m.keys.insertionSort (· ≤ ·)).Nodup :=
    (List.perm_insertionSort _ _).nodup_iff.mpr m.keys_nodup
  exact (hsorted.and hnodup).imp fun h => BitVec.lt_of_le_ne h.1 h.2

namespace ReuseStats

/-- A distance that is not counted as a miss. -/
def Tracked (s : ReuseStats) (v : BitVec 64) : Prop :=
  v ≠ s.invalid ∧ (s.maxtracking = infinityReuse ∨ v ≤ s.maxtracking)

instance (s : ReuseStats) (v : BitVec 64) : Decidable (s.Tracked v) :=
  inferInstanceAs (Decidable (_ ∧ _))

/-- A distance with a bin of its own. -/
def Individual (s : ReuseStats) (v : BitVec 64) : Prop :=
  s.binindividual = infinityReuse ∨ v ≤ s.binindividual

instance (s : ReuseStats) (v : BitVec 64) : Decidable (s.Individual v) :=
  inferInstanceAs (Decidable (_ ∨ _))

/-- A distance is between the boundaries of a line, and among those the line is about. -/
def BinLine.Has (s : ReuseStats) (line : BinLine) (v : BitVec 64) : Prop :=
  line.lower ≤ v ∧ v ≤ line.upper ∧ (s.Individual line.upper ↔ s.Individual v)

instance (s : ReuseStats) (line : BinLine) (v : BitVec 64) : Decidable (line.Has s v) :=
  inferInstanceAs (Decidable (_ ∧ _ ∧ _))

section Bins

variable {s : ReuseStats} {v d : BitVec 64}

theorem getBin_of_not_tracked (hv : ¬s.Tracked v) : s.getBin v = s.invalid := by
  rw [getBin]
  split
  · rfl
  · rename_i hne
    have hmax : s.maxtracking ≠ infinityReuse ∧ s.maxtracking < v := by
      rw [Tracked, not_and] at hv
      obtain ⟨hinf, hle⟩ := not_or.mp (hv hne)
      exact ⟨hinf, BitVec.not_le.mp hle⟩
    rw [if_pos hmax]

theorem getBin_of_tracked (hv : s.Tracked v) :
    s.getBin v = if s.Individual v then v else shaveBitsPwr2 v := by
  have hmax : ¬(s.maxtracking ≠ infinityReuse ∧ s.maxtracking < v) := fun h =>
    hv.2.elim h.1 (BitVec.not_le.mpr h.2)
  have hind : s.Individual v ↔ ¬(s.binindividual ≠ infinityReuse ∧ s.binindividual < v) := by
    rw [Individual, not_and_or, not_not, BitVec.not_lt]
  rw [getBin, if_neg hv.1, if_neg hmax]
  by_cases h : s.Individual v
  · rw [if_pos h, if_neg (hind.mp h)]
  · rw [if_neg h, if_pos (not_not.mp (mt hind.mpr h))]

/-- The invalid value is no bin of a tracked distance. -/
def Invalid (inv : BitVec 64) : Prop := inv = infinityReuse ∨ inv = BitVec.allOnes 64

/-- The distances that the shift of an `int` is right for. -/
def Shaves (s : ReuseStats) (v : BitVec 64) : Prop := s.Tracked v → s.Individual v ∨ v.toNat ≤ 2 ^ 30

theorem two_le (hv : ¬s.Individual v) : 2 ≤ v.toNat := by
  obtain ⟨hinf, hlt⟩ := not_or.mp hv
  have hpos : s.binindividual.toNat ≠ 0 := fun h => hinf (BitVec.eq_of_toNat_eq h)
  have hlt' := BitVec.lt_def.mp (BitVec.not_le.mp hlt)
  omega

/-- Above the distances that are counted one by one, the bin of a distance is the power of two that
it goes up to. -/
theorem exists_bin (hv : ¬s.Individual v) (hmax : v.toNat ≤ 2 ^ 30) :
    ∃ r, (shaveBitsPwr2 v).toNat = 2 ^ (r + 1) ∧ 2 ^ r < v.toNat ∧ v.toNat ≤ 2 ^ (r + 1) := by
  have htwo := two_le hv
  have hne : v.toNat - 1 ≠ 0 := by omega
  have hle := Nat.log2_self_le hne
  have hlt := Nat.lt_log2_self (n := v.toNat - 1)
  exact ⟨Nat.log2 (v.toNat - 1), shaveBitsPwr2_toNat htwo hmax, by omega, by omega⟩

theorem Individual.of_le {u : BitVec 64} (hu : s.Individual u) (hle : v ≤ u) : s.Individual v :=
  hu.imp_right (BitVec.le_trans hle)

theorem not_individual_shave (hv : ¬s.Individual v) (hmax : v.toNat ≤ 2 ^ 30) :
    ¬s.Individual (shaveBitsPwr2 v) := fun h => by
  obtain ⟨r, hbin, -, hle⟩ := exists_bin hv hmax
  exact hv (h.of_le (BitVec.le_def.mpr (hbin ▸ hle)))

theorem getBin_ne_invalid (hinv : Invalid s.invalid) (hv : s.Tracked v) (hs : s.Shaves v) :
    s.getBin v ≠ s.invalid := by
  rw [getBin_of_tracked hv]
  split
  · exact hv.1
  · rename_i hind
    have hmax := (hs hv).resolve_left hind
    obtain ⟨r, hbin, hlt, -⟩ := exists_bin hind hmax
    have hpow : 2 ^ (r + 1) ≤ 2 ^ 30 := by
      have hr : r < 30 := (Nat.pow_lt_pow_iff_right (by omega)).mp (Nat.lt_of_lt_of_le hlt hmax)
      exact Nat.pow_le_pow_right (by omega) hr
    intro heq
    rw [heq] at hbin
    obtain hzero | hones := hinv
    · rw [hzero] at hbin
      exact absurd hbin.symm (Nat.ne_of_gt (Nat.two_pow_pos _))
    · rw [hones] at hbin
      have htoNat : (BitVec.allOnes 64).toNat = 2 ^ 64 - 1 := by decide
      omega

/-- The boundaries of a line say which of the tracked distances it counts. -/
theorem getBin_eq_iff {v₀ : BitVec 64} {c : BitVec 32} (hinv : Invalid s.invalid)
    (hv₀ : s.Tracked v₀) (hs₀ : s.Shaves v₀) (hs : s.Shaves v) (hd : s.getBin v₀ = d) :
    s.getBin v = d ↔ s.Tracked v ∧ BinLine.Has s ⟨s.lowerBound d, d, c⟩ v := by
  by_cases hv : s.Tracked v
  case neg =>
    rw [getBin_of_not_tracked hv]
    exact ⟨fun h => absurd (hd.trans h.symm) (getBin_ne_invalid hinv hv₀ hs₀), fun h => absurd h.1 hv⟩
  rw [getBin_of_tracked hv₀] at hd
  rw [getBin_of_tracked hv, BinLine.Has]
  dsimp only
  by_cases hind₀ : s.Individual v₀
  · -- the line is about one distance
    rw [if_pos hind₀] at hd
    subst hd
    have hlower : s.lowerBound v₀ = v₀ := if_pos hind₀
    rw [hlower]
    by_cases hind : s.Individual v
    · rw [if_pos hind]
      refine ⟨?_, fun h => BitVec.le_antisymm h.2.2.1 h.2.1⟩
      rintro rfl
      exact ⟨hv, BitVec.le_refl v, BitVec.le_refl v, Iff.rfl⟩
    · rw [if_neg hind]
      have hmax := (hs hv).resolve_left hind
      exact ⟨fun h => absurd (h ▸ hind₀) (not_individual_shave hind hmax),
        fun h => absurd (h.2.2.2.mp hind₀) hind⟩
  · -- the line is about the distances up to a power of two
    rw [if_neg hind₀] at hd
    have hmax₀ := (hs₀ hv₀).resolve_left hind₀
    obtain ⟨r, hbin, -, -⟩ := exists_bin hind₀ hmax₀
    have hindd := not_individual_shave hind₀ hmax₀
    rw [hd] at hbin hindd
    have hlower : (s.lowerBound d).toNat = 2 ^ r + 1 := by
      have hhalf : (d / 2).toNat = 2 ^ r := by
        rw [BitVec.toNat_udiv, hbin, Nat.pow_succ]
        exact Nat.mul_div_cancel _ (by decide)
      have hlt : 2 ^ r + 1 < 2 ^ 64 := by
        have hd := d.isLt
        rw [hbin, Nat.pow_succ] at hd
        omega
      have hsplit : s.lowerBound d = d / 2 + 1 := if_neg hindd
      rw [hsplit, BitVec.toNat_add, hhalf]
      exact Nat.mod_eq_of_lt hlt
    by_cases hind : s.Individual v
    · rw [if_pos hind]
      exact ⟨fun h => absurd (h ▸ hind) hindd, fun h => absurd (h.2.2.2.mpr hind) hindd⟩
    · rw [if_neg hind]
      have hmax := (hs hv).resolve_left hind
      obtain ⟨q, hbin', hlt, hle⟩ := exists_bin hind hmax
      rw [BitVec.le_def, BitVec.le_def, hlower, hbin, ← BitVec.toNat_inj, hbin, hbin']
      constructor
      · intro h
        obtain rfl : q = r := by
          have hinj := Nat.pow_right_injective (Nat.le_refl 2) h
          omega
        exact ⟨hv, by omega, hle, iff_of_false hindd hind⟩
      · rintro ⟨-, hge, hle', -⟩
        have hqr : q < r + 1 := (Nat.pow_lt_pow_iff_right (by omega)).mp (Nat.lt_of_lt_of_le hlt hle')
        have hrq : r < q + 1 := (Nat.pow_lt_pow_iff_right (by omega)).mp (Nat.lt_of_lt_of_le hge hle)
        rw [show q = r by omega]

/-- Every tracked distance is between the boundaries of its bin. -/
theorem has_getBin {c : BitVec 32} (hinv : Invalid s.invalid) (hv : s.Tracked v)
    (hs : s.Shaves v) : BinLine.Has s ⟨s.lowerBound (s.getBin v), s.getBin v, c⟩ v :=
  ((getBin_eq_iff hinv hv hs hs rfl).mp rfl).2

end Bins

/-! ## Updates -/

section Updates

variable {s : ReuseStats} {ds : List (BitVec 64)} {d v : BitVec 64}

/-- Distances that are found one after the other. -/
def updates (s : ReuseStats) (ds : List (BitVec 64)) : ReuseStats := ds.foldl update s

theorem invalid_updates : (s.updates ds).invalid = s.invalid := by
  induction ds generalizing s with
  | nil => rfl
  | cons u ds ih => exact ih

theorem lowerBound_updates : (s.updates ds).lowerBound d = s.lowerBound d := by
  induction ds generalizing s with
  | nil => rfl
  | cons u ds ih => exact ih

theorem countDistance_update :
    (s.update v).countDistance d = s.countDistance d + if s.getBin v = d then 1 else 0 := by
  rw [countDistance, update]
  split
  · rename_i h
    subst h
    rw [AList.lookup_insert]
    rfl
  · rename_i h
    rw [AList.lookup_insert_ne (Ne.symm h)]
    exact (BitVec.add_zero _).symm

/-- The count of a bin is the number of the distances that have it. -/
theorem countDistance_updates :
    (s.updates ds).countDistance d =
      s.countDistance d + BitVec.ofNat 64 (ds.countP (s.getBin · = d)) := by
  induction ds generalizing s with
  | nil => exact (BitVec.add_zero _).symm
  | cons v ds ih =>
    have hstep : (s.updates (v :: ds)).countDistance d = ((s.update v).updates ds).countDistance d := rfl
    rw [hstep, ih, countDistance_update, List.countP_cons, BitVec.ofNat_add, BitVec.add_assoc,
      BitVec.add_comm (if s.getBin v = d then 1 else 0)]
    congr 2
    by_cases h : s.getBin v = d
    · simp [h]
    · simp [h]

theorem mem_distcounts_updates :
    d ∈ (s.updates ds).distcounts ↔ d ∈ s.distcounts ∨ ∃ v ∈ ds, s.getBin v = d := by
  induction ds generalizing s with
  | nil => simp [updates]
  | cons v ds ih =>
    have hstep : (s.updates (v :: ds)).distcounts = ((s.update v).updates ds).distcounts := rfl
    have hbin : ∀ u, (s.update v).getBin u = s.getBin u := fun _ => rfl
    have hmem : d ∈ (s.update v).distcounts ↔ d = s.getBin v ∨ d ∈ s.distcounts := AList.mem_insert _
    rw [hstep, ih, hmem]
    simp only [hbin, List.mem_cons, exists_eq_or_imp]
    tauto

theorem accesses_updates : (s.updates ds).accesses = s.accesses + BitVec.ofNat 64 ds.length := by
  induction ds generalizing s with
  | nil => exact (BitVec.add_zero _).symm
  | cons v ds ih =>
    have hstep : (s.updates (v :: ds)).accesses = ((s.update v).updates ds).accesses := rfl
    rw [hstep, ih, List.length_cons, BitVec.ofNat_add, BitVec.add_comm (BitVec.ofNat 64 ds.length),
      ← BitVec.add_assoc]
    rfl

theorem pairwise_getSortedDistances (s : ReuseStats) : s.getSortedDistances.Pairwise (· < ·) :=
  pairwise_keys s.distcounts

theorem mem_getSortedDistances : d ∈ s.getSortedDistances ↔ d ∈ s.distcounts :=
  (List.mem_insertionSort _).trans AList.mem_keys.symm

/-- Counting the misses does not change what is printed. -/
theorem print_getMissCount (s : ReuseStats) : s.getMissCount.1.print = s.print := by
  have hasymm : Std.Antisymm (α := BitVec 64) (· < ·) :=
    ⟨fun _ _ hab hba => absurd (BitVec.lt_trans hab hba) (BitVec.lt_irrefl _)⟩
  have hirrefl : Std.Irrefl (α := BitVec 64) (· < ·) := ⟨BitVec.lt_irrefl⟩
  have hsorted : s.getMissCount.1.getSortedDistances.filter (· ≠ s.invalid) =
      s.getSortedDistances.filter (· ≠ s.invalid) := by
    refine List.Pairwise.eq_of_mem_iff ((pairwise_getSortedDistances _).filter _)
      ((pairwise_getSortedDistances _).filter _) fun d => ?_
    rw [List.mem_filter, List.mem_filter, mem_getSortedDistances, mem_getSortedDistances,
      getMissCount, AList.mem_insert, decide_eq_true_eq]
    tauto
  have hcount : ∀ d, s.getMissCount.1.countDistance d = s.countDistance d := fun d => by
    rw [countDistance, getMissCount]
    by_cases h : d = s.invalid
    · rw [h, AList.lookup_insert]
      rfl
    · rw [AList.lookup_insert_ne h]
      rfl
  have hbin : s.getMissCount.1.printBin = s.printBin := funext fun d => by
    rw [printBin, hcount]
    rfl
  rw [print, print, hbin]
  exact congrArg (List.mapM s.printBin) hsorted

/-- A bin that has been counted is printed, if the `int` of its count is not wrapped. -/
theorem printBin_updates {n : Nat} (hcount : s.countDistance d = BitVec.ofNat 64 n) (hpos : 0 < n)
    (hlt : n < 2 ^ 32) :
    s.printBin d = some ⟨s.lowerBound d, d, BitVec.ofNat 32 n⟩ := by
  have hcnt : (s.countDistance d).setWidth 32 = BitVec.ofNat 32 n := by
    rw [hcount, BitVec.setWidth_ofNat_of_le (by decide)]
  have hpos' : 0 < BitVec.ofNat 32 n := by
    rw [BitVec.lt_def, BitVec.toNat_ofNat, Nat.mod_eq_of_lt hlt]
    exact hpos
  rw [printBin, hcnt, if_pos hpos']

/-- What is printed after distances have been found: the counts of the lines are those of the
distances between their boundaries, every tracked distance is in one line only, and the number of
misses is that of the others. -/
theorem print_updates {idx bin num inv : BitVec 64} (hinv : Invalid inv) (hlen : ds.length < 2 ^ 32)
    (hshaves : ∀ v ∈ ds, (new idx bin num inv).Shaves v) :
    ∃ lines, ((new idx bin num inv).updates ds).print = some lines ∧
      (lines.map BinLine.upper).Pairwise (· < ·) ∧
      (∀ line ∈ lines, line.count.toNat =
        ds.countP fun v => (new idx bin num inv).Tracked v ∧ line.Has (new idx bin num inv) v) ∧
      (∀ v ∈ ds, (new idx bin num inv).Tracked v →
        ∃ line ∈ lines, line.Has (new idx bin num inv) v ∧
          ∀ other ∈ lines, other.Has (new idx bin num inv) v → other = line) ∧
      ((new idx bin num inv).updates ds).getMissCount.2.toNat =
        ds.countP (¬(new idx bin num inv).Tracked ·) ∧
      ((new idx bin num inv).updates ds).getAccessCount.toNat = ds.length := by
  generalize hnew : new idx bin num inv = s₀ at hshaves ⊢
  have hinv₀ : Invalid s₀.invalid := hnew ▸ hinv
  have hzero : ∀ d, s₀.countDistance d = 0 := fun d => hnew ▸ rfl
  have hempty : ∀ d, d ∉ s₀.distcounts := fun d => hnew ▸ AList.notMem_empty d
  -- the bins that are printed are those of the tracked distances
  have hmem : ∀ d, d ∈ (s₀.updates ds).getSortedDistances ↔ ∃ v ∈ ds, s₀.getBin v = d := fun d => by
    rw [mem_getSortedDistances, mem_distcounts_updates]
    exact or_iff_right (hempty d)
  have htracked : ∀ v, s₀.getBin v ≠ s₀.invalid → s₀.Tracked v := fun v h =>
    not_not.mp (mt getBin_of_not_tracked h)
  have hkeys : ∀ d, d ∈ (s₀.updates ds).getSortedDistances.filter (· ≠ (s₀.updates ds).invalid) ↔
      ∃ v ∈ ds, s₀.Tracked v ∧ s₀.getBin v = d := fun d => by
    rw [List.mem_filter, hmem, invalid_updates, decide_eq_true_eq]
    constructor
    · rintro ⟨⟨v, hv, rfl⟩, hne⟩
      exact ⟨v, hv, htracked v hne, rfl⟩
    · rintro ⟨v, hv, ht, rfl⟩
      exact ⟨⟨v, hv, rfl⟩, getBin_ne_invalid hinv₀ ht (hshaves v hv)⟩
  let lineOf : BitVec 64 → BinLine := fun d =>
    ⟨s₀.lowerBound d, d, BitVec.ofNat 32 (ds.countP (s₀.getBin · = d))⟩
  have hprint : ∀ d ∈ (s₀.updates ds).getSortedDistances.filter (· ≠ (s₀.updates ds).invalid),
      (s₀.updates ds).printBin d = some (lineOf d) := fun d hd => by
    obtain ⟨v, hv, -, hbin⟩ := (hkeys d).mp hd
    have hpos : 0 < ds.countP (s₀.getBin · = d) :=
      List.countP_pos_iff.mpr ⟨v, hv, decide_eq_true hbin⟩
    have hcount : (s₀.updates ds).countDistance d = BitVec.ofNat 64 (ds.countP (s₀.getBin · = d)) := by
      rw [countDistance_updates, hzero]
      exact BitVec.zero_add _
    rw [printBin_updates hcount hpos (Nat.lt_of_le_of_lt List.countP_le_length hlen),
      lowerBound_updates]
  refine ⟨_, mapM_eq_some_map hprint, ?_, fun line hline => ?_, fun v hv ht => ?_, ?_, ?_⟩
  · rw [List.map_map]
    exact List.pairwise_map.mpr ((pairwise_getSortedDistances _).filter _)
  · obtain ⟨d, hd, rfl⟩ := List.mem_map.mp hline
    obtain ⟨u, hu, htu, hbin⟩ := (hkeys d).mp hd
    have hcount : ds.countP (s₀.getBin · = d) =
        ds.countP fun v => s₀.Tracked v ∧ (lineOf d).Has s₀ v :=
      List.countP_congr fun v hv => by
        rw [decide_eq_true_eq, decide_eq_true_eq]
        exact getBin_eq_iff hinv₀ htu (hshaves u hu) (hshaves v hv) hbin
    rw [← hcount]
    exact Nat.mod_eq_of_lt (Nat.lt_of_le_of_lt List.countP_le_length hlen)
  · refine ⟨lineOf (s₀.getBin v), List.mem_map_of_mem ((hkeys _).mpr ⟨v, hv, ht, rfl⟩),
      has_getBin hinv₀ ht (hshaves v hv), fun other hother hhas => ?_⟩
    obtain ⟨d, hd, rfl⟩ := List.mem_map.mp hother
    obtain ⟨u, hu, htu, hbin⟩ := (hkeys d).mp hd
    rw [(getBin_eq_iff hinv₀ htu (hshaves u hu) (hshaves v hv) hbin).mpr ⟨ht, hhas⟩]
  · have hcount : ds.countP (s₀.getBin · = s₀.invalid) = ds.countP (¬s₀.Tracked ·) :=
      List.countP_congr fun v hv => by
        rw [decide_eq_true_eq, decide_eq_true_eq]
        exact ⟨fun h ht => getBin_ne_invalid hinv₀ ht (hshaves v hv) h, getBin_of_not_tracked⟩
    rw [getMissCount, invalid_updates, countDistance_updates, hzero, hcount]
    exact (congrArg BitVec.toNat (BitVec.zero_add _)).trans
      (Nat.mod_eq_of_lt (Nat.lt_of_le_of_lt List.countP_le_length (Nat.lt_trans hlen (by decide))))
  · rw [getAccessCount, accesses_updates, show s₀.accesses = 0 from hnew ▸ rfl]
    exact (congrArg BitVec.toNat (BitVec.zero_add _)).trans
      (Nat.mod_eq_of_lt (Nat.lt_trans hlen (by decide)))

end Updates

end ReuseStats

end Pebil

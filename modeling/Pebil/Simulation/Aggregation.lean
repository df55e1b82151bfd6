import Mathlib.Algebra.BigOperators.Group.List.Basic
import Mathlib.Algebra.BigOperators.Ring.Finset
import Mathlib.Data.Fin.Basic
import Pebil.Lib.Span
import Pebil.Simulation.CacheStats

/-!
# From instructions to blocks (instcode/Simulation.cpp:640–685, 930–978, 1062–1085)

At the end of a run the statistics of the memory operations are folded into those of their
blocks, in `tool_image_fini`. The helpers take their counts in 32 bits, so of each count only the
low half arrives; and a range is folded in by its two bounds, which for an operation without
accesses are the largest and the smallest address, in this order. `aggregated_iff` says when
neither does harm.
-/

namespace Pebil

open scoped List

/-- A 64-bit address. -/
abbrev Address := Fin (2 ^ 64)

/-- `MAX_64BIT_VALUE`. -/
def max64BitValue : Address := 0xffffffffffffffff

/-- `RangeStats`; an `AddressRange` is a `Span`. -/
structure RangeStats where
  counts : Nat → Nat
  ranges : Nat → Span Address

namespace RangeStats

/-- The constructor. -/
def new : RangeStats := ⟨fun _ => 0, fun _ => ⟨max64BitValue, 0⟩⟩

/-- `RangeStats::Update`, which takes `count` in 32 bits. -/
def update (r : RangeStats) (memid : Nat) (addr : Address) (count : Nat) : RangeStats where
  counts := Function.update r.counts memid ((r.counts memid + count % 2 ^ 32) % 2 ^ 64)
  ranges := Function.update r.ranges memid ((r.ranges memid).insert addr)

/-- `AddressRangeHandler::Process` for each access, a memory operation and an address. -/
def ofAccesses (accesses : List (Nat × Address)) : RangeStats :=
  accesses.foldl (fun r a => r.update a.1 a.2 1) new

end RangeStats

namespace CacheStats

/-- `CacheStats::Hit`, which takes `cnt` in 32 bits. -/
def hit (stats : Nat → Nat → LevelStats) (memid lvl cnt : Nat) : Nat → Nat → LevelStats :=
  fun m l =>
    if m = memid ∧ l = lvl then
      { stats m l with hitCount := ((stats m l).hitCount + cnt % 2 ^ 32) % 2 ^ 64 }
    else stats m l

/-- `CacheStats::Miss`. -/
def miss (stats : Nat → Nat → LevelStats) (memid lvl cnt : Nat) : Nat → Nat → LevelStats :=
  fun m l =>
    if m = memid ∧ l = lvl then
      { stats m l with missCount := ((stats m l).missCount + cnt % 2 ^ 32) % 2 ^ 64 }
    else stats m l

end CacheStats

/-- What an image says about its memory operations. Every block has one. -/
structure SimulatedImage where
  instructionCount : Nat
  blockCount : Nat
  perInstruction : Bool
  blockIds : Nat → Nat
  perInstruction_count : perInstruction = true → blockCount = instructionCount
  blockIds_lt : ∀ memid < instructionCount, blockIds memid < blockCount
  blockIds_surj : ∀ b < blockCount, ∃ memid < instructionCount, blockIds memid = b

namespace SimulatedImage

variable (img : SimulatedImage)

/-- `bbid`. -/
def bbid (memid : Nat) : Nat := if img.perInstruction then memid else img.blockIds memid

/-- The memory operations of a block. -/
def members (b : Nat) : Finset Nat :=
  (Finset.range img.instructionCount).filter fun memid => img.bbid memid = b

/-- The addresses that the operations of a block have touched. -/
def touched (accesses : List (Nat × Address)) (b : Nat) : List Address :=
  (accesses.filter fun a => decide (a.1 ∈ img.members b)).map Prod.snd

/-- The loop that fills `aggrange`. -/
def aggregateRanges (r : RangeStats) (memids : List Nat) : RangeStats :=
  memids.foldl (fun agg memid =>
    (agg.update (img.bbid memid) (r.ranges memid).least 0).update (img.bbid memid)
      (r.ranges memid).greatest (r.counts memid)) .new

/-- The inner loop that fills `aggstats[sys]`, for a level. -/
def aggregateLevel (stats : Nat → Nat → LevelStats) (memids : List Nat)
    (c : Nat → Nat → LevelStats) (lvl : Nat) : Nat → Nat → LevelStats :=
  memids.foldl (fun c memid => CacheStats.miss
    (CacheStats.hit c (img.bbid memid) lvl (stats memid lvl).hitCount)
    (img.bbid memid) lvl (stats memid lvl).missCount) c

/-- The loop that fills `aggstats[sys]`. -/
def aggregateStats (stats : Nat → Nat → LevelStats) (levelCount : Nat) (memids : List Nat) :
    Nat → Nat → LevelStats :=
  (List.range levelCount).foldl (img.aggregateLevel stats memids) fun _ _ => ⟨0, 0⟩

/-- The blocks have the sums and the ranges of their operations. -/
structure Aggregated (stats : Nat → Nat → LevelStats) (levelCount : Nat)
    (accesses : List (Nat × Address)) (memids : List Nat) : Prop where
  hits : ∀ b < img.blockCount, ∀ lvl < levelCount,
    (img.aggregateStats stats levelCount memids b lvl).hitCount =
      (∑ memid ∈ img.members b, (stats memid lvl).hitCount) % 2 ^ 64
  misses : ∀ b < img.blockCount, ∀ lvl < levelCount,
    (img.aggregateStats stats levelCount memids b lvl).missCount =
      (∑ memid ∈ img.members b, (stats memid lvl).missCount) % 2 ^ 64
  ranges : ∀ b < img.blockCount,
    (img.aggregateRanges (.ofAccesses accesses) memids).ranges b =
      Span.ofList (img.touched accesses b)

/-- The high halves of the counts of a block come to nothing, and either all of its operations
have been executed or both ends of the address space have been touched. -/
structure Foldable (stats : Nat → Nat → LevelStats) (levelCount : Nat)
    (accesses : List (Nat × Address)) : Prop where
  hits : ∀ b < img.blockCount, ∀ lvl < levelCount,
    2 ^ 32 ∣ ∑ memid ∈ img.members b, (stats memid lvl).hitCount / 2 ^ 32
  misses : ∀ b < img.blockCount, ∀ lvl < levelCount,
    2 ^ 32 ∣ ∑ memid ∈ img.members b, (stats memid lvl).missCount / 2 ^ 32
  ranges : ∀ b < img.blockCount, (∀ memid ∈ img.members b, ∃ a ∈ accesses, a.1 = memid) ∨
    (0 ∈ img.touched accesses b ∧ max64BitValue ∈ img.touched accesses b)

variable {img} {stats : Nat → Nat → LevelStats} {levelCount b lvl memid : Nat}
  {accesses : List (Nat × Address)} {memids : List Nat}

theorem mem_members : memid ∈ img.members b ↔ memid < img.instructionCount ∧ img.bbid memid = b := by
  rw [members, Finset.mem_filter, Finset.mem_range]

/-- Both aggregates have room for every block. -/
theorem bbid_lt (h : memid < img.instructionCount) :
    img.bbid memid < img.blockCount ∧ img.bbid memid < img.instructionCount := by
  unfold bbid
  split_ifs with hper
  · exact ⟨(img.perInstruction_count hper).symm ▸ h, h⟩
  · have hlt := img.blockIds_lt memid h
    refine ⟨hlt, lt_of_lt_of_le hlt ?_⟩
    -- every block has an operation of its own
    have hsubset : Finset.range img.blockCount ⊆
        (Finset.range img.instructionCount).image img.blockIds := by
      intro b hb
      obtain ⟨m, hm, rfl⟩ := img.blockIds_surj b (Finset.mem_range.mp hb)
      exact Finset.mem_image_of_mem _ (Finset.mem_range.mpr hm)
    have hcard := (Finset.card_le_card hsubset).trans Finset.card_image_le
    rwa [Finset.card_range, Finset.card_range] at hcard

/-! ## Counts -/

/-- What one operation adds to a block. -/
def addCounts (img : SimulatedImage) (stats : Nat → Nat → LevelStats) (lvl b : Nat)
    (e : LevelStats) (memid : Nat) : LevelStats :=
  if img.bbid memid = b then
    ⟨(e.hitCount + (stats memid lvl).hitCount % 2 ^ 32) % 2 ^ 64,
      (e.missCount + (stats memid lvl).missCount % 2 ^ 32) % 2 ^ 64⟩
  else e

/-- A level is filled block by block, and the other levels stay. -/
theorem aggregateLevel_apply (c : Nat → Nat → LevelStats) (lvl' : Nat) :
    img.aggregateLevel stats memids c lvl b lvl' =
      if lvl' = lvl then memids.foldl (img.addCounts stats lvl b) (c b lvl') else c b lvl' := by
  unfold aggregateLevel
  induction memids generalizing c with
  | nil => simp
  | cons memid memids ih =>
    rw [List.foldl_cons, ih, List.foldl_cons]
    by_cases hlvl : lvl' = lvl
    · subst hlvl
      by_cases hb : b = img.bbid memid
      · simp [CacheStats.hit, CacheStats.miss, addCounts, hb]
      · simp [CacheStats.hit, CacheStats.miss, addCounts, hb, Ne.symm hb]
    · simp [CacheStats.hit, CacheStats.miss, hlvl]

theorem foldl_aggregateLevel_apply (c : Nat → Nat → LevelStats) {lvls : List Nat}
    (hnodup : lvls.Nodup) :
    lvls.foldl (img.aggregateLevel stats memids) c b lvl =
      if lvl ∈ lvls then memids.foldl (img.addCounts stats lvl b) (c b lvl) else c b lvl := by
  induction lvls generalizing c with
  | nil => simp
  | cons lvl' lvls ih =>
    obtain ⟨hnew, hnodup⟩ := List.nodup_cons.mp hnodup
    rw [List.foldl_cons, ih _ hnodup, aggregateLevel_apply]
    by_cases heq : lvl = lvl'
    · subst heq
      simp [hnew]
    · simp [heq]

variable (img stats lvl b memids) in
/-- The low halves of the counts of a block's operations add up. -/
theorem foldl_addCounts (h m : Nat) :
    memids.foldl (img.addCounts stats lvl b) ⟨h % 2 ^ 64, m % 2 ^ 64⟩ =
      ⟨(h + ((memids.filter (img.bbid · = b)).map
          fun memid => (stats memid lvl).hitCount % 2 ^ 32).sum) % 2 ^ 64,
        (m + ((memids.filter (img.bbid · = b)).map
          fun memid => (stats memid lvl).missCount % 2 ^ 32).sum) % 2 ^ 64⟩ := by
  induction memids generalizing h m with
  | nil => rfl
  | cons memid memids ih =>
    rw [List.foldl_cons, addCounts]
    by_cases hb : img.bbid memid = b
    · rw [if_pos hb, Nat.mod_add_mod, Nat.mod_add_mod, ih, List.filter_cons_of_pos (by simpa using hb),
        List.map_cons, List.map_cons, List.sum_cons, List.sum_cons, Nat.add_assoc, Nat.add_assoc]
    · rw [if_neg hb, ih, List.filter_cons_of_neg (by simpa using hb)]

/-- A sum over a block, in the order of the fold. -/
theorem sum_members (hperm : memids ~ List.range img.instructionCount) (f : Nat → Nat) :
    ((memids.filter (img.bbid · = b)).map f).sum = ∑ memid ∈ img.members b, f memid := by
  have hfilter := (hperm.filter (img.bbid · = b)).map f
  rw [hfilter.sum_eq]
  rfl

theorem aggregateStats_apply (hperm : memids ~ List.range img.instructionCount)
    (hlvl : lvl < levelCount) :
    img.aggregateStats stats levelCount memids b lvl =
      ⟨(∑ memid ∈ img.members b, (stats memid lvl).hitCount % 2 ^ 32) % 2 ^ 64,
        (∑ memid ∈ img.members b, (stats memid lvl).missCount % 2 ^ 32) % 2 ^ 64⟩ := by
  have hsum := foldl_addCounts img stats b lvl memids 0 0
  rw [Nat.zero_mod, Nat.zero_add, Nat.zero_add, sum_members hperm, sum_members hperm] at hsum
  rw [aggregateStats, foldl_aggregateLevel_apply _ List.nodup_range,
    if_pos (List.mem_range.mpr hlvl), hsum]

/-- Counts may lose their high halves if these come to a multiple of 2^64 together. -/
theorem sum_low_eq_iff (s : Finset Nat) (f : Nat → Nat) :
    (∑ i ∈ s, f i % 2 ^ 32) % 2 ^ 64 = (∑ i ∈ s, f i) % 2 ^ 64 ↔ 2 ^ 32 ∣ ∑ i ∈ s, f i / 2 ^ 32 := by
  have hsplit : ∑ i ∈ s, f i = ∑ i ∈ s, f i % 2 ^ 32 + 2 ^ 32 * ∑ i ∈ s, f i / 2 ^ 32 := by
    rw [Finset.mul_sum, ← Finset.sum_add_distrib]
    exact Finset.sum_congr rfl fun i _ => (Nat.mod_add_div _ _).symm
  rw [hsplit]
  omega

/-! ## Ranges -/

/-- The first value of a range leaves other ranges as they are. -/
theorem max64BitValue_eq : (⟨max64BitValue, 0⟩ : Span Address) = .empty := rfl

theorem ranges_ofAccesses (accesses : List (Nat × Address)) (memid : Nat) :
    (RangeStats.ofAccesses accesses).ranges memid =
      Span.ofList ((accesses.filter fun a => a.1 = memid).map Prod.snd) := by
  have hfold : ∀ r : RangeStats,
      (accesses.foldl (fun r a => r.update a.1 a.2 1) r).ranges memid =
        ((accesses.filter fun a => a.1 = memid).map Prod.snd).foldl Span.insert (r.ranges memid) := by
    induction accesses with
    | nil => exact fun r => rfl
    | cons a accesses ih =>
      intro r
      rw [List.foldl_cons, ih]
      by_cases ha : a.1 = memid
      · subst ha
        simp [RangeStats.update]
      · simp [RangeStats.update, ha, Ne.symm ha]
  exact hfold .new

/-- A block's range is made of the bounds of its operations' ranges. -/
theorem ranges_aggregateRanges (r : RangeStats) (memids : List Nat) :
    (img.aggregateRanges r memids).ranges b = Span.ofList ((memids.filter (img.bbid · = b)).flatMap
      fun memid => [(r.ranges memid).least, (r.ranges memid).greatest]) := by
  have hfold : ∀ agg : RangeStats,
      (memids.foldl (fun agg memid =>
        (agg.update (img.bbid memid) (r.ranges memid).least 0).update (img.bbid memid)
          (r.ranges memid).greatest (r.counts memid)) agg).ranges b =
        ((memids.filter (img.bbid · = b)).flatMap
          fun memid => [(r.ranges memid).least, (r.ranges memid).greatest]).foldl Span.insert
          (agg.ranges b) := by
    induction memids with
    | nil => exact fun agg => rfl
    | cons memid memids ih =>
      intro agg
      rw [List.foldl_cons, ih]
      by_cases hb : img.bbid memid = b
      · subst hb
        simp [RangeStats.update]
      · simp [RangeStats.update, hb, Ne.symm hb]
  exact hfold .new

/-- What an operation gives to its block: its bounds if it was executed, and otherwise both
ends of the address space. -/
theorem bounds_ofAccesses (accesses : List (Nat × Address)) (memid : Nat) :
    (∃ x, (memid, x) ∈ accesses) ∧
        (∀ a, (a ≤ ((RangeStats.ofAccesses accesses).ranges memid).least ∧
          a ≤ ((RangeStats.ofAccesses accesses).ranges memid).greatest) ↔
          ∀ x, (memid, x) ∈ accesses → a ≤ x) ∧
        (∀ a, (((RangeStats.ofAccesses accesses).ranges memid).least ≤ a ∧
          ((RangeStats.ofAccesses accesses).ranges memid).greatest ≤ a) ↔
          ∀ x, (memid, x) ∈ accesses → x ≤ a) ∨
      (∀ a ∈ accesses, a.1 ≠ memid) ∧
        (RangeStats.ofAccesses accesses).ranges memid = ⟨max64BitValue, 0⟩ := by
  have hmem : ∀ x, x ∈ ((accesses.filter fun a => a.1 = memid).map Prod.snd) ↔
      (memid, x) ∈ accesses := by
    intro x
    simp only [List.mem_map, List.mem_filter, decide_eq_true_eq]
    constructor
    · rintro ⟨⟨m, y⟩, ⟨h, rfl⟩, rfl⟩
      exact h
    · exact fun h => ⟨(memid, x), ⟨h, rfl⟩, rfl⟩
  rw [ranges_ofAccesses]
  generalize (accesses.filter fun a => a.1 = memid).map Prod.snd = l at hmem
  cases l with
  | nil =>
    refine .inr ⟨?_, rfl⟩
    rintro ⟨m, x⟩ ha rfl
    exact List.not_mem_nil ((hmem x).mpr ha)
  | cons x l =>
    have hne : x :: l ≠ [] := List.cons_ne_nil x l
    have hle : (Span.ofList (x :: l)).least ≤ (Span.ofList (x :: l)).greatest :=
      ((Span.isLeast hne).2 (by simp : x ∈ {y | y ∈ x :: l})).trans
        ((Span.isGreatest hne).2 (by simp : x ∈ {y | y ∈ x :: l}))
    refine .inl ⟨⟨x, (hmem x).mp List.mem_cons_self⟩, fun a => ?_, fun a => ?_⟩
    · simp only [← hmem]
      rw [← Span.le_least_iff]
      exact ⟨And.left, fun h => ⟨h, h.trans hle⟩⟩
    · simp only [← hmem]
      rw [← Span.greatest_le_iff]
      exact ⟨And.right, fun h => ⟨hle.trans h, h⟩⟩

theorem mem_touched {x : Address} :
    x ∈ img.touched accesses b ↔ ∃ memid ∈ img.members b, (memid, x) ∈ accesses := by
  simp only [touched, List.mem_map, List.mem_filter, decide_eq_true_eq]
  constructor
  · rintro ⟨⟨memid, y⟩, ⟨ha, hmem⟩, rfl⟩
    exact ⟨memid, hmem, ha⟩
  · rintro ⟨memid, hmem, ha⟩
    exact ⟨(memid, x), ⟨ha, hmem⟩, rfl⟩

/-- The range of a block is that of the addresses touched, if all of its operations were
executed; otherwise it is the whole address space. -/
theorem aggregateRanges_apply (hperm : memids ~ List.range img.instructionCount) :
    (img.aggregateRanges (.ofAccesses accesses) memids).ranges b =
      if ∀ memid ∈ img.members b, ∃ a ∈ accesses, a.1 = memid then
        Span.ofList (img.touched accesses b)
      else ⟨0, max64BitValue⟩ := by
  have hmem : ∀ memid, memid ∈ memids.filter (img.bbid · = b) ↔ memid ∈ img.members b := by
    intro memid
    rw [mem_members, List.mem_filter, hperm.mem_iff, List.mem_range, decide_eq_true_eq]
  rw [ranges_aggregateRanges]
  split_ifs with hall
  · have hbounds : ∀ memid ∈ img.members b, _ := fun memid hmemid =>
      (bounds_ofAccesses accesses memid).resolve_right fun h => by
        obtain ⟨a, ha, heq⟩ := hall memid hmemid
        exact h.1 a ha heq
    refine Span.ext_bounds (fun a => ?_) fun a => ?_
    · rw [Span.le_least_iff, Span.le_least_iff, List.forall_mem_flatMap]
      constructor
      · intro h x hx
        obtain ⟨memid, hmemid, hx⟩ := mem_touched.mp hx
        have hpair := h memid ((hmem memid).mpr hmemid)
        exact ((hbounds memid hmemid).2.1 a).mp ⟨hpair _ (by simp), hpair _ (by simp)⟩ x hx
      · intro h memid hmemid
        have hmemid := (hmem memid).mp hmemid
        have hpair := ((hbounds memid hmemid).2.1 a).mpr fun x hx =>
          h x (mem_touched.mpr ⟨memid, hmemid, hx⟩)
        simpa using hpair
    · rw [Span.greatest_le_iff, Span.greatest_le_iff, List.forall_mem_flatMap]
      constructor
      · intro h x hx
        obtain ⟨memid, hmemid, hx⟩ := mem_touched.mp hx
        have hpair := h memid ((hmem memid).mpr hmemid)
        exact ((hbounds memid hmemid).2.2 a).mp ⟨hpair _ (by simp), hpair _ (by simp)⟩ x hx
      · intro h memid hmemid
        have hmemid := (hmem memid).mp hmemid
        have hpair := ((hbounds memid hmemid).2.2 a).mpr fun x hx =>
          h x (mem_touched.mpr ⟨memid, hmemid, hx⟩)
        simpa using hpair
  · -- the bounds of an operation that was not executed are at both ends
    push Not at hall
    obtain ⟨memid, hmemid, hnone⟩ := hall
    have hends : (RangeStats.ofAccesses accesses).ranges memid = ⟨max64BitValue, 0⟩ := by
      rcases bounds_ofAccesses accesses memid with ⟨⟨x, hx⟩, -⟩ | ⟨-, hends⟩
      · exact absurd rfl (hnone _ hx)
      · exact hends
    have hin : ∀ x ∈ [max64BitValue, 0], x ∈ (memids.filter (img.bbid · = b)).flatMap fun memid =>
        [((RangeStats.ofAccesses accesses).ranges memid).least,
          ((RangeStats.ofAccesses accesses).ranges memid).greatest] := by
      intro x hx
      refine List.mem_flatMap.mpr ⟨memid, (hmem memid).mpr hmemid, ?_⟩
      rwa [hends]
    refine Span.ext_bounds (fun a => ?_) fun a => ?_
    · rw [Span.le_least_iff]
      exact ⟨fun h => h 0 (hin 0 (by simp)), fun h x _ => h.trans (Fin.zero_le x)⟩
    · rw [Span.greatest_le_iff]
      exact ⟨fun h => h max64BitValue (hin max64BitValue (by simp)), fun h x _ => le_trans (Fin.le_last x) h⟩

/-- The whole address space is the range of addresses only if both of its ends are touched. -/
theorem ofList_eq_whole_iff (l : List Address) :
    (⟨0, max64BitValue⟩ : Span Address) = Span.ofList l ↔ 0 ∈ l ∧ max64BitValue ∈ l := by
  constructor
  · intro h
    have hne : l ≠ [] := by
      rintro rfl
      cases h
    have hleast := (Span.isLeast hne).1
    have hgreatest := (Span.isGreatest hne).1
    rw [← h] at hleast hgreatest
    exact ⟨hleast, hgreatest⟩
  · rintro ⟨hzero, hmax⟩
    refine Span.ext_bounds (fun a => ?_) fun a => ?_
    · rw [Span.le_least_iff]
      exact ⟨fun h x _ => h.trans (Fin.zero_le x), fun h => h 0 hzero⟩
    · rw [Span.greatest_le_iff]
      exact ⟨fun h x _ => le_trans (Fin.le_last x) h, fun h => h max64BitValue hmax⟩

/-- The statistics of the blocks are right, in whatever order they are folded, if and only if
the counts and ranges are `Foldable`. -/
theorem aggregated_iff (img : SimulatedImage) (stats : Nat → Nat → LevelStats) (levelCount : Nat)
    (accesses : List (Nat × Address)) (hperm : memids ~ List.range img.instructionCount) :
    img.Aggregated stats levelCount accesses memids ↔ img.Foldable stats levelCount accesses := by
  constructor
  · intro h
    constructor
    case hits =>
      intro b hb lvl hlvl
      have hsum := h.hits b hb lvl hlvl
      rw [aggregateStats_apply hperm hlvl] at hsum
      exact (sum_low_eq_iff _ _).mp hsum
    case misses =>
      intro b hb lvl hlvl
      have hsum := h.misses b hb lvl hlvl
      rw [aggregateStats_apply hperm hlvl] at hsum
      exact (sum_low_eq_iff _ _).mp hsum
    case ranges =>
      intro b hb
      have hrange := h.ranges b hb
      rw [aggregateRanges_apply hperm] at hrange
      split_ifs at hrange with hall
      · exact .inl hall
      · exact .inr ((ofList_eq_whole_iff _).mp hrange)
  · intro h
    constructor
    case hits =>
      intro b hb lvl hlvl
      rw [aggregateStats_apply hperm hlvl]
      exact (sum_low_eq_iff _ _).mpr (h.hits b hb lvl hlvl)
    case misses =>
      intro b hb lvl hlvl
      rw [aggregateStats_apply hperm hlvl]
      exact (sum_low_eq_iff _ _).mpr (h.misses b hb lvl hlvl)
    case ranges =>
      intro b hb
      rw [aggregateRanges_apply hperm]
      split_ifs with hall
      · rfl
      · exact (ofList_eq_whole_iff _).mpr ((h.ranges b hb).resolve_left hall)

/-- Two operations in one block. -/
def pairImage : SimulatedImage where
  instructionCount := 2
  blockCount := 1
  perInstruction := false
  blockIds _ := 0
  perInstruction_count := by decide
  blockIds_lt := by decide
  blockIds_surj := fun b hb => ⟨0, by decide, by omega⟩

theorem aggregated_iff_pair : [1, 0] ~ List.range pairImage.instructionCount ∧
    (pairImage.Aggregated (fun _ _ => ⟨3, 2⟩) 1 [(0, 64), (1, 128)] [1, 0] ↔
      pairImage.Foldable (fun _ _ => ⟨3, 2⟩) 1 [(0, 64), (1, 128)]) :=
  ⟨by decide, aggregated_iff pairImage _ 1 _ (by decide)⟩

/-- The second operation is not executed, and its block's range begins at 0. -/
theorem not_aggregated_of_untouched : ¬ ∀ (img : SimulatedImage)
    (stats : Nat → Nat → LevelStats) (levelCount : Nat) (accesses : List (Nat × Address))
    (memids : List Nat), memids ~ List.range img.instructionCount →
    img.Aggregated stats levelCount accesses memids := by
  intro h
  have hrange := (h pairImage (fun _ _ => ⟨1, 0⟩) 1 [(0, 64)] [0, 1] (by decide)).ranges 0 (by decide)
  have hleast := congrArg Span.least hrange
  revert hleast
  decide

end SimulatedImage

end Pebil

import Pebil.Reuse.ReuseStatsCorrect

/-!
# What is printed for the ids

The statistics of an id are those of the distances that have been found for it, in order. So a
report has an entry for every id with a distance, which is about the distances of that id.
-/

namespace Pebil

namespace StatsMap

variable {make : BitVec 64 → ReuseStats} {stats : StatsMap} {seen : List (BitVec 64 × Nat)}
  {id dist : BitVec 64}

/-! ## Counting -/

/-- The statistics of an id, or those that are made for it. -/
def statsOf (make : BitVec 64 → ReuseStats) (stats : StatsMap) (id : BitVec 64) : ReuseStats :=
  (stats.lookup id).join.getD (make id)

theorem update_spec (make : BitVec 64 → ReuseStats) (stats : StatsMap) (id dist : BitVec 64) :
    ∃ stats', update make stats id dist = some stats' ∧
      stats'.lookup id = some (some ((statsOf make stats id).update dist)) ∧
      ∀ id', id' ≠ id → stats'.lookup id' = stats.lookup id' := by
  rw [update, getStats, statsOf]
  cases (stats.lookup id).join with
  | some s => exact ⟨_, rfl, AList.lookup_insert _, fun id' h => AList.lookup_insert_ne h⟩
  | none =>
    exact ⟨_, rfl, AList.lookup_insert _, fun id' h =>
      (AList.lookup_insert_ne h).trans (AList.lookup_insert_ne h)⟩

/-- The distances of an id, as they are given to its statistics. -/
def distancesOf (id : BitVec 64) (seen : List (BitVec 64 × Nat)) : List (BitVec 64) :=
  (seen.filter (·.1 = id)).map fun x => BitVec.ofNat 64 x.2

/-- The statistics are those of the distances that have been seen. -/
def Counted (make : BitVec 64 → ReuseStats) (stats : StatsMap) (seen : List (BitVec 64 × Nat)) :
    Prop :=
  ∀ id, stats.lookup id =
    if distancesOf id seen = [] then none else some (some ((make id).updates (distancesOf id seen)))

theorem Counted.statsOf (h : Counted make stats seen) (id : BitVec 64) :
    statsOf make stats id = (make id).updates (distancesOf id seen) := by
  rw [StatsMap.statsOf, h id]
  split
  · rename_i hnil
    rw [hnil]
    rfl
  · rfl

theorem Counted.update (h : Counted make stats seen) (id : BitVec 64) (n : Nat) :
    ∃ stats', update make stats id (BitVec.ofNat 64 n) = some stats' ∧
      Counted make stats' (seen ++ [(id, n)]) := by
  obtain ⟨stats', heq, hself, hother⟩ := update_spec make stats id (BitVec.ofNat 64 n)
  refine ⟨stats', heq, fun id' => ?_⟩
  by_cases hid : id' = id
  · subst hid
    have hdist : distancesOf id' (seen ++ [(id', n)]) =
        distancesOf id' seen ++ [BitVec.ofNat 64 n] := by
      simp [distancesOf]
    rw [hdist, if_neg (by simp), hself, h.statsOf, ReuseStats.updates, ReuseStats.updates,
      List.foldl_append]
    rfl
  · have hdist : distancesOf id' (seen ++ [(id, n)]) = distancesOf id' seen := by
      simp [distancesOf, Ne.symm hid]
    rw [hdist]
    exact (hother id' hid).trans (h id')

theorem counted_empty (make : BitVec 64 → ReuseStats) : Counted make ∅ [] := fun _ => rfl

theorem Counted.lookup_iff (h : Counted make stats seen) {s : Option ReuseStats} :
    stats.lookup id = some s ↔
      distancesOf id seen ≠ [] ∧ s = some ((make id).updates (distancesOf id seen)) := by
  rw [h id]
  split
  · rename_i hnil
    exact ⟨fun h => absurd h.symm (Option.some_ne_none s), fun h => absurd hnil h.1⟩
  · rename_i hne
    rw [Option.some.injEq, eq_comm]
    exact (and_iff_right hne).symm

/-! ## The report -/

/-- The lines of an id are about its accesses: how many there are, how many are misses, and how many
have a distance between the boundaries of a line. Every distance that is no miss is in one line
only. -/
structure Describes (make : BitVec 64 → ReuseStats) (missed : Nat → Bool)
    (seen : List (BitVec 64 × Nat)) (i : IdReport) : Prop where
  accesses : i.accesses.toNat = seen.countP (·.1 = i.id)
  misses : i.misses.toNat = seen.countP fun x => x.1 = i.id ∧ missed x.2
  count : ∀ line ∈ i.bins, line.count.toNat = seen.countP fun x =>
    x.1 = i.id ∧ ¬missed x.2 ∧ line.Has (make i.id) (BitVec.ofNat 64 x.2)
  unique : ∀ x ∈ seen, x.1 = i.id → ¬missed x.2 → ∃ line ∈ i.bins,
    line.Has (make i.id) (BitVec.ofNat 64 x.2) ∧
      ∀ other ∈ i.bins, other.Has (make i.id) (BitVec.ofNat 64 x.2) → other = line

/-- A report has an entry for every id, in order, which is about the accesses of that id, and totals
that are about all accesses. -/
structure Reports (make : BitVec 64 → ReuseStats) (missed : Nat → Bool)
    (seen : List (BitVec 64 × Nat)) (report : Report) : Prop where
  sorted : (report.body.map IdReport.id).Pairwise (· < ·)
  ids : ∀ id, id ∈ report.body.map IdReport.id ↔ ∃ x ∈ seen, x.1 = id
  body : ∀ i ∈ report.body, Describes make missed seen i
  tot : report.tot.toNat = seen.length
  mis : report.mis.toNat = seen.countP fun x => missed x.2

/-- What the distances that are seen are like: no more than can be counted, those that are shaved
are not too large, and the misses are the distances that the statistics do not track. -/
structure Seen (make : BitVec 64 → ReuseStats) (missed : Nat → Bool)
    (seen : List (BitVec 64 × Nat)) : Prop where
  new : ∀ id, ∃ bin num inv, make id = .new id bin num inv ∧ ReuseStats.Invalid inv
  length : seen.length < 2 ^ 32
  shaves : ∀ id, ∀ x ∈ seen, (make id).Shaves (BitVec.ofNat 64 x.2)
  tracked : ∀ id, ∀ x ∈ seen, (make id).Tracked (BitVec.ofNat 64 x.2) ↔ ¬missed x.2

section Report

variable {missed : Nat → Bool}

/-- Counting the distances of an id. -/
theorem countP_distancesOf (p : BitVec 64 → Bool) :
    (distancesOf id seen).countP p = seen.countP fun x => x.1 = id ∧ p (BitVec.ofNat 64 x.2) := by
  rw [distancesOf, List.countP_map, List.countP_filter]
  refine List.countP_congr fun x _ => ?_
  simp [and_comm]

theorem distancesOf_ne_nil : distancesOf id seen ≠ [] ↔ ∃ x ∈ seen, x.1 = id := by
  rw [distancesOf, Ne, List.map_eq_nil_iff, List.filter_eq_nil_iff]
  simp

theorem printId_id {i : IdReport} (h : printId stats id = some i) : i.id = id := by
  rw [printId, Option.bind_eq_bind, Option.bind_eq_some_iff] at h
  obtain ⟨r, -, h⟩ := h
  rw [Option.bind_eq_bind, Option.bind_eq_some_iff] at h
  obtain ⟨bins, -, h⟩ := h
  obtain rfl := Option.some.inj h
  rfl

/-- What is printed for an id. -/
theorem printId_spec (hcounted : Counted make stats seen) (hseen : Seen make missed seen)
    (hid : distancesOf id seen ≠ []) :
    ∃ i, printId stats id = some i ∧ i.id = id ∧ Describes make missed seen i := by
  obtain ⟨bin, num, inv, hnew, hinv⟩ := hseen.new id
  have hlen : (distancesOf id seen).length < 2 ^ 32 := by
    rw [distancesOf, List.length_map]
    exact Nat.lt_of_le_of_lt (List.length_filter_le _ _) hseen.length
  have hshaves : ∀ v ∈ distancesOf id seen, (ReuseStats.new id bin num inv).Shaves v := fun v hv => by
    obtain ⟨x, hx, rfl⟩ := List.mem_map.mp hv
    rw [← hnew]
    exact hseen.shaves id x (List.mem_filter.mp hx).1
  obtain ⟨lines, hprint, -, hcount, hunique, hmisses, haccesses⟩ :=
    ReuseStats.print_updates hinv hlen hshaves
  rw [← hnew] at hprint hcount hunique hmisses haccesses
  have hstats : (stats.lookup id).join = some ((make id).updates (distancesOf id seen)) := by
    rw [hcounted id, if_neg hid]
    rfl
  let s := (make id).updates (distancesOf id seen)
  refine ⟨⟨id, s.getAccessCount, s.getMissCount.2, lines⟩, ?_, rfl, ?_, ?_, fun line hline => ?_,
    fun x hx hxid hne => ?_⟩
  · simp only [printId, hstats, ReuseStats.print_getMissCount, hprint, Option.bind_eq_bind,
      Option.bind_some, Option.pure_def]
    rfl
  · dsimp only
    rw [haccesses, distancesOf, List.length_map, List.countP_eq_length_filter]
  · dsimp only
    rw [hmisses, countP_distancesOf]
    refine List.countP_congr fun x hx => ?_
    simp [hseen.tracked id x hx]
  · rw [hcount line hline, countP_distancesOf]
    refine List.countP_congr fun x hx => ?_
    simp [hseen.tracked id x hx]
  · have hmem : BitVec.ofNat 64 x.2 ∈ distancesOf id seen :=
      List.mem_map_of_mem (List.mem_filter.mpr ⟨hx, decide_eq_true hxid⟩)
    exact hunique _ hmem ((hseen.tracked id x hx).mpr hne)

/-- The counts for the ids add up to the count for all. -/
theorem foldl_countP {keys : List (BitVec 64)} (hnodup : keys.Nodup) {l : List (BitVec 64 × Nat)}
    (hcover : ∀ x ∈ l, x.1 ∈ keys) (p : BitVec 64 × Nat → Bool) (n : BitVec 64) :
    (keys.map fun k => BitVec.ofNat 64 (l.countP fun x => x.1 = k ∧ p x)).foldl (· + ·) n =
      n + BitVec.ofNat 64 (l.countP p) := by
  induction keys generalizing l n with
  | nil =>
    obtain rfl : l = [] := List.eq_nil_iff_forall_not_mem.mpr fun x hx =>
      absurd (hcover x hx) List.not_mem_nil
    exact (BitVec.add_zero n).symm
  | cons k keys ih =>
    obtain ⟨hk, hnodup⟩ := List.nodup_cons.mp hnodup
    -- an access of another id is not counted for `k`
    have hrest : ∀ k' ∈ keys, (l.countP fun x => x.1 = k' ∧ p x) =
        (l.filter (·.1 ≠ k)).countP fun x => x.1 = k' ∧ p x := fun k' hk' => by
      rw [List.countP_filter]
      refine List.countP_congr fun x _ => ?_
      have hne : x.1 = k' → x.1 ≠ k := fun h h' => hk (h' ▸ h ▸ hk')
      simp only [Bool.and_eq_true, decide_eq_true_eq]
      tauto
    have hsplit : l.countP p =
        (l.countP fun x => x.1 = k ∧ p x) + (l.filter (·.1 ≠ k)).countP p := by
      rw [List.countP_eq_countP_filter_add l p (·.1 = k), List.countP_filter]
      congr 1
      · exact List.countP_congr fun x _ => by simp [and_comm]
      · simp
    have hcover' : ∀ x ∈ l.filter (·.1 ≠ k), x.1 ∈ keys := fun x hx => by
      obtain ⟨hx, hne⟩ := List.mem_filter.mp hx
      exact (List.mem_cons.mp (hcover x hx)).resolve_left (of_decide_eq_true hne)
    rw [List.map_cons, List.foldl_cons, List.map_congr_left fun k' hk' => by rw [hrest k' hk'],
      ih hnodup hcover', hsplit, BitVec.ofNat_add, BitVec.add_assoc]

theorem Counted.mem_keys (h : Counted make stats seen) :
    id ∈ stats.keys ↔ ∃ x ∈ seen, x.1 = id := by
  rw [← AList.mem_keys, ← AList.lookup_isSome, h id, ← distancesOf_ne_nil]
  split
  · rename_i hnil
    simp [hnil]
  · rename_i hne
    simp [hne]

theorem print_spec (hcounted : Counted make stats seen) (hseen : Seen make missed seen)
    (capacity binindividual maxtracking : BitVec 64) :
    ∃ report, print stats capacity binindividual maxtracking = some report ∧
      Reports make missed seen report := by
  have hkeys : ∀ id, id ∈ stats.keys.insertionSort (· ≤ ·) ↔ ∃ x ∈ seen, x.1 = id := fun id =>
    (List.perm_insertionSort (· ≤ ·) stats.keys).mem_iff.trans hcounted.mem_keys
  have hid : ∀ id ∈ stats.keys.insertionSort (· ≤ ·),
      ∃ i, printId stats id = some i ∧ i.id = id ∧ Describes make missed seen i := fun id hmem =>
    printId_spec hcounted hseen (distancesOf_ne_nil.mpr ((hkeys id).mp hmem))
  obtain ⟨body, hbody⟩ := exists_mapM fun id hmem => (hid id hmem).imp fun _ h => h.1
  have hall : ∀ i ∈ body, Describes make missed seen i := fun i hi => by
    obtain ⟨id, hmem, hprint⟩ := (mem_mapM_iff hbody).mp hi
    obtain ⟨i', hprint', -, hdescribes⟩ := hid id hmem
    obtain rfl := Option.some.inj (hprint.symm.trans hprint')
    exact hdescribes
  have hids : body.map IdReport.id = stats.keys.insertionSort (· ≤ ·) := by
    have hforall : List.Forall₂ (fun id i => id = IdReport.id i)
        (stats.keys.insertionSort (· ≤ ·)) body :=
      (mapM_eq_some_iff.mp hbody).imp fun _ _ h => (printId_id h).symm
    have heq := List.forall₂_map_right_iff.mpr hforall
    rw [List.forall₂_eq_eq_eq] at heq
    exact heq.symm
  have hmem : ∀ id, id ∈ body.map IdReport.id ↔ ∃ x ∈ seen, x.1 = id := fun id => hids ▸ hkeys id
  have hsorted : (body.map IdReport.id).Pairwise (· < ·) := hids ▸ pairwise_keys stats
  have hnodup : (body.map IdReport.id).Nodup := hsorted.imp fun h => BitVec.ne_of_lt h
  have hcover : ∀ x ∈ seen, x.1 ∈ body.map IdReport.id := fun x hx => (hmem _).mpr ⟨x, hx, rfl⟩
  refine ⟨{ capacity, binindividual, maxtracking
            ids := (stats.keys.insertionSort (· ≤ ·)).length
            tot := (body.map IdReport.accesses).foldl (· + ·) 0
            mis := (body.map IdReport.misses).foldl (· + ·) 0, body },
    ?_, hsorted, hmem, hall, ?_, ?_⟩
  · simp only [print, hbody, Option.bind_eq_bind, Option.bind_some, Option.pure_def]
  · have hmap : body.map IdReport.accesses = (body.map IdReport.id).map fun k =>
        BitVec.ofNat 64 (seen.countP fun x => x.1 = k ∧ true) := by
      rw [List.map_map]
      refine List.map_congr_left fun i hi => ?_
      simp only [Function.comp, and_true, ← (hall i hi).accesses, BitVec.ofNat_toNat,
        BitVec.setWidth_eq]
    dsimp only
    rw [hmap, foldl_countP hnodup hcover fun _ => true, List.countP_true]
    exact (congrArg BitVec.toNat (BitVec.zero_add _)).trans
      (Nat.mod_eq_of_lt (Nat.lt_trans hseen.length (by decide)))
  · have hmap : body.map IdReport.misses = (body.map IdReport.id).map fun k =>
        BitVec.ofNat 64 (seen.countP fun x => x.1 = k ∧ missed x.2) := by
      rw [List.map_map]
      refine List.map_congr_left fun i hi => ?_
      simp only [Function.comp, ← (hall i hi).misses, BitVec.ofNat_toNat, BitVec.setWidth_eq]
    dsimp only
    rw [hmap, foldl_countP hnodup hcover fun x => missed x.2]
    exact (congrArg BitVec.toNat (BitVec.zero_add _)).trans (Nat.mod_eq_of_lt
      (Nat.lt_of_le_of_lt List.countP_le_length (Nat.lt_trans hseen.length (by decide))))

end Report

end StatsMap

end Pebil

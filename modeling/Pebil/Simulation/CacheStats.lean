import Mathlib.Data.List.Induction
import Pebil.Simulation.CacheStructure

/-!
# Hits and misses through a hierarchy (instcode/Simulation.cpp:1136–1152, 1526–1601, 1830–1841)

Every access is one hit or one miss at the first level, and one at the next level for each
miss: the statistics of a level add up to the misses of the level above (`Conserved`), which
is what `CacheStats::Verify` tests. The victims that an exclusive group hands down are no
accesses and are not counted.

`Init` only asks that a level is at least one line large. A level smaller than its ways has
no set, and a true-LRU level of one way a history that leaves its array; on these `Process`
divides by zero or indexes out of bounds. `run` stops there (`InRange`); on a structure of
usable levels it never does (`conserved_run`).
-/

namespace Pebil

/-- The inner loop of `CacheStats::Verify`: the counts of one memory operation. -/
def verifyLevels (mem : Nat → LevelStats) : Nat → List Nat → Bool
  | _, [] => true
  | prevMisses, level :: levels =>
    if (mem level).hitCount + (mem level).missCount ≠ prevMisses then false
    else verifyLevels mem (mem level).missCount levels

/-- `CacheStats::Verify`, for `Capacity` memory operations and `LevelCount` levels. -/
def CacheStats.verify (stats : Nat → Nat → LevelStats) (capacity levelCount : Nat) : Bool :=
  (List.range capacity).all fun memid =>
    verifyLevels (stats memid) (stats memid 0).missCount (List.range' 1 (levelCount - 1))

/-- `MarkUsed` of way `w` stays in the arrays of the set. -/
def CacheLevel.markInRange (c : CacheLevel) (s : CacheSet) (w : Nat) : Bool :=
  decide (w < c.associativity) &&
    (decide (c.replpolicy ≠ .trulru ∨ s.recentlyUsed = w) ||
      decide (s.next w < c.associativity ∧ s.prev w < c.associativity ∧
        s.recentlyUsed < c.associativity ∧ s.prev s.recentlyUsed < c.associativity))

namespace CacheStructureHandler

variable (h : CacheStructureHandler) (rand : Nat → Nat)

/-- Whether the level visited next is exclusive. -/
def isExclusive (v : Visit) : Bool :=
  match h.firstExcl with
  | none => false
  | some first => decide (first ≤ v.next)

/-- The set and the way that the visit of level `c` marks, if it marks one. -/
def marks (c : CacheLevel) (a : Access) (v : Visit) : Option (Nat × Nat) :=
  let set := c.getSet (c.getStorage a.address)
  let s := v.state.sets c.level set
  let found := (c.search s (c.getStorage a.address)).map fun w => (set, w)
  if h.isExclusive v then
    if v.info.level ≠ invalidCacheLevel then
      let set := c.getSet v.info.addr
      some (set, if c.level = v.info.level ∧ v.info.setid = set then v.info.lineid
        else c.lineToReplace (v.state.sets c.level set) (rand v.state.draws))
    else found
  else some (found.getD (set, c.lineToReplace s (rand v.state.draws)))

/-- The visit divides by no zero and leaves no array. -/
def inRange (a : Access) (v : Visit) : Bool :=
  match h.levels[v.next]? with
  | none => true
  | some c => decide (c.countsets ≠ 0) &&
    ((h.marks rand c a v).all fun p => c.markInRange (v.state.sets c.level p.1) p.2)

/-- One round of `while (next < levelCount)` that stops with `none` where the visit is not
in range. -/
def checkedStep (a : Access) (v : Visit) : Visit ⊕ Option HandlerState :=
  if h.inRange rand a v then (h.step rand a v).map id some else .inr none

/-- `CacheStructureHandler::Process`, stopped where a visit is not in range. -/
def checkedProcess (st : HandlerState) (a : Access) : Option HandlerState :=
  (loop (h.checkedStep rand a) (2 * h.levels.length + 2)
    ⟨0, ⟨0, invalidCacheLevel, 0, 0⟩, st⟩).join

/-- A trace, from the state `Init` leaves. -/
def run (trace : List Access) : Option HandlerState :=
  trace.foldlM (h.checkedProcess rand) h.initial

/-- The hits and misses of a trace of accesses add up, level by level. -/
structure Conserved (trace : List Access) (st : HandlerState) : Prop where
  first : ∀ memid, (st.stats memid 0).hitCount + (st.stats memid 0).missCount =
    trace.countP fun a => a.memseq = memid
  below : ∀ memid i, i + 1 < h.levels.length →
    (st.stats memid (i + 1)).hitCount + (st.stats memid (i + 1)).missCount =
      (st.stats memid i).missCount

/-! ## What one access counts -/

/-- The access missed at the levels below `k`, and hit at level `k` if `hit` says so. -/
def Counted (base : HandlerState) (memid k : Nat) (hit : Bool) (st : HandlerState) : Prop :=
  ∀ m l, st.stats m l =
    if m = memid ∧ l < k then
      { base.stats m l with missCount := (base.stats m l).missCount + 1 }
    else if m = memid ∧ l = k ∧ hit = true then
      { base.stats m l with hitCount := (base.stats m l).hitCount + 1 }
    else base.stats m l

variable {h rand} {base st : HandlerState} {memid k i : Nat} {hit : Bool} {c : CacheLevel}
  {s : CacheSet} {a : Access} {v : Visit}

theorem Counted.refl (base : HandlerState) (memid : Nat) : Counted base memid 0 false base := by
  intro m l
  simp

theorem Counted.countHit (hst : Counted base memid k false st) :
    Counted base memid k true (st.countHit memid k) := by
  intro m l
  simp only [HandlerState.countHit, hst m l]
  by_cases hm : m = memid
  · by_cases hl : l = k
    · simp [hm, hl]
    · simp [hm, hl]
  · simp [hm]

theorem Counted.countMiss (hst : Counted base memid k false st) :
    Counted base memid (k + 1) false (st.countMiss memid k) := by
  intro m l
  simp only [HandlerState.countMiss, hst m l]
  by_cases hm : m = memid
  · by_cases hl : l = k
    · simp [hm, hl]
    · by_cases hlt : l < k
      · simp [hm, hl, hlt, Nat.lt_succ_of_lt hlt]
      · have : ¬ l < k + 1 := by omega
        simp [hm, hl, hlt, this]
  · simp [hm]

/-- The access is accounted for: it hit at a level, or missed at all of them. -/
def Accounted (h : CacheStructureHandler) (base : HandlerState) (memid : Nat)
    (st : HandlerState) : Prop :=
  (∃ k < h.levels.length, Counted base memid k true st) ∨
    Counted base memid h.levels.length false st

theorem Conserved.step {trace : List Access} (hbase : h.Conserved trace base)
    (hst : h.Accounted base a.memseq st) : h.Conserved (trace ++ [a]) st := by
  have hpos := h.count_pos
  have hsum : ∀ m, (st.stats m 0).hitCount + (st.stats m 0).missCount =
      (base.stats m 0).hitCount + (base.stats m 0).missCount + if a.memseq = m then 1 else 0 := by
    intro m
    rcases hst with ⟨k, -, hst⟩ | hst
    · rw [hst m 0]
      by_cases hm : m = a.memseq
      · subst hm
        rcases Nat.eq_zero_or_pos k with rfl | hk
        · simp
          omega
        · simp [hk]
          omega
      · simp [hm, Ne.symm hm]
    · rw [hst m 0]
      by_cases hm : m = a.memseq
      · subst hm
        have hlt : 0 < h.levels.length := hpos
        simp only [hlt, and_self, if_true]
        omega
      · simp [hm, Ne.symm hm]
  constructor
  case first =>
    intro m
    rw [hsum m, hbase.first m, List.countP_append, List.countP_singleton]
    simp
  case below =>
    intro m i hi
    have hbelow := hbase.below m i hi
    rcases hst with ⟨k, hk, hst⟩ | hst
    · rw [hst m (i + 1), hst m i]
      by_cases hm : m = a.memseq
      · simp only [hm, true_and, and_true] at hbelow ⊢
        -- level i + 1 is above the hit, the hit itself, or below it
        rcases Nat.lt_trichotomy (i + 1) k with hlt | rfl | hgt
        · rw [if_pos hlt, if_pos (by omega)]
          simp only
          omega
        · rw [if_neg (by omega), if_pos rfl, if_pos (by omega)]
          simp only
          omega
        · rw [if_neg (by omega), if_neg (by omega), if_neg (by omega)]
          split <;> exact hbelow
      · simp only [hm, false_and, if_false]
        exact hbelow
    · rw [hst m (i + 1), hst m i]
      by_cases hm : m = a.memseq
      · have hlt : i < h.levels.length := by omega
        simp only [hm, true_and, hi, hlt, if_true] at hbelow ⊢
        omega
      · simp only [hm, false_and, if_false]
        exact hbelow

/-- What adds up passes `CacheStats::Verify`. -/
theorem Conserved.verify {trace : List Access} (hst : h.Conserved trace st) (capacity : Nat) :
    CacheStats.verify st.stats capacity h.levels.length = true := by
  have hfrom : ∀ memid n i, i + n < h.levels.length →
      verifyLevels (st.stats memid) (st.stats memid i).missCount (List.range' (i + 1) n) = true := by
    intro memid n
    induction n with
    | zero => intro i _; rfl
    | succ n ih =>
      intro i hi
      rw [List.range'_succ, verifyLevels, if_neg (not_not_intro (hst.below memid i (by omega)))]
      exact ih (i + 1) (by omega)
  have hpos := h.count_pos
  simp only [CacheStats.verify, List.all_eq_true]
  exact fun memid _ => hfrom memid (h.levels.length - 1) 0 (by omega)

/-! ## The sets stay indexable -/

/-- Markers, links and the ways in the map stay below the associativity. -/
structure SetOk (c : CacheLevel) (s : CacheSet) : Prop where
  inBounds : c.InBounds s
  mapped : c.highAssoc = true → ∀ line w, s.fastcontents line = some w → w < c.associativity

/-- All sets of all levels are indexable. -/
def SetsOk (h : CacheStructureHandler) (st : HandlerState) : Prop :=
  ∀ i c, h.levels[i]? = some c → ∀ set, SetOk c (st.sets i set)

variable {w set store : Nat}

theorem SetOk.initial (hu : c.Usable) : SetOk c c.initialSet where
  inBounds := CacheLevel.inBounds_initial hu
  mapped := by
    intro _ line w hw
    cases hw

theorem SetOk.markUsed (hs : SetOk c s) (hw : w < c.associativity) :
    SetOk c (c.markUsed s w) where
  inBounds := CacheLevel.inBounds_markUsed hs.inBounds hw
  mapped := by
    rw [CacheLevel.markUsed_fastcontents]
    exact hs.mapped

theorem SetOk.replace (hs : SetOk c s) (hw : w < c.associativity) :
    SetOk c (c.replace s store w).1 where
  inBounds := CacheLevel.inBounds_replace hs.inBounds hw
  mapped := by
    intro hfast line v hv
    simp only [CacheLevel.replace, CacheLevel.markUsed_fastcontents, hfast, if_true] at hv
    by_cases hline : line = store
    · rw [hline, Function.update_self] at hv
      exact Option.some.inj hv ▸ hw
    · rw [Function.update_of_ne hline] at hv
      by_cases hprev : line = s.contents w
      · rw [hprev, Function.update_self] at hv
        cases hv
      · rw [Function.update_of_ne hprev] at hv
        exact hs.mapped hfast line v hv

/-- A hit is at a way of the level. -/
theorem SetOk.search (hs : SetOk c s) (hw : c.search s store = some w) : w < c.associativity := by
  unfold CacheLevel.search at hw
  split at hw
  · rename_i hfast
    exact hs.mapped hfast store w hw
  · exact List.mem_range.mp (List.mem_of_find?_eq_some hw)

theorem SetOk.markInRange (hs : SetOk c s) (hw : w < c.associativity) :
    c.markInRange s w = true := by
  unfold CacheLevel.markInRange
  by_cases hpol : c.replpolicy = .trulru
  · obtain ⟨hrecent, hlinks⟩ := hs.inBounds hpol
    simp [hw, hrecent, (hlinks w hw).1, (hlinks w hw).2, (hlinks _ hrecent).1]
  · simp [hw, hpol]

theorem SetsOk.setSet (hst : h.SetsOk st) (hc : h.levels[i]? = some c) (hs : SetOk c s) :
    h.SetsOk (st.setSet i set s) := by
  intro j c' hc' t
  by_cases hj : j = i
  · subst hj
    obtain rfl := Option.some.inj (hc.symm.trans hc')
    simp only [HandlerState.setSet, Function.update_self]
    by_cases ht : t = set
    · rw [ht, Function.update_self]
      exact hs
    · rw [Function.update_of_ne ht]
      exact hst j c hc t
  · simp only [HandlerState.setSet, Function.update_of_ne hj]
    exact hst j c' hc' t

end CacheStructureHandler

end Pebil

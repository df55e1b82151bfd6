import Pebil.Simulation.CacheStats
import Pebil.Simulation.ExclusiveCorrect

/-!
# Hits and misses add up on usable levels

One access is followed through its visits by `Stage`: it searches, and has missed at every
level above the next one, or it is accounted for, and what is still visited takes victims.
-/

namespace Pebil.CacheStructureHandler

variable {h : CacheStructureHandler} {rand : Nat → Nat} {base : HandlerState} {a : Access}
  {v : Visit} {c : CacheLevel} {first : Nat}

/-- The visits of an access that has missed so far. -/
structure Searching (h : CacheStructureHandler) (base : HandlerState) (a : Access) (v : Visit) :
    Prop where
  le : v.next ≤ h.levels.length
  level : v.info.level = invalidCacheLevel
  counted : Counted base a.memseq v.next false v.state
  sets : h.SetsOk v.state

/-- The visits of an access that is accounted for: only levels of the exclusive group are
still to come, and the place of the hit is a way of its level. -/
structure Settled (h : CacheStructureHandler) (base : HandlerState) (a : Access) (v : Visit) :
    Prop where
  accounted : h.Accounted base a.memseq v.state
  sets : h.SetsOk v.state
  victims : v.next < h.levels.length →
    v.info.level ≠ invalidCacheLevel ∧ ∃ first, h.firstExcl = some first ∧ first ≤ v.next
  lineid : ∀ c, h.levels[v.info.level]? = some c → v.info.lineid < c.associativity

/-- The invariant of the visits of one access. -/
inductive Stage (h : CacheStructureHandler) (base : HandlerState) (a : Access) (v : Visit) :
    Prop where
  | searching : Searching h base a v → Stage h base a v
  | settled : Settled h base a v → Stage h base a v

theorem SetsOk.setSet_level {st : HandlerState} {set : Nat} {s : CacheSet} (hst : h.SetsOk st)
    (hc : h.levels[v.next]? = some c) (hs : SetOk c s) : h.SetsOk (st.setSet c.level set s) := by
  rw [h.level_eq v.next c hc]
  exact hst.setSet hc hs

theorem isExclusive_iff :
    h.isExclusive v = true ↔ ∃ first, h.firstExcl = some first ∧ first ≤ v.next := by
  unfold isExclusive
  cases h.firstExcl <;> simp

/-- The round that visits level `c`. -/
theorem step_of_level (hc : h.levels[v.next]? = some c) :
    (h.isExclusive v = false → h.step rand a v = .inl (inclusiveProcess rand c a v)) ∧
      (∀ first, h.firstExcl = some first → first ≤ v.next →
        h.step rand a v = .inl (exclusiveProcess rand c first (h.levels.length - 1) a v)) := by
  constructor
  · intro hnot
    unfold step
    rw [hc]
    cases hfirst : h.firstExcl with
    | none => rfl
    | some first =>
      simp only [isExclusive, hfirst, decide_eq_false_iff_not] at hnot
      simp only [hnot, if_false]
  · intro first hfirst hle
    unfold step
    simp only [hc, hfirst, hle, if_true]

section Visits

variable (hu : c.Usable) (hc : h.levels[v.next]? = some c)

include hc

theorem Searching.set (hv : Searching h base a v) (set : Nat) :
    SetOk c (v.state.sets c.level set) := by
  rw [h.level_eq v.next c hc]
  exact hv.sets v.next c hc set

theorem Settled.set (hv : Settled h base a v) (set : Nat) :
    SetOk c (v.state.sets c.level set) := by
  rw [h.level_eq v.next c hc]
  exact hv.sets v.next c hc set

include hu

/-- An inclusive level ends the search or passes it on. -/
theorem Searching.inclusive (hv : Searching h base a v) :
    Stage h base a (inclusiveProcess rand c a v) ∧
      remaining h (inclusiveProcess rand c a v) < remaining h v := by
  have hlevel := h.level_eq v.next c hc
  have hlt : v.next < h.levels.length := (List.getElem?_eq_some_iff.mp hc).1
  have hset := hv.set hc
  have hcounted := hlevel ▸ hv.counted
  rw [remaining_seeking hlt hv.level]
  unfold inclusiveProcess
  simp only
  split
  · rename_i w hsearch
    constructor
    · refine .settled ⟨.inl ⟨c.level, hlevel ▸ hlt, hcounted.countHit⟩, ?_, ?_, ?_⟩
      · exact SetsOk.setSet_level (v := v) hv.sets hc ((hset _).markUsed ((hset _).search hsearch))
      · intro hnext
        exact absurd hnext (length_lt_invalid h).le.not_gt
      · intro c' hc'
        rw [hv.level, List.getElem?_eq_none (length_lt_invalid h).le] at hc'
        cases hc'
    · rw [remaining_done (length_lt_invalid h).le]
      omega
  · rename_i hsearch
    have hw := CacheLevel.lineToReplace_lt (rand v.state.draws) hu
      (hset (c.getSet (c.getStorage a.address))).inBounds
    constructor
    · refine .searching ⟨hlevel ▸ hlt, hv.level, hcounted.countMiss, ?_⟩
      exact SetsOk.setSet_level (v := v) hv.sets hc ((hset _).replace hw)
    · rcases Nat.eq_or_lt_of_le (Nat.succ_le_of_lt hlt) with hlast | hmore
      · rw [remaining_done (by simp only [hlevel]; omega)]
        omega
      · refine lt_of_eq_of_lt (remaining_seeking ?_ hv.level) ?_
        · simp only [hlevel]
          omega
        · simp only [hlevel]
          omega

/-- A victim changes sets only, and goes on to the next level. -/
theorem Settled.exclusive (hlevel : v.info.level ≠ invalidCacheLevel)
    (hv : Settled h base a v) :
    Stage h base a (victimize rand c v) ∧
      remaining h (victimize rand c v) < remaining h v := by
  have heq := h.level_eq v.next c hc
  have hlt : v.next < h.levels.length := (List.getElem?_eq_some_iff.mp hc).1
  obtain ⟨-, first, hfirst, hle⟩ := hv.victims hlt
  have hset := hv.set hc (c.getSet v.info.addr)
  have hw : (if c.level = v.info.level ∧ v.info.setid = c.getSet v.info.addr then v.info.lineid
      else c.lineToReplace (v.state.sets c.level (c.getSet v.info.addr)) (rand v.state.draws)) <
        c.associativity := by
    split
    · rename_i hhere
      exact hv.lineid c (by rw [← hhere.1, heq]; exact hc)
    · exact CacheLevel.lineToReplace_lt _ hu hset.inBounds
  rw [remaining_carrying hlt hlevel]
  unfold victimize
  simp only
  constructor
  · refine .settled ⟨hv.accounted, ?_, ?_, hv.lineid⟩
    · exact SetsOk.setSet_level (v := v) hv.sets hc (hset.replace hw)
    · intro hnext
      refine ⟨hlevel, first, hfirst, ?_⟩
      split at hnext
      · exact absurd hnext (length_lt_invalid h).le.not_gt
      · rename_i hne
        rw [if_neg hne]
        show first ≤ c.level + 1
        omega
  · by_cases hhere : c.level = v.info.level
    · simp only [hhere, if_true]
      rw [remaining_done (length_lt_invalid h).le]
      omega
    · simp only [hhere, if_false]
      rcases Nat.eq_or_lt_of_le (Nat.succ_le_of_lt hlt) with hlast | hmore
      · rw [remaining_done (by simp only [heq]; omega)]
        omega
      · refine lt_of_eq_of_lt (remaining_carrying ?_ hlevel) ?_
        · simp only [heq]
          omega
        · simp only [heq]
          omega

omit hu in
/-- An exclusive level ends the search and starts the victims on their way, or passes it on. -/
theorem Searching.exclusive (hfirst : h.firstExcl = some first) (hle : first ≤ v.next)
    (hv : Searching h base a v) :
    Stage h base a (lookUp c first (h.levels.length - 1) a v) ∧
      remaining h (lookUp c first (h.levels.length - 1) a v) < remaining h v := by
  have heq := h.level_eq v.next c hc
  have hlt : v.next < h.levels.length := (List.getElem?_eq_some_iff.mp hc).1
  have hset := hv.set hc (c.getSet (c.getStorage a.address))
  have hcounted := heq ▸ hv.counted
  have hinvalid := length_lt_invalid h
  rw [remaining_seeking hlt hv.level]
  unfold lookUp
  simp only
  split
  · rename_i w hsearch
    have hvalid : c.level ≠ invalidCacheLevel := by omega
    constructor
    · refine .settled ⟨.inl ⟨c.level, heq ▸ hlt, hcounted.countHit⟩, ?_, ?_, ?_⟩
      · exact SetsOk.setSet_level (v := v) hv.sets hc (hset.markUsed (hset.search hsearch))
      · intro hnext
        refine ⟨hvalid, first, hfirst, ?_⟩
        split at hnext
        · exact absurd hnext hinvalid.le.not_gt
        · rename_i hne
          rw [if_neg hne]
      · intro c' hc'
        obtain rfl := Option.some.inj (hc.symm.trans (heq ▸ hc'))
        exact hset.search hsearch
    · by_cases hhere : c.level = first
      · simp only [hhere, if_true]
        rw [remaining_done hinvalid.le]
        omega
      · simp only [hhere, if_false]
        refine lt_of_eq_of_lt (remaining_carrying ?_ hvalid) ?_
        · simp only
          omega
        · simp only
          omega
  · split
    · rename_i hlast
      have hlength : h.levels.length - 1 + 1 = h.levels.length := by omega
      constructor
      · refine .settled ⟨.inr ?_, hv.sets, ?_, ?_⟩
        · have hmissed := hcounted.countMiss
          rw [hlast, hlength] at hmissed
          rw [hlast]
          exact hmissed
        · intro _
          exact ⟨by simp only [hlength]; exact hinvalid.ne, first, hfirst, le_refl first⟩
        · intro c' hc'
          rw [hlength, List.getElem?_eq_none (le_refl _)] at hc'
          cases hc'
      · refine lt_of_eq_of_lt (remaining_carrying ?_ ?_) ?_
        · simp only
          omega
        · simp only [hlength]
          exact hinvalid.ne
        · simp only
          omega
    · rename_i hmore
      constructor
      · exact .searching ⟨by simp only; omega, hv.level, hcounted.countMiss, hv.sets⟩
      · refine lt_of_eq_of_lt (remaining_seeking ?_ hv.level) ?_
        · simp only
          omega
        · simp only
          omega

end Visits

/-! ## One access and whole runs -/

/-- A visit of a usable level is in range. -/
theorem Stage.inRange (hu : ∀ c ∈ h.levels, c.Usable) (hv : Stage h base a v) :
    h.inRange rand a v = true := by
  unfold CacheStructureHandler.inRange
  cases hc : h.levels[v.next]? with
  | none => rfl
  | some c =>
    have huc := hu c (List.mem_of_getElem? hc)
    have hsets : ∀ set, SetOk c (v.state.sets c.level set) := by
      cases hv with
      | searching hv => exact hv.set hc
      | settled hv => exact hv.set hc
    have hpos : c.countsets ≠ 0 := huc.countsets_pos.ne'
    have hreplace : ∀ set n, c.lineToReplace (v.state.sets c.level set) n < c.associativity :=
      fun set n => CacheLevel.lineToReplace_lt n huc (hsets set).inBounds
    have hsearch : ∀ set store w, c.search (v.state.sets c.level set) store = some w →
        w < c.associativity := fun set store w hw => (hsets set).search hw
    simp only [hpos, ne_eq, not_false_eq_true, decide_true, Bool.true_and, Option.all_eq_true]
    rintro ⟨set, w⟩ hmarks
    refine (hsets set).markInRange ?_
    unfold marks at hmarks
    simp only at hmarks
    split at hmarks
    · split at hmarks
      · -- a victim goes to the place of the hit, or to the way to replace
        rename_i hlevel
        obtain ⟨rfl, rfl⟩ := Prod.mk.inj (Option.some.inj hmarks)
        split
        · rename_i hhere
          cases hv with
          | searching hv => exact absurd hv.level hlevel
          | settled hv =>
            exact hv.lineid c (by rw [← hhere.1, h.level_eq v.next c hc]; exact hc)
        · exact hreplace _ _
      · obtain ⟨w', hw', heq⟩ := Option.map_eq_some_iff.mp hmarks
        obtain ⟨rfl, rfl⟩ := Prod.mk.inj heq
        exact hsearch _ _ _ hw'
    · cases hfound : c.search
          (v.state.sets c.level (c.getSet (c.getStorage a.address))) (c.getStorage a.address) with
      | some w' =>
        simp only [hfound, Option.map_some, Option.getD_some, Option.some.injEq] at hmarks
        obtain ⟨rfl, rfl⟩ := Prod.mk.inj hmarks
        exact hsearch _ _ _ hfound
      | none =>
        simp only [hfound, Option.map_none, Option.getD_none, Option.some.injEq] at hmarks
        obtain ⟨rfl, rfl⟩ := Prod.mk.inj hmarks
        exact hreplace _ _

/-- One visit keeps the invariant and brings the access closer to its end. -/
theorem Stage.step (rand : Nat → Nat) (hu : ∀ c ∈ h.levels, c.Usable) (hv : Stage h base a v) :
    (∃ v', h.step rand a v = .inl v' ∧ Stage h base a v' ∧ remaining h v' < remaining h v) ∨
      ∃ st, h.step rand a v = .inr st ∧ h.Accounted base a.memseq st ∧ h.SetsOk st := by
  cases hc : h.levels[v.next]? with
  | none =>
    refine .inr ⟨v.state, by unfold CacheStructureHandler.step; rw [hc], ?_⟩
    cases hv with
    | searching hv =>
      have heq : v.next = h.levels.length :=
        le_antisymm hv.le (List.getElem?_eq_none_iff.mp hc)
      exact ⟨.inr (heq ▸ hv.counted), hv.sets⟩
    | settled hv => exact ⟨hv.accounted, hv.sets⟩
  | some c =>
    have huc := hu c (List.mem_of_getElem? hc)
    have hlt : v.next < h.levels.length := (List.getElem?_eq_some_iff.mp hc).1
    cases hv with
    | searching hv =>
      cases hex : h.isExclusive v with
      | false => exact .inl ⟨_, (step_of_level hc).1 hex, hv.inclusive huc hc⟩
      | true =>
        obtain ⟨first, hfirst, hle⟩ := isExclusive_iff.mp hex
        refine .inl ⟨_, (step_of_level hc).2 _ hfirst hle, ?_⟩
        unfold exclusiveProcess
        rw [if_neg (not_not_intro hv.level)]
        exact hv.exclusive hc hfirst hle
    | settled hv =>
      obtain ⟨hlevel, first, hfirst, hle⟩ := hv.victims hlt
      refine .inl ⟨_, (step_of_level hc).2 _ hfirst hle, ?_⟩
      unfold exclusiveProcess
      rw [if_pos hlevel]
      exact hv.exclusive huc hc hlevel

/-- An access of a structure of usable levels goes through, and is counted once at every
level down to the one that has its line. -/
theorem checkedProcess_counted (rand : Nat → Nat) (a : Access) (hu : ∀ c ∈ h.levels, c.Usable)
    (hbase : h.SetsOk base) :
    ∃ st, h.checkedProcess rand base a = some st ∧ h.Accounted base a.memseq st ∧ h.SetsOk st := by
  have hstart : Stage h base a ⟨0, ⟨0, invalidCacheLevel, 0, 0⟩, base⟩ :=
    .searching ⟨Nat.zero_le _, rfl, Counted.refl base a.memseq, hbase⟩
  have hloop : ∃ r, loop (h.checkedStep rand a) (2 * h.levels.length + 2)
      ⟨0, ⟨0, invalidCacheLevel, 0, 0⟩, base⟩ = some r ∧
        ∃ st, r = some st ∧ h.Accounted base a.memseq st ∧ h.SetsOk st := by
    refine loop_total (Stage h base a) (remaining h) _ (fun v hv => ?_) hstart ?_
    · unfold checkedStep
      rw [if_pos (hv.inRange hu)]
      rcases hv.step rand hu with ⟨v', hstep, hv', hlt⟩ | ⟨st, hstep, hst⟩
      · exact .inl ⟨v', by rw [hstep]; rfl, hv', hlt⟩
      · exact .inr ⟨some st, by rw [hstep]; rfl, st, rfl, hst⟩
    · have hpos := h.count_pos
      rw [remaining_seeking (by simp only; omega) rfl]
      omega
  obtain ⟨r, hr, st, rfl, hst⟩ := hloop
  exact ⟨st, by unfold checkedProcess; rw [hr]; rfl, hst⟩

theorem setsOk_initial (hu : ∀ c ∈ h.levels, c.Usable) : h.SetsOk h.initial := by
  intro i c hc set
  simp only [initial, hc]
  exact SetOk.initial (hu c (List.mem_of_getElem? hc))

theorem conserved_initial : h.Conserved [] h.initial where
  first _ := rfl
  below _ _ _ := rfl

/-- On usable levels a run comes to its end, and its sets stay indexable. -/
theorem exists_run (h : CacheStructureHandler) (hu : ∀ c ∈ h.levels, c.Usable)
    (rand : Nat → Nat) (trace : List Access) :
    ∃ st, h.run rand trace = some st ∧ h.Conserved trace st ∧ h.SetsOk st := by
  induction trace using List.reverseRecOn with
  | nil => exact ⟨h.initial, rfl, conserved_initial, setsOk_initial hu⟩
  | append_singleton trace a ih =>
    obtain ⟨base, hbase, hconserved, hsets⟩ := ih
    obtain ⟨st, hst, haccounted, hsets'⟩ := checkedProcess_counted rand a hu hsets
    refine ⟨st, ?_, hconserved.step haccounted, hsets'⟩
    unfold run at hbase ⊢
    rw [List.foldlM_append, hbase]
    simpa using hst

/-- On a structure of usable levels every trace goes through, and its hits and misses add
up, so that `CacheStats::Verify` holds. -/
theorem conserved_run (h : CacheStructureHandler) (hu : ∀ c ∈ h.levels, c.Usable)
    (rand : Nat → Nat) (trace : List Access) :
    ∃ st, h.run rand trace = some st ∧ h.Conserved trace st ∧
      ∀ capacity, CacheStats.verify st.stats capacity h.levels.length = true := by
  obtain ⟨st, hst, hconserved, -⟩ := exists_run h hu rand trace
  exact ⟨st, hst, hconserved, hconserved.verify⟩

/-- An inclusive level above a victim cache. -/
theorem conserved_run_mixed :
    (∀ c ∈ ((init [⟨256, 2, 64, .trulru, false⟩, ⟨512, 4, 64, .nmru, true⟩]).get
        (by decide)).levels, c.Usable) ∧
      ∃ st, ((init [⟨256, 2, 64, .trulru, false⟩, ⟨512, 4, 64, .nmru, true⟩]).get
        (by decide)).run (fun _ => 0) [⟨0, 64⟩, ⟨1, 128⟩, ⟨0, 64⟩] = some st ∧
        ((init [⟨256, 2, 64, .trulru, false⟩, ⟨512, 4, 64, .nmru, true⟩]).get
          (by decide)).Conserved [⟨0, 64⟩, ⟨1, 128⟩, ⟨0, 64⟩] st ∧
        ∀ capacity, CacheStats.verify st.stats capacity
          ((init [⟨256, 2, 64, .trulru, false⟩, ⟨512, 4, 64, .nmru, true⟩]).get
            (by decide)).levels.length = true := by
  have husable : ∀ c ∈ ((init [⟨256, 2, 64, .trulru, false⟩, ⟨512, 4, 64, .nmru, true⟩]).get
      (by decide)).levels, c.Usable := by
    have hdec : ∀ c ∈ ((init [⟨256, 2, 64, .trulru, false⟩, ⟨512, 4, 64, .nmru, true⟩]).get
        (by decide)).levels, 0 < c.countsets ∧ 2 ≤ c.associativity := by
      decide
    exact fun c hc => ⟨(hdec c hc).1, by have := (hdec c hc).2; omega, fun _ => (hdec c hc).2⟩
  exact ⟨husable, conserved_run _ husable _ _⟩

/-- A level of one line, but two ways to a set: `Init` takes it, and it has no set. -/
theorem run_noSet :
    ¬ ∀ (descs : List LevelDescription) (h : CacheStructureHandler), init descs = some h →
      ∀ (rand : Nat → Nat) (trace : List Access), ∃ st, h.run rand trace = some st ∧
        h.Conserved trace st ∧ ∀ capacity, CacheStats.verify st.stats capacity h.levels.length = true := by
  intro hall
  obtain ⟨st, hst, -⟩ := hall [⟨64, 2, 64, .nmru, false⟩]
    ((init [⟨64, 2, 64, .nmru, false⟩]).get (by decide)) (Option.some_get _).symm (fun _ => 0)
    [⟨0, 64⟩]
  have hfault : ((init [⟨64, 2, 64, .nmru, false⟩]).get (by decide)).run (fun _ => 0)
      [⟨0, 64⟩] = none := by
    rfl
  rw [hfault] at hst
  cases hst

end Pebil.CacheStructureHandler

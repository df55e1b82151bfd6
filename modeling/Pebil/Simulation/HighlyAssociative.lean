import Pebil.Simulation.CacheLevel

/-!
# The hash map of a highly associative level against the scan

A highly associative level and a plain one with the same geometry are driven by the
same addresses. Their arrays go through the same states and their answers agree as
long as no access finds line 0 where it is not: the scan takes a way that was never
filled for one that holds line 0, the map does not (`answers_eq_iff`).
-/

namespace Pebil.CacheLevel

/-- The plain level with this geometry. -/
def plain (c : CacheLevel) : CacheLevel := { c with highAssoc := false }

/-- The highly associative level with this geometry. -/
def fast (c : CacheLevel) : CacheLevel := { c with highAssoc := true }

/-- The answers of a level along a trace of addresses; `rand k` is what `rand()`
would return at access `k`. -/
def answers (c : CacheLevel) (rand : Nat → Nat) : LevelState → List Nat → List Answer
  | _, [] => []
  | st, addr :: trace =>
    let (st', answer) := c.process st (rand 0) addr
    answer :: answers c (fun k => rand (k + 1)) st' trace

/-- The state of a level after a trace of addresses. -/
def after (c : CacheLevel) (rand : Nat → Nat) : LevelState → List Nat → LevelState
  | st, [] => st
  | st, addr :: trace => after c (fun k => rand (k + 1)) (c.process st (rand 0) addr).1 trace

/-- An access the scan and the map agree on: it is not to line 0, or the map has
line 0, or no way of the set holds 0. -/
def Unambiguous (c : CacheLevel) (st : LevelState) (addr : Nat) : Prop :=
  let s := st (c.getSet (c.getStorage addr))
  c.getStorage addr = 0 → s.fastcontents 0 ≠ none ∨ ∀ w < c.associativity, s.contents w ≠ 0

/-- Every access of a trace through a highly associative level is of that kind. -/
def AllUnambiguous (c : CacheLevel) (rand : Nat → Nat) : LevelState → List Nat → Prop
  | _, [] => True
  | st, addr :: trace => c.Unambiguous st addr ∧
      AllUnambiguous c (fun k => rand (k + 1)) (c.fast.process st (rand 0) addr).1 trace

variable {c : CacheLevel} {s s' : CacheSet} {st st' : LevelState} {rand addr store w : Nat}

/-! ## One set -/

/-- Two sets that differ in their maps only. -/
structure SameArrays (s s' : CacheSet) : Prop where
  contents : s.contents = s'.contents
  recentlyUsed : s.recentlyUsed = s'.recentlyUsed
  prev : s.prev = s'.prev
  next : s.next = s'.next

/-- A plain set `s` beside a highly associative one: the arrays agree and are in
bounds, the map is exact, and if it has line 0 then at the only way that holds 0. -/
structure Matches (c : CacheLevel) (s s' : CacheSet) : Prop where
  arrays : SameArrays s s'
  inBounds : c.fast.InBounds s'
  exact : c.fast.MapExact s'
  zero : ∀ w, s'.fastcontents 0 = some w → w < c.associativity ∧
    ∀ v < c.associativity, s'.contents v = 0 ↔ v = w

theorem matches_initial (h : c.Usable) : Matches c c.plain.initialSet c.fast.initialSet where
  arrays := ⟨rfl, rfl, rfl, rfl⟩
  inBounds := inBounds_initial (c := c.fast) ⟨h.1, h.2, h.3⟩
  exact := mapExact_initial
  zero := by
    intro w hw
    simp [initialSet] at hw

theorem sameArrays_markUsed (h : SameArrays s s') (w : Nat) :
    SameArrays (c.plain.markUsed s w) (c.fast.markUsed s' w) := by
  obtain ⟨h₁, h₂, h₃, h₄⟩ := h
  have hpol : c.plain.replpolicy = c.replpolicy := rfl
  have hpol' : c.fast.replpolicy = c.replpolicy := rfl
  unfold markUsed
  rw [hpol, hpol', h₂, h₄]
  cases c.replpolicy with
  | nmru => exact ⟨h₁, rfl, h₃, rfl⟩
  | trulru =>
    by_cases hw : s'.recentlyUsed = w
    · simp only [if_pos hw]
      exact ⟨h₁, rfl, h₃, rfl⟩
    · simp only [if_neg hw]
      exact ⟨h₁, h₂, by simp only [relink, h₂, h₃, h₄], by simp only [relink, h₂, h₃, h₄]⟩
  | random => exact ⟨h₁, h₂, h₃, h₄⟩
  | direct => exact ⟨h₁, h₂, h₃, h₄⟩

theorem matches_markUsed (h : Matches c s s') (hw : w < c.associativity) :
    Matches c (c.plain.markUsed s w) (c.fast.markUsed s' w) where
  arrays := sameArrays_markUsed h.arrays w
  inBounds := inBounds_markUsed h.inBounds hw
  exact := mapExact_markUsed h.exact
  zero := by
    intro v
    rw [markUsed_fastcontents, markUsed_contents]
    exact h.zero v

theorem fastcontents_replace :
    (c.fast.replace s store w).1.fastcontents =
      Function.update (Function.update s.fastcontents (s.contents w) none) store (some w) := by
  simp [replace, fast]

theorem matches_replace (h : Matches c s s') (hw : w < c.associativity)
    (hnew : store ≠ 0 → ∀ v < c.associativity, s'.contents v ≠ store)
    (hzero : store = 0 → ∀ v < c.associativity, s'.contents v ≠ 0) :
    Matches c (c.plain.replace s store w).1 (c.fast.replace s' store w).1 where
  arrays := by
    have hcontents : Function.update s.contents w store = Function.update s'.contents w store := by
      rw [h.arrays.contents]
    have harrays : SameArrays { s with contents := Function.update s.contents w store }
        { s' with
          contents := Function.update s'.contents w store
          fastcontents := Function.update (Function.update s'.fastcontents (s'.contents w) none)
            store (some w) } :=
      ⟨hcontents, h.arrays.recentlyUsed, h.arrays.prev, h.arrays.next⟩
    exact sameArrays_markUsed harrays w
  inBounds := inBounds_replace h.inBounds hw
  exact := mapExact_replace h.exact hw fun hne v hv hval => absurd hval (hnew hne v hv)
  zero := by
    intro v hv
    rw [fastcontents_replace] at hv
    rw [replace_contents]
    by_cases hstore : store = 0
    · subst hstore
      rw [Function.update_self] at hv
      obtain rfl := Option.some.inj hv
      refine ⟨hw, fun u hu => ?_⟩
      by_cases huw : u = w
      · simp [huw]
      · rw [Function.update_of_ne huw]
        exact ⟨fun h0 => absurd h0 (hzero rfl u hu), fun h => absurd h huw⟩
    · rw [Function.update_of_ne (Ne.symm hstore)] at hv
      by_cases hprev : s'.contents w = 0
      · rw [hprev, Function.update_self] at hv
        cases hv
      · rw [Function.update_of_ne (Ne.symm hprev)] at hv
        obtain ⟨hvlt, hiff⟩ := h.zero v hv
        refine ⟨hvlt, fun u hu => ?_⟩
        by_cases huw : u = w
        · subst huw
          rw [Function.update_self]
          exact ⟨fun h0 => absurd h0 hstore, fun huv => absurd ((hiff u hu).mpr huv) hprev⟩
        · rw [Function.update_of_ne huw]
          exact hiff u hu

/-- The scan and the map find the same way, unless the scan finds line 0 in a way
that was never filled. -/
theorem search_eq (h : Matches c s s')
    (hd : store = 0 → s'.fastcontents 0 ≠ none ∨ ∀ v < c.associativity, s'.contents v ≠ 0) :
    c.plain.search s store = c.fast.search s' store := by
  have hplain : c.plain.MapExact s := fun hfast => absurd hfast (by simp [plain])
  have hscan : ∀ v, c.plain.search s store = some v →
      v < c.associativity ∧ s'.contents v = store := by
    intro v hv
    unfold search at hv
    simp only [plain, Bool.false_eq_true, if_false] at hv
    refine ⟨List.mem_range.mp (List.mem_of_find?_eq_some hv), ?_⟩
    simpa [h.arrays.contents] using List.find?_some hv
  have hmiss : c.plain.search s store = none → ∀ v < c.associativity, s'.contents v ≠ store := by
    intro hnone v hv hval
    unfold search at hnone
    simp only [plain, Bool.false_eq_true, if_false] at hnone
    have := List.find?_eq_none.mp hnone v (List.mem_range.mpr hv)
    simp [h.arrays.contents, hval] at this
  have hfast : c.fast.search s' store = s'.fastcontents store := by simp [search, fast]
  rw [hfast]
  by_cases hstore : store = 0
  · subst hstore
    cases hmap : s'.fastcontents 0 with
    | none =>
      cases hsc : c.plain.search s 0 with
      | none => rfl
      | some v =>
        obtain ⟨hv, hval⟩ := hscan v hsc
        rcases hd rfl with hne | hall
        · exact absurd hmap hne
        · exact absurd hval (hall v hv)
    | some w =>
      obtain ⟨hw, hiff⟩ := h.zero w hmap
      cases hsc : c.plain.search s 0 with
      | none => exact absurd ((hiff w hw).mpr rfl) (hmiss hsc w hw)
      | some v =>
        obtain ⟨hv, hval⟩ := hscan v hsc
        rw [(hiff v hv).mp hval]
  · cases hsc : c.plain.search s store with
    | none =>
      cases hmap : s'.fastcontents store with
      | none => rfl
      | some w =>
        obtain ⟨hw, hval⟩ := (h.exact rfl store hstore w).mp hmap
        exact absurd hval (hmiss hsc w hw)
    | some v => exact ((h.exact rfl store hstore v).mpr (hscan v hsc)).symm

/-- Otherwise the scan hits and the map misses. -/
theorem search_ne (h : Matches c s s') (hmap : s'.fastcontents 0 = none)
    (hw : w < c.associativity) (hval : s'.contents w = 0) :
    ∃ v, c.plain.search s 0 = some v ∧ c.fast.search s' 0 = none := by
  cases hsc : c.plain.search s 0 with
  | some v => exact ⟨v, rfl, by simp [search, fast, hmap]⟩
  | none =>
    unfold search at hsc
    simp only [plain, Bool.false_eq_true, if_false] at hsc
    have := List.find?_eq_none.mp hsc w (List.mem_range.mpr hw)
    simp [h.arrays.contents, hval] at this

/-! ## One access and a whole trace -/

theorem lineToReplace_eq (rand : Nat) (h : SameArrays s s') :
    c.plain.lineToReplace s rand = c.fast.lineToReplace s' rand := by
  simp only [lineToReplace, plain, fast, h.recentlyUsed]

theorem matches_update {i : Nat} (h : ∀ set, Matches c (st set) (st' set))
    (hs : Matches c s s') :
    ∀ set, Matches c (Function.update st i s set) (Function.update st' i s' set) := by
  intro set
  by_cases hset : set = i
  · subst hset
    simpa using hs
  · simpa [hset] using h set

/-- One access the scan and the map agree on. -/
theorem process_eq (rand : Nat) (hu : c.Usable) (h : ∀ set, Matches c (st set) (st' set))
    (hd : c.Unambiguous st' addr) :
    (c.plain.process st rand addr).2 = (c.fast.process st' rand addr).2 ∧
      ∀ set, Matches c ((c.plain.process st rand addr).1 set)
        ((c.fast.process st' rand addr).1 set) := by
  have hset := h (c.getSet (c.getStorage addr))
  have hsearch := search_eq hset hd
  have hstore : c.plain.getStorage addr = c.getStorage addr := rfl
  have hstore' : c.fast.getStorage addr = c.getStorage addr := rfl
  have hgs : c.plain.getSet (c.getStorage addr) = c.getSet (c.getStorage addr) := rfl
  have hgs' : c.fast.getSet (c.getStorage addr) = c.getSet (c.getStorage addr) := rfl
  cases hfound : c.fast.search (st' (c.getSet (c.getStorage addr))) (c.getStorage addr) with
  | some w =>
    have hw : w < c.associativity := by
      by_cases hzero : c.getStorage addr = 0
      · rw [hzero] at hfound hset
        simp only [search, fast, if_true] at hfound
        exact (hset.zero w hfound).1
      · exact (search_some hset.exact hzero hfound).1
    rw [process_hit (hsearch.trans hfound), process_hit (c := c.fast) hfound]
    exact ⟨rfl, matches_update h (matches_markUsed hset hw)⟩
  | none =>
    have hline := lineToReplace_eq (c := c) rand hset.arrays
    have hw : c.fast.lineToReplace (st' (c.getSet (c.getStorage addr))) rand < c.associativity :=
      lineToReplace_lt (c := c.fast) rand ⟨hu.1, hu.2, hu.3⟩ hset.inBounds
    rw [process_miss (hsearch.trans hfound), process_miss (c := c.fast) hfound]
    simp only [hstore, hstore', hgs, hgs', hline, hset.arrays.contents, true_and]
    refine matches_update h (matches_replace hset hw ?_ ?_)
    · exact fun hne => search_none (c := c.fast) hset.exact hne hfound
    · intro hzero
      rcases hd hzero with hne | hall
      · rw [hzero] at hfound hne
        simp only [search, fast, if_true] at hfound
        exact absurd hfound hne
      · exact hall

/-- One access they disagree on. -/
theorem process_ne (rand : Nat) (h : ∀ set, Matches c (st set) (st' set)) (hd : ¬ c.Unambiguous st' addr) :
    (c.plain.process st rand addr).2 ≠ (c.fast.process st' rand addr).2 := by
  unfold Unambiguous at hd
  simp only [Classical.not_imp, not_or, not_not, not_forall] at hd
  obtain ⟨hzero, hmap, w, hw, hval⟩ := hd
  obtain ⟨v, hplain, hfast⟩ := search_ne (h _) hmap hw hval
  rw [process_hit (c := c.plain) (w := v) (hzero.symm ▸ hplain),
    process_miss (c := c.fast) (hzero.symm ▸ hfast)]
  simp

/-- From matching states, the answers along a trace agree exactly when every access
is one the scan and the map agree on. -/
theorem answers_eq_iff_of_matches (hu : c.Usable) :
    ∀ {trace : List Nat} {rand : Nat → Nat} {st st' : LevelState},
      (∀ set, Matches c (st set) (st' set)) →
      (c.plain.answers rand st trace = c.fast.answers rand st' trace ↔
        c.AllUnambiguous rand st' trace) := by
  intro trace
  induction trace with
  | nil => intro rand st st' _; simp [answers, AllUnambiguous]
  | cons addr trace ih =>
    intro rand st st' h
    unfold answers AllUnambiguous
    by_cases hd : c.Unambiguous st' addr
    · obtain ⟨hanswer, hmatch⟩ := process_eq (rand 0) hu h hd
      simp only [hanswer, List.cons.injEq, true_and, hd, ih hmatch]
    · have hne := process_ne (rand 0) h hd
      simp only [List.cons.injEq, hne, hd, false_and]

/-- The map is exact in every reachable state, except for line 0. -/
theorem mapExact_after (hu : c.Usable) :
    ∀ {trace : List Nat} {rand : Nat → Nat} {st : LevelState},
      (∀ set, c.fast.InBounds (st set) ∧ c.fast.MapExact (st set) ∧
        ∀ w, (st set).fastcontents 0 = some w → w < c.associativity) →
      ∀ set, c.fast.MapExact (c.fast.after rand st trace set) := by
  intro trace
  induction trace with
  | nil => exact fun h set => (h set).2.1
  | cons addr trace ih =>
    intro rand st h
    refine ih fun set => ?_
    obtain ⟨hb, hm, hz⟩ := h (c.fast.getSet (c.fast.getStorage addr))
    cases hfound : c.fast.search (st (c.fast.getSet (c.fast.getStorage addr)))
        (c.fast.getStorage addr) with
    | some w =>
      rw [process_hit hfound]
      by_cases hset : set = c.fast.getSet (c.fast.getStorage addr)
      · have hw : w < c.associativity := by
          by_cases hzero : c.fast.getStorage addr = 0
          · rw [hzero] at hfound hz
            simp only [search, fast, if_true] at hfound
            exact hz w hfound
          · exact (search_some hm hzero hfound).1
        subst hset
        simp only [Function.update_self, markUsed_fastcontents]
        exact ⟨inBounds_markUsed hb hw, mapExact_markUsed hm, hz⟩
      · simpa only [Function.update_of_ne hset] using h set
    | none =>
      rw [process_miss hfound]
      by_cases hset : set = c.fast.getSet (c.fast.getStorage addr)
      · have hw := lineToReplace_lt (c := c.fast) (rand 0) ⟨hu.1, hu.2, hu.3⟩ hb
        subst hset
        simp only [Function.update_self]
        refine ⟨inBounds_replace hb hw, mapExact_replace hm hw ?_, ?_⟩
        · exact fun hne v hv hval => absurd hval (search_none hm hne hfound v hv)
        · intro v hv
          rw [fastcontents_replace] at hv
          by_cases hzero : c.fast.getStorage addr = 0
          · rw [hzero, Function.update_self] at hv
            obtain rfl := Option.some.inj hv
            rw [hzero] at hw
            exact hw
          · rw [Function.update_of_ne (Ne.symm hzero)] at hv
            by_cases hprev : (st (c.fast.getSet (c.fast.getStorage addr))).contents
                (c.fast.lineToReplace (st (c.fast.getSet (c.fast.getStorage addr))) (rand 0)) = 0
            · rw [hprev, Function.update_self] at hv
              cases hv
            · rw [Function.update_of_ne (Ne.symm hprev)] at hv
              exact hz v hv
      · simpa only [Function.update_of_ne hset] using h set

/-- **The fast path against the plain path.** From the states `Init` sets up, the two
kinds of level give the same answers along a trace exactly when no access to line 0
misses in the map while a way of its set still holds 0; and in every state the
highly associative level reaches, its maps are exact for every line but 0. -/
theorem answers_eq_iff (c : CacheLevel) (hu : c.Usable) (rand : Nat → Nat)
    (trace : List Nat) :
    (c.plain.answers rand c.plain.initialState trace =
        c.fast.answers rand c.fast.initialState trace ↔
      c.AllUnambiguous rand c.fast.initialState trace) ∧
    ∀ set, c.fast.MapExact (c.fast.after rand c.fast.initialState trace set) := by
  refine ⟨answers_eq_iff_of_matches hu fun _ => matches_initial hu, mapExact_after hu fun _ => ?_⟩
  refine ⟨inBounds_initial (c := c.fast) ⟨hu.1, hu.2, hu.3⟩, mapExact_initial, fun w hw => ?_⟩
  simp [initialState, initialSet] at hw

/-- A fully associative level of 256 lines. -/
def fullyAssociative : CacheLevel := init 0 0x4000 256 64 .nmru true

theorem answers_eq_iff_fullyAssociative :
    (fullyAssociative.plain.answers (fun _ => 0) fullyAssociative.plain.initialState
          [64, 128, 64] =
        fullyAssociative.fast.answers (fun _ => 0) fullyAssociative.fast.initialState
          [64, 128, 64] ↔
      fullyAssociative.AllUnambiguous (fun _ => 0) fullyAssociative.fast.initialState
        [64, 128, 64]) ∧
    ∀ set, fullyAssociative.fast.MapExact (fullyAssociative.fast.after (fun _ => 0)
      fullyAssociative.fast.initialState [64, 128, 64] set) :=
  answers_eq_iff fullyAssociative ⟨by decide, by decide, by decide⟩ (fun _ => 0) [64, 128, 64]

/-- The first access to address 0 hits in the empty plain level and misses in the
empty highly associative one, whose map is empty while every way holds 0. -/
theorem answers_ne_address_zero :
    fullyAssociative.plain.answers (fun _ => 0) fullyAssociative.plain.initialState [0] =
        [.hit 0] ∧
      fullyAssociative.fast.answers (fun _ => 0) fullyAssociative.fast.initialState [0] =
        [.miss 1 0] ∧
      (fullyAssociative.fast.initialState 0).contents 0 = 0 ∧
      (fullyAssociative.fast.initialState 0).fastcontents 0 = none :=
  ⟨rfl, rfl, rfl, rfl⟩

end Pebil.CacheLevel

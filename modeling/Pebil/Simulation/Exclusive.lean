import Pebil.Lib.Displacement
import Pebil.Simulation.CacheStructure

/-!
# The exclusive group (instcode/Simulation.cpp:1546–1601)

An access that hits in a level of the group, or in none, puts its line into the
first level, and every level down to the one that hit takes the line that the level
above gave up. In the level that hit, the line that arrives is to take the place of
the line that was found; but it does so only when it belongs to the same set, and an
empty way counts as line 0 of set 0.

`Smooth` says that the line arriving there does belong to that set. A run whose
accesses are all smooth keeps the group exclusive, loses nothing on a hit, and holds
only lines that were accessed (`exclusiveRun_of_smooth`).
-/

namespace Pebil

/-- A way of a set of a level. -/
structure Slot where
  level : Nat
  set : Nat
  way : Nat
  deriving DecidableEq, Repr

namespace CacheStructureHandler

variable (h : CacheStructureHandler) (rand : Nat → Nat)

/-- The line in a slot of the group that starts at level `first`; 0 in an empty slot
and outside the group. -/
def line (first : Nat) (st : HandlerState) (p : Slot) : Nat :=
  match h.levels[p.level]? with
  | none => 0
  | some c =>
    if first ≤ p.level ∧ p.set < c.countsets ∧ p.way < c.associativity then
      (st.sets p.level p.set).contents p.way
    else 0

/-- The line is resident in the group. -/
def Resident (first : Nat) (st : HandlerState) (line : Nat) : Prop :=
  ∃ p, h.line first st p = line

/-- Level `i` does not have the line of the access. -/
def Misses (st : HandlerState) (a : Access) (i : Nat) : Prop :=
  ∀ c, h.levels[i]? = some c →
    c.search (st.sets i (c.getSet (c.getStorage a.address))) (c.getStorage a.address) = none

/-- Level `k` is the first one that has it. -/
def HitsAt (st : HandlerState) (a : Access) (k : Nat) : Prop :=
  (∀ j < k, h.Misses st a j) ∧ ∃ c w, h.levels[k]? = some c ∧
    c.search (st.sets k (c.getSet (c.getStorage a.address))) (c.getStorage a.address) = some w

/-- The line that arrives `count` levels below level `i` when `carried` is put into
level `i`: each level gives up the line that `LineToReplace` picks in the set of the
line it takes. -/
def arriving (sets : Nat → LevelState) : Nat → Nat → Nat → Nat → Nat
  | 0, _, _, carried => carried
  | count + 1, i, draws, carried =>
    match h.levels[i]? with
    | none => carried
    | some c =>
      let s := sets i (c.getSet carried)
      arriving sets count (i + 1) (draws + 1) (s.contents (c.lineToReplace s (rand draws)))

/-- An access that reaches the group is smooth when it is not to line 0, and, if it
hits below the first level of the group, the line that arrives in the level that hit
belongs to the same set of that level as the line that was accessed. -/
def Smooth (first bits : Nat) (st : HandlerState) (a : Access) : Prop :=
  (∀ j < first, h.Misses st a j) →
    a.address >>> bits ≠ 0 ∧ ∀ k > first, h.HitsAt st a k → ∀ c, h.levels[k]? = some c →
      c.getSet (h.arriving rand st.sets (k - first) first (st.draws + first)
        (a.address >>> bits)) = c.getSet (a.address >>> bits)

/-- Every access of a trace is smooth in the state it finds. -/
def AllSmooth (first bits : Nat) : HandlerState → List Access → Prop
  | _, [] => True
  | st, a :: trace => h.Smooth rand first bits st a ∧
      ∀ st', h.process rand st a = some st' → AllSmooth first bits st' trace

/-- What the group is to keep after one access, given the addresses accessed before. -/
structure ExclusiveAfter (first bits : Nat) (seen : List Nat) (st : HandlerState) (a : Access)
    (st' : HandlerState) : Prop where
  /-- A line is in at most one slot of the group. -/
  exclusive : ∀ p q, h.line first st' p ≠ 0 → h.line first st' p = h.line first st' q → p = q
  /-- A line in the group was accessed. -/
  accessed : ∀ l ≠ 0, h.Resident first st' l → ∃ addr ∈ a.address :: seen, addr >>> bits = l
  /-- A hit in the group moves lines, but neither loses nor brings in one. -/
  permuted : (∃ k ≥ first, h.HitsAt st a k) →
    ∀ l ≠ 0, h.Resident first st' l ↔ h.Resident first st l

/-- Every access of a trace goes through and leaves the group as it is to be. -/
def ExclusiveRun (first bits : Nat) : List Nat → HandlerState → List Access → Prop
  | _, _, [] => True
  | seen, st, a :: trace => ∃ st', h.process rand st a = some st' ∧
      h.ExclusiveAfter first bits seen st a st' ∧
      ExclusiveRun first bits (a.address :: seen) st' trace

/-! ## Slots and states -/

/-- Each line is in its own set, maps are exact and markers in bounds, throughout the
group. -/
structure LevelsOk (first : Nat) (st : HandlerState) : Prop where
  own : ∀ p c, h.levels[p.level]? = some c → h.line first st p ≠ 0 →
    p.set = c.getSet (h.line first st p)
  mapExact : ∀ i c, first ≤ i → h.levels[i]? = some c → ∀ s, c.MapExact (st.sets i s)
  inBounds : ∀ i c, first ≤ i → h.levels[i]? = some c → ∀ s, c.InBounds (st.sets i s)

variable {h rand} {first bits : Nat} {st st' : HandlerState} {c : CacheLevel} {i w store : Nat}

theorem line_eq {p : Slot} (hc : h.levels[p.level]? = some c) :
    h.line first st p =
      if first ≤ p.level ∧ p.set < c.countsets ∧ p.way < c.associativity then
        (st.sets p.level p.set).contents p.way
      else 0 := by
  unfold line
  rw [hc]

/-- A slot that is not empty is one of the group. -/
theorem line_ne_zero {p : Slot} (hne : h.line first st p ≠ 0) :
    ∃ c, h.levels[p.level]? = some c ∧
      (first ≤ p.level ∧ p.set < c.countsets ∧ p.way < c.associativity) ∧
      h.line first st p = (st.sets p.level p.set).contents p.way := by
  cases hc : h.levels[p.level]? with
  | none =>
    unfold line at hne
    rw [hc] at hne
    exact absurd rfl hne
  | some c =>
    rw [line_eq hc] at hne ⊢
    split at hne
    · rename_i hvalid
      exact ⟨c, rfl, hvalid, if_pos hvalid⟩
    · exact absurd rfl hne

/-- The slots of the group depend on its sets only. -/
theorem line_congr (hsets : ∀ j ≥ first, st'.sets j = st.sets j) :
    h.line first st' = h.line first st := by
  funext p
  unfold line
  cases h.levels[p.level]? with
  | none => rfl
  | some c =>
    by_cases hp : first ≤ p.level
    · simp only [hsets p.level hp]
    · simp only [hp, false_and, if_false]

theorem LevelsOk.congr (hok : h.LevelsOk first st)
    (hsets : ∀ j ≥ first, st'.sets j = st.sets j) : h.LevelsOk first st' where
  own := by
    rw [line_congr hsets]
    exact hok.own
  mapExact := by
    intro i c hi hc s
    rw [hsets i hi]
    exact hok.mapExact i c hi hc s
  inBounds := by
    intro i c hi hc s
    rw [hsets i hi]
    exact hok.inBounds i c hi hc s

theorem LevelsOk.draw (hok : h.LevelsOk first st) : h.LevelsOk first st.draw :=
  hok.congr fun _ _ => rfl

theorem sets_setSet {level set : Nat} {s : CacheSet} (j t : Nat) :
    (st.setSet level set s).sets j t =
      if j = level ∧ t = set then s else st.sets j t := by
  unfold HandlerState.setSet
  by_cases hj : j = level
  · subst hj
    by_cases ht : t = set
    · simp [ht]
    · simp [ht]
  · simp [hj]

theorem line_markUsed (st : HandlerState) {s : Nat} :
    h.line first (st.setSet i s (c.markUsed (st.sets i s) w)) = h.line first st := by
  funext p
  unfold line
  cases h.levels[p.level]? with
  | none => rfl
  | some c' =>
    simp only [sets_setSet]
    by_cases hp : p.level = i ∧ p.set = s
    · obtain ⟨rfl, rfl⟩ := hp
      simp
    · simp only [if_neg hp]

/-- `Replace` writes one slot of the group. -/
theorem line_replace (st : HandlerState) (store : Nat) {s : Nat} (hc : h.levels[i]? = some c) (hi : first ≤ i)
    (hs : s < c.countsets) (hw : w < c.associativity) :
    h.line first (st.setSet i s (c.replace (st.sets i s) store w).1) =
      Function.update (h.line first st) ⟨i, s, w⟩ store := by
  funext p
  by_cases hp : p = ⟨i, s, w⟩
  · subst hp
    rw [Function.update_self, line_eq (c := c) hc, if_pos ⟨hi, hs, hw⟩, sets_setSet,
      if_pos ⟨rfl, rfl⟩, CacheLevel.replace_contents, Function.update_self]
  · rw [Function.update_of_ne hp]
    unfold line
    cases h.levels[p.level]? with
    | none => rfl
    | some c' =>
      simp only [sets_setSet]
      by_cases hset : p.level = i ∧ p.set = s
      · obtain ⟨hl, ht⟩ := hset
        have hway : p.way ≠ w := by
          intro hway
          obtain ⟨l, t, v⟩ := p
          exact hp (by simp_all)
        simp only [hl, ht, and_self, if_true, CacheLevel.replace_contents,
          Function.update_of_ne hway]
      · simp only [if_neg hset]

theorem LevelsOk.markUsed {s : Nat} (hok : h.LevelsOk first st) (hc : h.levels[i]? = some c)
    (hi : first ≤ i) (hw : w < c.associativity) :
    h.LevelsOk first (st.setSet i s (c.markUsed (st.sets i s) w)) where
  own := by
    rw [line_markUsed]
    exact hok.own
  mapExact := by
    intro j c' hj hc' t
    rw [sets_setSet]
    split
    · rename_i heq
      obtain ⟨rfl, rfl⟩ := heq
      obtain rfl := Option.some.inj (hc.symm.trans hc')
      exact CacheLevel.mapExact_markUsed (hok.mapExact j c hi hc t)
    · exact hok.mapExact j c' hj hc' t
  inBounds := by
    intro j c' hj hc' t
    rw [sets_setSet]
    split
    · rename_i heq
      obtain ⟨rfl, rfl⟩ := heq
      obtain rfl := Option.some.inj (hc.symm.trans hc')
      exact CacheLevel.inBounds_markUsed (hok.inBounds j c hi hc t) hw
    · exact hok.inBounds j c' hj hc' t

/-- `Replace` by a line that is nowhere else in the set keeps the levels in order. -/
theorem LevelsOk.replace (hok : h.LevelsOk first st) (hc : h.levels[i]? = some c)
    (hi : first ≤ i) (hu : c.Usable) (hw : w < c.associativity)
    (hnew : store ≠ 0 → ∀ v < c.associativity,
      (st.sets i (c.getSet store)).contents v = store → v = w) :
    h.LevelsOk first (st.setSet i (c.getSet store)
      (c.replace (st.sets i (c.getSet store)) store w).1) where
  own := by
    have hset : c.getSet store < c.countsets := Nat.mod_lt _ hu.countsets_pos
    rw [line_replace st store hc hi hset hw]
    intro p c' hc' hne
    by_cases hp : p = ⟨i, c.getSet store, w⟩
    · subst hp
      rw [Function.update_self]
      obtain rfl := Option.some.inj (hc.symm.trans hc')
      rfl
    · rw [Function.update_of_ne hp] at hne ⊢
      exact hok.own p c' hc' hne
  mapExact := by
    intro j c' hj hc' t
    rw [sets_setSet]
    split
    · rename_i heq
      obtain ⟨rfl, rfl⟩ := heq
      obtain rfl := Option.some.inj (hc.symm.trans hc')
      exact CacheLevel.mapExact_replace (hok.mapExact j c hi hc _) hw hnew
    · exact hok.mapExact j c' hj hc' t
  inBounds := by
    intro j c' hj hc' t
    rw [sets_setSet]
    split
    · rename_i heq
      obtain ⟨rfl, rfl⟩ := heq
      obtain rfl := Option.some.inj (hc.symm.trans hc')
      exact CacheLevel.inBounds_replace (hok.inBounds j c hi hc _) hw
    · exact hok.inBounds j c' hj hc' t

/-- The line that arrives depends on the levels it passes only. -/
theorem arriving_congr {sets sets' : Nat → LevelState} :
    ∀ {count i draws carried : Nat}, (∀ j, i ≤ j → j < i + count → sets' j = sets j) →
      h.arriving rand sets' count i draws carried = h.arriving rand sets count i draws carried := by
  intro count
  induction count with
  | zero => intro i draws carried _; rfl
  | succ count ih =>
    intro i draws carried hsets
    unfold arriving
    cases h.levels[i]? with
    | none => rfl
    | some c =>
      simp only [hsets i (Nat.le_refl i) (by omega)]
      exact ih fun j hj hlt => hsets j (by omega) (by omega)

end CacheStructureHandler

end Pebil

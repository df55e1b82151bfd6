import Mathlib.Algebra.Group.Nat.Defs
import Mathlib.Data.List.Basic
import Mathlib.Data.Nat.Log
import Mathlib.Logic.Function.Basic

/-!
# One level of a simulated cache (instcode/Simulation.cpp:1319–1542)

A level is its geometry (`CacheLevel`, what `Init` computes) and, for every set, the
arrays the class indexes by set (`CacheSet`): the lines its ways hold, the marker and
the history links of the replacement policy, and, in a highly associative level, the
hash map that finds a line's way.

A line is an address without its offset bits; a way that was never filled holds 0.
`RandomInt` draws from `rand()`, which is a parameter. An index that the source
would take out of bounds is not stopped here: `Usable` is what rules it out.
-/

namespace Pebil

/-- `ReplacementPolicy`. -/
inductive ReplacementPolicy where
  | nmru
  | trulru
  | random
  | direct
  deriving DecidableEq, Repr

/-- `MinimumHighAssociativity`. -/
def minimumHighAssociativity : Nat := 256

/-- The fields of `CacheLevel` that `Init` sets. `highAssoc` tells the highly
associative classes from the others. -/
structure CacheLevel where
  level : Nat
  size : Nat
  associativity : Nat
  linesize : Nat
  replpolicy : ReplacementPolicy
  countsets : Nat
  linesizeBits : Nat
  highAssoc : Bool
  deriving DecidableEq, Repr

/-- One set of a level: `contents[setid]`, `recentlyUsed[setid]`, the links of
`historyUsed[setid]` and `fastcontents[setid]`. -/
structure CacheSet where
  contents : Nat → Nat
  recentlyUsed : Nat
  prev : Nat → Nat
  next : Nat → Nat
  fastcontents : Nat → Option Nat

/-- The sets of a level. -/
abbrev LevelState := Nat → CacheSet

namespace CacheLevel

/-- `CacheLevel::Init`; the product of the line size and the associativity is a
32-bit one, and `linesizeBits` counts the bits of the line size less one. -/
def init (lvl sizeInBytes assoc lineSz : Nat) (pol : ReplacementPolicy) (highAssoc : Bool) :
    CacheLevel where
  level := lvl
  size := sizeInBytes
  associativity := assoc
  linesize := lineSz
  replpolicy := pol
  countsets := sizeInBytes / (lineSz * assoc % 2 ^ 32)
  linesizeBits := Nat.log2 lineSz
  highAssoc := highAssoc

variable (c : CacheLevel)

/-- The state `CacheLevel::Init` and `HighlyAssociativeCacheLevel::Init` set up. -/
def initialSet : CacheSet where
  contents _ := 0
  recentlyUsed := 0
  prev a := if a = 0 then c.associativity - 1 else a - 1
  next a := if a = 0 then 1 else (a + 1) % c.associativity
  fastcontents _ := none

def initialState : LevelState := fun _ => c.initialSet

/-- `GetStorage`. -/
def getStorage (addr : Nat) : Nat := addr >>> c.linesizeBits

/-- `GetSet`. -/
def getSet (store : Nat) : Nat := store % c.countsets

/-- `LineToReplace`, with the number the next call of `rand()` returns. -/
def lineToReplace (s : CacheSet) (rand : Nat) : Nat :=
  match c.replpolicy with
  | .nmru => (s.recentlyUsed + 1) % c.associativity
  | .trulru => s.recentlyUsed
  | .random => rand % c.associativity
  | .direct => 0

/-- The relinking of `MarkUsed` for a way that is not the oldest: unlink it, and link
it in before the oldest one. -/
def relink (s : CacheSet) (lineid : Nat) : CacheSet :=
  let prev := Function.update s.prev (s.next lineid) (s.prev lineid)
  let next := Function.update s.next (prev lineid) (s.next lineid)
  let prev := Function.update prev lineid (prev s.recentlyUsed)
  let prev := Function.update prev s.recentlyUsed lineid
  let next := Function.update next lineid s.recentlyUsed
  let next := Function.update next (prev lineid) lineid
  { s with prev := prev, next := next }

/-- `MarkUsed`. -/
def markUsed (s : CacheSet) (lineid : Nat) : CacheSet :=
  match c.replpolicy with
  | .nmru => { s with recentlyUsed := lineid }
  | .trulru =>
    if s.recentlyUsed = lineid then { s with recentlyUsed := s.next lineid }
    else relink s lineid
  | .random => s
  | .direct => s

/-- `Replace` of both classes: the set after it and the line that left. The map loses
the old line, if it has it, before it gains the new one. -/
def replace (s : CacheSet) (store lineid : Nat) : CacheSet × Nat :=
  let prevLine := s.contents lineid
  let contents := Function.update s.contents lineid store
  let fastcontents :=
    if c.highAssoc then
      Function.update (Function.update s.fastcontents prevLine none) store (some lineid)
    else s.fastcontents
  (c.markUsed { s with contents := contents, fastcontents := fastcontents } lineid, prevLine)

/-- `Search` of both classes: the way that holds the line. -/
def search (s : CacheSet) (store : Nat) : Option Nat :=
  if c.highAssoc then s.fastcontents store
  else (List.range c.associativity).find? fun i => s.contents i == store

/-- What an access to one level reports. -/
inductive Answer where
  | hit (way : Nat)
  | miss (way : Nat) (evicted : Nat)
  deriving DecidableEq, Repr

/-- `CacheLevel::Process`, without the statistics it counts. -/
def process (st : LevelState) (rand addr : Nat) : LevelState × Answer :=
  let store := c.getStorage addr
  let set := c.getSet store
  match c.search (st set) store with
  | some lineInSet => (Function.update st set (c.markUsed (st set) lineInSet), .hit lineInSet)
  | none =>
    let lineid := c.lineToReplace (st set) rand
    let (s, evicted) := c.replace (st set) store lineid
    (Function.update st set s, .miss lineid evicted)

variable {c} {st : LevelState} {rand addr w : Nat} in
theorem process_hit
    (h : c.search (st (c.getSet (c.getStorage addr))) (c.getStorage addr) = some w) :
    c.process st rand addr =
      (Function.update st (c.getSet (c.getStorage addr))
        (c.markUsed (st (c.getSet (c.getStorage addr))) w), .hit w) := by
  simp only [process, h]

variable {c} {st : LevelState} {rand addr : Nat} in
theorem process_miss
    (h : c.search (st (c.getSet (c.getStorage addr))) (c.getStorage addr) = none) :
    c.process st rand addr =
      (Function.update st (c.getSet (c.getStorage addr))
        (c.replace (st (c.getSet (c.getStorage addr))) (c.getStorage addr)
          (c.lineToReplace (st (c.getSet (c.getStorage addr))) rand)).1,
        .miss (c.lineToReplace (st (c.getSet (c.getStorage addr))) rand)
          ((st (c.getSet (c.getStorage addr))).contents
            (c.lineToReplace (st (c.getSet (c.getStorage addr))) rand))) := by
  simp only [process, h]
  rfl

/-! ## Geometry and bounds -/

/-- The levels on which no access divides by zero or leaves an array: there is a set
and a way, and true LRU has at least two ways (with one, `Init` sets the only way's
`next` link to 1). -/
structure Usable : Prop where
  countsets_pos : 0 < c.countsets
  associativity_pos : 0 < c.associativity
  trulru_two : c.replpolicy = .trulru → 2 ≤ c.associativity

/-- The marker and the links stay below the associativity. -/
def InBounds (s : CacheSet) : Prop :=
  c.replpolicy = .trulru → s.recentlyUsed < c.associativity ∧
    ∀ w < c.associativity, s.prev w < c.associativity ∧ s.next w < c.associativity

variable {c} {s : CacheSet} {w store rand : Nat}

theorem inBounds_initial (h : c.Usable) : c.InBounds c.initialSet := by
  intro hpol
  have := h.trulru_two hpol
  refine ⟨by simp only [initialSet]; omega, fun w hw => ?_⟩
  simp only [initialSet]
  refine ⟨by split <;> omega, ?_⟩
  split
  · omega
  · exact Nat.mod_lt _ (by omega)

theorem lineToReplace_lt (rand : Nat) (h : c.Usable) (hs : c.InBounds s) :
    c.lineToReplace s rand < c.associativity := by
  have hpos := h.associativity_pos
  unfold lineToReplace
  cases hpol : c.replpolicy with
  | nmru => exact Nat.mod_lt _ hpos
  | trulru => exact (hs hpol).1
  | random => exact Nat.mod_lt _ hpos
  | direct => exact hpos

theorem update_lt {f : Nat → Nat} {n i v : Nat} (hf : ∀ w < n, f w < n) (hv : v < n) :
    ∀ w < n, Function.update f i v w < n := by
  intro w hw
  by_cases h : w = i
  · subst h
    rwa [Function.update_self]
  · rw [Function.update_of_ne h]
    exact hf w hw

/-- `MarkUsed` of a way keeps the bounds. -/
theorem inBounds_markUsed (hs : c.InBounds s) (hw : w < c.associativity) :
    c.InBounds (c.markUsed s w) := by
  intro hpol
  obtain ⟨hrecent, hlinks⟩ := hs hpol
  have hprev : ∀ v < c.associativity, s.prev v < c.associativity := fun v hv => (hlinks v hv).1
  have hnext : ∀ v < c.associativity, s.next v < c.associativity := fun v hv => (hlinks v hv).2
  unfold markUsed
  simp only [hpol]
  split
  · exact ⟨hnext w hw, hlinks⟩
  · have hprev₁ := update_lt (i := s.next w) hprev (hprev w hw)
    have hprev₂ := update_lt (i := w) hprev₁ (hprev₁ _ hrecent)
    have hprev₃ := update_lt (i := s.recentlyUsed) hprev₂ hw
    have hnext₁ := update_lt (i := Function.update s.prev (s.next w) (s.prev w) w) hnext
      (hnext w hw)
    have hnext₂ := update_lt (i := w) hnext₁ hrecent
    exact ⟨hrecent, fun v hv => ⟨hprev₃ v hv, update_lt hnext₂ hw v hv⟩⟩

/-! ## What the operations do to lines and maps -/

@[simp] theorem markUsed_contents : (c.markUsed s w).contents = s.contents := by
  unfold markUsed
  split <;> try rfl
  split <;> rfl

@[simp] theorem markUsed_fastcontents : (c.markUsed s w).fastcontents = s.fastcontents := by
  unfold markUsed
  split <;> try rfl
  split <;> rfl

@[simp] theorem replace_contents :
    (c.replace s store w).1.contents = Function.update s.contents w store := by
  simp [replace]

@[simp] theorem replace_evicted : (c.replace s store w).2 = s.contents w := rfl

theorem inBounds_replace (hs : c.InBounds s) (hw : w < c.associativity) :
    c.InBounds (c.replace s store w).1 :=
  inBounds_markUsed (s := { s with
    contents := Function.update s.contents w store
    fastcontents := if c.highAssoc then
      Function.update (Function.update s.fastcontents (s.contents w) none) store (some w)
      else s.fastcontents }) hs hw

/-- In a highly associative level, the map finds exactly the ways that hold a line
other than 0. A level without the map satisfies it trivially. -/
def MapExact (c : CacheLevel) (s : CacheSet) : Prop :=
  c.highAssoc = true → ∀ line, line ≠ 0 → ∀ w,
    s.fastcontents line = some w ↔ w < c.associativity ∧ s.contents w = line

theorem mapExact_initial : c.MapExact c.initialSet := by
  intro _ line hline w
  simp [initialSet, hline.symm]

theorem mapExact_markUsed (hs : c.MapExact s) : c.MapExact (c.markUsed s w) := by
  intro hfast line hline v
  rw [markUsed_contents, markUsed_fastcontents]
  exact hs hfast line hline v

/-- `Replace` keeps the map exact when the new line is in no other way. -/
theorem mapExact_replace (hs : c.MapExact s) (hw : w < c.associativity)
    (hnew : store ≠ 0 → ∀ v < c.associativity, s.contents v = store → v = w) :
    c.MapExact (c.replace s store w).1 := by
  intro hfast line hline v
  rw [replace_contents]
  unfold replace
  simp only [markUsed_fastcontents, hfast, if_true]
  by_cases hstore : line = store
  · subst hstore
    rw [Function.update_self]
    constructor
    · intro h
      obtain rfl := Option.some.inj h
      exact ⟨hw, Function.update_self ..⟩
    · rintro ⟨hv, hval⟩
      by_cases hvw : v = w
      · rw [hvw]
      · rw [Function.update_of_ne hvw] at hval
        exact absurd (hnew hline v hv hval) hvw
  · rw [Function.update_of_ne hstore]
    by_cases hprev : line = s.contents w
    · subst hprev
      rw [Function.update_self]
      constructor
      · intro h
        cases h
      · rintro ⟨hv, hval⟩
        by_cases hvw : v = w
        · subst hvw
          rw [Function.update_self] at hval
          exact absurd hval.symm hstore
        · rw [Function.update_of_ne hvw] at hval
          have h₁ := (hs hfast _ hline v).mpr ⟨hv, hval⟩
          have h₂ := (hs hfast _ hline w).mpr ⟨hw, rfl⟩
          exact absurd (Option.some.inj (h₁.symm.trans h₂)) hvw
    · rw [Function.update_of_ne hprev, hs hfast line hline v]
      by_cases hvw : v = w
      · subst hvw
        rw [Function.update_self]
        constructor
        · rintro ⟨_, hval⟩
          exact absurd hval.symm hprev
        · rintro ⟨_, hval⟩
          exact absurd hval.symm hstore
      · rw [Function.update_of_ne hvw]

/-- A hit is at a way that holds the line. -/
theorem search_some (hs : c.MapExact s) (hline : store ≠ 0)
    (h : c.search s store = some w) : w < c.associativity ∧ s.contents w = store := by
  unfold search at h
  split at h
  · rename_i hfast
    exact (hs hfast store hline w).mp h
  · have hmem := List.mem_of_find?_eq_some h
    have hval := List.find?_some h
    exact ⟨List.mem_range.mp hmem, by simpa using hval⟩

/-- A miss means that no way holds the line. -/
theorem search_none (hs : c.MapExact s) (hline : store ≠ 0)
    (h : c.search s store = none) : ∀ v < c.associativity, s.contents v ≠ store := by
  intro v hv hval
  unfold search at h
  split at h
  · rename_i hfast
    rw [(hs hfast store hline v).mpr ⟨hv, hval⟩] at h
    cases h
  · have := List.find?_eq_none.mp h v (List.mem_range.mpr hv)
    simp [hval] at this

end CacheLevel

end Pebil

import Pebil.Lib.Loop
import Pebil.Simulation.CacheLevel

/-!
# A hierarchy of cache levels (instcode/Simulation.cpp:1546–1601, 1690–1841)

`CacheStructureHandler::Process` passes an access from level to level; each level's
`Process` names the next one. The levels before the first victim cache are
inclusive; from it on they form the exclusive group, in which a hit or a full miss
sends the access back to the first level of the group with an `EvictionInfo` that
carries the line still to be placed.

`RandomInt` is a parameter: draw `n` of a run is `rand n`. Every call of
`LineToReplace` counts as a draw, whatever its policy.
-/

namespace Pebil

/-- `INVALID_CACHE_LEVEL`. -/
def invalidCacheLevel : Nat := 0xffffffff

/-- The part of a `BufferEntry` that the simulation reads. -/
structure Access where
  memseq : Nat
  address : Nat
  deriving DecidableEq, Repr

/-- `LevelStats`. -/
structure LevelStats where
  hitCount : Nat
  missCount : Nat
  deriving DecidableEq, Repr

/-- `EvictionInfo`. -/
structure EvictionInfo where
  addr : Nat
  level : Nat
  setid : Nat
  lineid : Nat
  deriving DecidableEq, Repr

/-- What a cache description says about one level; `victim` is the suffix `_vc`. -/
structure LevelDescription where
  sizeInBytes : Nat
  assoc : Nat
  lineSize : Nat
  repl : ReplacementPolicy
  victim : Bool
  deriving DecidableEq, Repr

/-- `CacheStructureHandler`: one to three levels (`Verify`), numbered in order. The
levels from `firstExcl` on are exclusive, with `firstExcl` as their `FirstExclusive`
and the last level as their `LastExclusive`. -/
structure CacheStructureHandler where
  levels : List CacheLevel
  firstExcl : Option Nat
  count_pos : 1 ≤ levels.length
  count_le : levels.length ≤ 3
  firstExcl_lt : ∀ first, firstExcl = some first → first < levels.length
  level_eq : ∀ (i : Nat) (c : CacheLevel), levels[i]? = some c → c.level = i

/-- The state that processing changes: the sets of each level, the statistics by
memory operation and level, and how often `LineToReplace` was called. -/
structure HandlerState where
  sets : Nat → LevelState
  stats : Nat → Nat → LevelStats
  draws : Nat

namespace HandlerState

/-- `stats->Stats[memid][level].hitCount++`. -/
def countHit (st : HandlerState) (memid level : Nat) : HandlerState :=
  { st with stats := fun m l =>
      if m = memid ∧ l = level then
        { st.stats m l with hitCount := (st.stats m l).hitCount + 1 }
      else st.stats m l }

/-- `stats->Stats[memid][level].missCount++`. -/
def countMiss (st : HandlerState) (memid level : Nat) : HandlerState :=
  { st with stats := fun m l =>
      if m = memid ∧ l = level then
        { st.stats m l with missCount := (st.stats m l).missCount + 1 }
      else st.stats m l }

/-- Write one set of one level. -/
def setSet (st : HandlerState) (level setid : Nat) (s : CacheSet) : HandlerState :=
  { st with sets := Function.update st.sets level (Function.update (st.sets level) setid s) }

/-- One more call of `LineToReplace`. -/
def draw (st : HandlerState) : HandlerState := { st with draws := st.draws + 1 }

end HandlerState

/-- An access on its way: the level to visit next, what it carries, and the state. -/
structure Visit where
  next : Nat
  info : EvictionInfo
  state : HandlerState

namespace CacheStructureHandler

/-- `Init` on a parsed description: every level at least one line large, and highly
associative from `MinimumHighAssociativity` ways on. -/
def init (descs : List LevelDescription) : Option CacheStructureHandler :=
  if h : 1 ≤ descs.length ∧ descs.length ≤ 3 ∧ ∀ d ∈ descs, d.lineSize ≤ d.sizeInBytes then
    some
      { levels := descs.mapIdx fun i d =>
          CacheLevel.init i d.sizeInBytes d.assoc d.lineSize d.repl
            (decide (minimumHighAssociativity ≤ d.assoc))
        firstExcl := descs.findIdx? (·.victim)
        count_pos := by simpa using h.1
        count_le := by simpa using h.2.1
        firstExcl_lt := by
          intro first hfirst
          have := (List.findIdx?_eq_some_iff_findIdx_eq.mp hfirst).1
          simpa using this
        level_eq := by
          intro i c hc
          rw [List.getElem?_mapIdx] at hc
          obtain ⟨d, -, rfl⟩ := Option.map_eq_some_iff.mp hc
          rfl }
  else none

variable (h : CacheStructureHandler) (rand : Nat → Nat)

/-- Every level's `Init`, and nothing counted. -/
def initial : HandlerState where
  sets i := ((h.levels[i]?).map CacheLevel.initialState).getD fun _ =>
    { contents := fun _ => 0, recentlyUsed := 0, prev := fun _ => 0, next := fun _ => 0,
      fastcontents := fun _ => none }
  stats _ _ := ⟨0, 0⟩
  draws := 0

/-- `CacheLevel::Process` of an inclusive level. -/
def inclusiveProcess (c : CacheLevel) (a : Access) (v : Visit) : Visit :=
  let store := c.getStorage a.address
  let set := c.getSet store
  let s := v.state.sets c.level set
  match c.search s store with
  | some lineInSet =>
    { v with
      next := invalidCacheLevel
      state := (v.state.countHit a.memseq c.level).setSet c.level set (c.markUsed s lineInSet) }
  | none =>
    let lineid := c.lineToReplace s (rand v.state.draws)
    { v with
      next := c.level + 1
      state := ((v.state.countMiss a.memseq c.level).setSet c.level set
        (c.replace s store lineid).1).draw }

/-- The first half of `ExclusiveCacheLevel::Process`: place the line that is carried
and carry on with the line it replaces. -/
def victimize (c : CacheLevel) (v : Visit) : Visit :=
  let e := v.info
  let set := c.getSet e.addr
  let s := v.state.sets c.level set
  let lineInSet :=
    if c.level = e.level ∧ e.setid = set then e.lineid
    else c.lineToReplace s (rand v.state.draws)
  let (s', evicted) := c.replace s e.addr lineInSet
  { next := if c.level = e.level then invalidCacheLevel else c.level + 1
    info := { e with addr := evicted }
    state := (v.state.setSet c.level set s').draw }

/-- The second half: look the line up. A hit records where it was found, a miss of
the last level that there is no such place. -/
def lookUp (c : CacheLevel) (firstExclusive lastExclusive : Nat) (a : Access) (v : Visit) : Visit :=
  let store := c.getStorage a.address
  let set := c.getSet store
  let s := v.state.sets c.level set
  match c.search s store with
  | some lineInSet =>
    { next := if c.level = firstExclusive then invalidCacheLevel else firstExclusive
      info := { addr := store, level := c.level, setid := set, lineid := lineInSet }
      state := (v.state.countHit a.memseq c.level).setSet c.level set (c.markUsed s lineInSet) }
  | none =>
    let state := v.state.countMiss a.memseq c.level
    if c.level = lastExclusive then
      { next := firstExclusive
        info := { v.info with level := lastExclusive + 1, addr := store }
        state := state }
    else { v with next := c.level + 1, state := state }

/-- `ExclusiveCacheLevel::Process`. -/
def exclusiveProcess (c : CacheLevel) (firstExclusive lastExclusive : Nat) (a : Access)
    (v : Visit) : Visit :=
  if v.info.level ≠ invalidCacheLevel then victimize rand c v
  else lookUp c firstExclusive lastExclusive a v

/-- One round of `while (next < levelCount)`. -/
def step (a : Access) (v : Visit) : Visit ⊕ HandlerState :=
  match h.levels[v.next]? with
  | none => .inr v.state
  | some c =>
    match h.firstExcl with
    | none => .inl (inclusiveProcess rand c a v)
    | some first =>
      if first ≤ v.next then .inl (exclusiveProcess rand c first (h.levels.length - 1) a v)
      else .inl (inclusiveProcess rand c a v)

/-- `CacheStructureHandler::Process`. An access visits a level at most twice. -/
def process (st : HandlerState) (a : Access) : Option HandlerState :=
  loop (h.step rand a) (2 * h.levels.length + 2) ⟨0, ⟨0, invalidCacheLevel, 0, 0⟩, st⟩

end CacheStructureHandler

end Pebil

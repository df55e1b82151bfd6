import Mathlib.Data.List.AList
import Mathlib.Data.List.Sort
import Pebil.Base.Word

/-!
# Distances counted in bins (external/ReuseDistance/ReuseDistance.cpp)

`ReuseStats` counts the distances that are found for one id. Distances up to `binindividual` have a
count each, and those above it are counted by the power of two that they go up to.
-/

namespace Pebil

/-- `INFINITY_REUSE`, where no limit is set. -/
def infinityReuse : BitVec 64 := 0

/-- The tables `b` and `S`, from their last entry to the first. -/
def shaveTable : List (BitVec 64 × BitVec 64) :=
  [(0xFFFFFFFF00000000, 32), (0xFFFF0000, 16), (0xFF00, 8), (0xF0, 4), (0xC, 2), (0x2, 1)]

/-- A round of the loop of `ShaveBitsPwr2`: `val` and `r`. -/
def shaveRound (s : BitVec 64 × BitVec 64) (e : BitVec 64 × BitVec 64) : BitVec 64 × BitVec 64 :=
  if s.1 &&& e.1 ≠ 0 then (s.1 >>> e.2, s.2 ||| e.2) else s

/-- `ShaveBitsPwr2`. The 2 that is shifted at the end is an `int`, and the machine shifts it by the
five low bits of `r`. -/
def shaveBitsPwr2 (val : BitVec 64) : BitVec 64 :=
  let r := (shaveTable.foldl shaveRound (val - 1, 0)).2
  ((2 : BitVec 32) <<< (r.toNat % 32)).signExtend 64

/-- `ReuseStats`. -/
structure ReuseStats where
  distcounts : AList fun _ : BitVec 64 => BitVec 64
  accesses : BitVec 64
  id : BitVec 64
  binindividual : BitVec 64
  maxtracking : BitVec 64
  invalid : BitVec 64

namespace ReuseStats

/-- The constructor. -/
def new (idx bin num inv : BitVec 64) : ReuseStats where
  distcounts := ∅
  accesses := 0
  id := idx
  binindividual := bin
  maxtracking := num
  invalid := inv

variable (s : ReuseStats)

/-- `GetBin`. -/
def getBin (value : BitVec 64) : BitVec 64 :=
  if value = s.invalid then s.invalid
  else if s.maxtracking ≠ infinityReuse ∧ s.maxtracking < value then s.invalid
  else if s.binindividual ≠ infinityReuse ∧ s.binindividual < value then shaveBitsPwr2 value
  else value

/-- `CountDistance`. -/
def countDistance (d : BitVec 64) : BitVec 64 := (s.distcounts.lookup d).getD 0

/-- `Update`. -/
def update (dist : BitVec 64) : ReuseStats :=
  { s with
    distcounts := s.distcounts.insert (s.getBin dist) (s.countDistance (s.getBin dist) + 1)
    accesses := s.accesses + 1 }

/-- `GetAccessCount`. -/
def getAccessCount : BitVec 64 := s.accesses

/-- `GetMissCount`. Where no distance has been invalid, an entry for it is made. -/
def getMissCount : ReuseStats × BitVec 64 :=
  ({ s with distcounts := s.distcounts.insert s.invalid (s.countDistance s.invalid) },
    s.countDistance s.invalid)

/-- `GetMaximumDistance`. -/
def getMaximumDistance : BitVec 64 :=
  s.distcounts.keys.foldl (fun max d => if max < d then d else max) 0

/-- `GetSortedDistances`. -/
def getSortedDistances : List (BitVec 64) := s.distcounts.keys.insertionSort (· ≤ ·)

/-- A line that is printed: the boundaries of the bin, both in it, and its count. -/
structure BinLine where
  lower : BitVec 64
  upper : BitVec 64
  count : BitVec 32
  deriving DecidableEq

/-- The lower boundary that is printed with a bin. -/
def lowerBound (d : BitVec 64) : BitVec 64 :=
  if s.binindividual = infinityReuse ∨ d ≤ s.binindividual then d else d / 2 + 1

/-- A bin of `Print`, which asserts that what is left of its count is positive. -/
def printBin (d : BitVec 64) : Option BinLine :=
  let cnt := (s.countDistance d).setWidth 32
  if 0 < cnt then some ⟨s.lowerBound d, d, cnt⟩ else none

/-- `Print`. -/
def print : Option (List BinLine) :=
  (s.getSortedDistances.filter (· ≠ s.invalid)).mapM s.printBin

end ReuseStats

/-! ## The statistics of all ids -/

/-- `stats`. An entry can be `NULL`. -/
abbrev StatsMap := AList fun _ : BitVec 64 => Option ReuseStats

/-- The lines that are printed for an id. -/
structure IdReport where
  id : BitVec 64
  accesses : BitVec 64
  misses : BitVec 64
  bins : List ReuseStats.BinLine

/-- What is printed: the line for the whole, and those of the ids. -/
structure Report where
  capacity : BitVec 64
  binindividual : BitVec 64
  maxtracking : BitVec 64
  ids : Nat
  tot : BitVec 64
  mis : BitVec 64
  body : List IdReport

namespace StatsMap

/-- The two `GetStats`, which differ in the statistics that they make: what `stats[id]` is, which
makes an entry where there is none, or new statistics. -/
def getStats (make : BitVec 64 → ReuseStats) (stats : StatsMap) (id : BitVec 64) (gen : Bool) :
    StatsMap × Option ReuseStats :=
  match (stats.lookup id).join with
  | some s => (stats, some s)
  | none =>
    let s := if gen then some (make id) else none
    (stats.insert id s, s)

/-- `stats->Update(dist)` with the statistics of an id. -/
def update (make : BitVec 64 → ReuseStats) (stats : StatsMap) (id dist : BitVec 64) :
    Option StatsMap :=
  match getStats make stats id true with
  | (stats, some s) => some (stats.insert id (some (s.update dist)))
  | (_, none) => none

/-- The lines of an id in `Print`. Its misses have been counted before. -/
def printId (stats : StatsMap) (id : BitVec 64) : Option IdReport := do
  let r ← (stats.lookup id).join
  let bins ← r.getMissCount.1.print
  return ⟨id, r.getAccessCount, r.getMissCount.2, bins⟩

/-- `ReuseDistance::Print`, which is also that of `SpatialLocality`. -/
def print (stats : StatsMap) (capacity binindividual maxtracking : BitVec 64) : Option Report := do
  let keys := stats.keys.insertionSort (· ≤ ·)
  let body ← keys.mapM (printId stats)
  return {
    capacity
    binindividual
    maxtracking
    ids := keys.length
    tot := (body.map IdReport.accesses).foldl (· + ·) 0
    mis := (body.map IdReport.misses).foldl (· + ·) 0
    body }

end StatsMap

end Pebil

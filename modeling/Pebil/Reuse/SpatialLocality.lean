import Pebil.Reuse.ReuseDistance

/-!
# Spatial locality (external/ReuseDistance/ReuseDistance.cpp)

The window has the last addresses of the stream, in `swindow` in their order and in `awindow` with
how often each of them is there. The distance of an access is that to the closest address of the
window, which is looked for among the address above it and the two before that one. `none` is an
assertion that fails.
-/

namespace Pebil

/-- `INVALID_SPATIAL`. -/
def invalidSpatial : BitVec 64 := 0xFFFFFFFFFFFFFFFF

/-- `uint64abs`. -/
def uint64abs (a : BitVec 64) : BitVec 64 := if a < 0x8000000000000000 then a else 0 - a

/-- `SpatialLocality`. -/
structure SpatialLocality where
  awindow : AList fun _ : BitVec 64 => BitVec 64
  swindow : List (BitVec 64)
  stats : StatsMap
  capacity : BitVec 64
  binindividual : BitVec 64
  maxtracking : BitVec 64

namespace SpatialLocality

/-- `Init`. -/
def init (size bin max : BitVec 64) : Option SpatialLocality := do
  guard (0 < size ∧ size ≠ infinityReuse)
  guard (max = infinityReuse ∨ bin ≤ max)
  return ⟨∅, [], ∅, size, bin, max⟩

/-- The statistics that `GetStats` makes. -/
def newStats (d : SpatialLocality) (id : BitVec 64) : ReuseStats :=
  .new id d.binindividual d.maxtracking invalidSpatial

/-- The addresses of `awindow` in the order of a `std::map`. -/
def addresses (d : SpatialLocality) : List (BitVec 64) := d.awindow.keys.insertionSort (· ≤ ·)

/-- The loop of `Process`, from the place of the iterator back. -/
def look (addr : BitVec 64) (addresses : List (BitVec 64)) : Nat → Nat → BitVec 64 → BitVec 64
  | 0, _, bestdiff => bestdiff
  | n + 1, it, bestdiff =>
    match addresses[it]? with
    | none => bestdiff
    | some cur =>
      let diff := uint64abs (cur - addr)
      let bestdiff := if 0 < diff ∧ diff < bestdiff then diff else bestdiff
      if it = 0 then bestdiff else look addr addresses n (it - 1) bestdiff

/-- The distance to the address closest to an address. -/
def bestdiff (d : SpatialLocality) (addr : BitVec 64) : BitVec 64 :=
  let addresses := d.addresses
  if addresses.length = 0 then invalidSpatial
  else
    let it := addresses.findIdx (addr < ·)
    let it := if it = addresses.length then it - 1 else it
    look addr addresses 3 it invalidSpatial

/-- What is done in `awindow` for an address that leaves the window. -/
def leave (awindow : AList fun _ : BitVec 64 => BitVec 64) (a : BitVec 64) :
    AList fun _ : BitVec 64 => BitVec 64 :=
  let v := (awindow.lookup a).getD 0
  if 1 < v then awindow.insert a (v - 1) else awindow.erase a

/-- The oldest address in the window is removed. -/
def popFront (d : SpatialLocality) : SpatialLocality :=
  match d.swindow with
  | [] => d
  | a :: swindow => { d with awindow := leave d.awindow a, swindow }

/-- `Process`. -/
def process (d : SpatialLocality) (r : ReuseEntry) : Option SpatialLocality := do
  let stats ← StatsMap.update d.newStats d.stats r.id (d.bestdiff r.address)
  let d := { d with stats }
  let d := if d.capacity ≤ BitVec.ofNat 64 d.swindow.length then d.popFront else d
  return { d with
    awindow := d.awindow.insert r.address ((d.awindow.lookup r.address).getD 0 + 1)
    swindow := d.swindow ++ [r.address] }

/-- The loop of `SkipAddresses`. -/
def flush (awindow : AList fun _ : BitVec 64 => BitVec 64) :
    List (BitVec 64) → AList fun _ : BitVec 64 => BitVec 64
  | [] => awindow
  | a :: swindow => flush (leave awindow a) swindow

/-- `SkipAddresses`. -/
def skipAddresses (d : SpatialLocality) (_amount : BitVec 64) : Option SpatialLocality := do
  let awindow := flush d.awindow d.swindow
  guard (awindow.keys.length = 0)
  return { d with awindow, swindow := [] }

/-- `GetActiveAddresses`. -/
def getActiveAddresses (d : SpatialLocality) : List (BitVec 64) := d.addresses

/-- `Print`. -/
def print (d : SpatialLocality) : Option Report :=
  StatsMap.print d.stats d.capacity d.binindividual d.maxtracking

end SpatialLocality

end Pebil

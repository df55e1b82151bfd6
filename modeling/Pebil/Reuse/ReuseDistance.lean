import Pebil.Reuse.ReuseStats
import Pebil.Reuse.Tree234

/-!
# Reuse distances (external/ReuseDistance/ReuseDistance.cpp)

The window has the addresses of the stream in the order of their last use: `window` is sorted by
the sequence number of that use, and `mwindow` has the number of each address. The distance of a
use is the number of the entries from the last use of the address on.

The library is built with its assertions (`REUSE_DEBUG`). `none` is an assertion that fails, or a
`NULL` pointer that is followed.
-/

namespace Pebil

/-- `ReuseEntry`. In the window `id` is called `__seq`, and is the sequence number. -/
structure ReuseEntry where
  id : BitVec 64
  address : BitVec 64
  deriving DecidableEq

/-- `reusecmp`: the difference of the sequence numbers, put into an `int`. -/
def reusecmp (va vb : ReuseEntry) : Int := ((va.id - vb.id).setWidth 32).toInt

/-- `ReuseDistance`. -/
structure ReuseDistance where
  window : Tree234 ReuseEntry
  mwindow : AList fun _ : BitVec 64 => BitVec 64
  current : BitVec 64
  stats : StatsMap
  capacity : BitVec 64
  sequence : BitVec 64
  binindividual : BitVec 64
  maxtracking : BitVec 64

namespace ReuseDistance

/-- `Init`. -/
def init (w b : BitVec 64) : ReuseDistance where
  window := newtree234
  mwindow := ∅
  current := 0
  stats := ∅
  capacity := w
  sequence := 1
  binindividual := b
  maxtracking := w

/-- The statistics that `GetStats` makes. -/
def newStats (d : ReuseDistance) (id : BitVec 64) : ReuseStats :=
  .new id d.binindividual d.capacity infinityReuse

/-- `GetStats`. -/
def getStats (d : ReuseDistance) (id : BitVec 64) (gen : Bool) : ReuseDistance × Option ReuseStats :=
  let r := StatsMap.getStats d.newStats d.stats id gen
  ({ d with stats := r.1 }, r.2)

/-- `GetStats(id, true)->Update(dist)`. -/
def update (d : ReuseDistance) (id dist : BitVec 64) : Option ReuseDistance :=
  (StatsMap.update d.newStats d.stats id dist).map fun stats => { d with stats }

/-- Takes the slot at a position out of the window. -/
def recycle (d : ReuseDistance) (dist : Nat) : Option ReuseDistance := do
  let (slot, window) ← delpos234 d.window dist
  guard ((d.mwindow.lookup slot.address).getD 0 ≠ 0)
  let mwindow := d.mwindow.erase slot.address
  guard (count234 window = mwindow.keys.length)
  return { d with window, mwindow }

/-- Puts an address into the window, as the last one used. -/
def insertLast (d : ReuseDistance) (addr : BitVec 64) : Option ReuseDistance := do
  let mwindow := d.mwindow.insert addr d.sequence
  let window := (add234 reusecmp d.window ⟨d.sequence, addr⟩).1
  guard (count234 window = mwindow.keys.length)
  guard (BitVec.ofNat 64 mwindow.keys.length ≤ d.current)
  return { d with window, mwindow, sequence := d.sequence + 1 }

/-- `Process`. The number of the last use is 0 where there has been none. -/
def process (d : ReuseDistance) (r : ReuseEntry) : Option ReuseDistance := do
  let (mres, dist, d) ← (
    match d.mwindow.lookup r.address with
    | some mres => do
      let (_, dist) ← findrelpos234 reusecmp d.window ⟨mres, r.address⟩
      guard (d.capacity = infinityReuse ∨ d.current - BitVec.ofNat 64 dist ≤ d.capacity)
      let d ← d.update r.id (d.current - BitVec.ofNat 64 dist)
      return (mres, dist, d)
    | none => do
      let d ← d.update r.id infinityReuse
      return (0, 0, d))
  let d ← (
    if mres ≠ 0 ∨ d.capacity ≠ infinityReuse ∧ d.capacity ≤ d.current then d.recycle dist
    else some { d with current := d.current + 1 })
  d.insertLast r.address

/-- The loop that empties the window. -/
def flush : Nat → Tree234 ReuseEntry → Tree234 ReuseEntry
  | 0, window => window
  | n + 1, window =>
    match delpos234 window 0 with
    | some (_, window) => flush n window
    | none => flush n window

/-- `SkipAddresses`. -/
def skipAddresses (d : ReuseDistance) (amount : BitVec 64) : Option ReuseDistance := do
  let window := flush d.current.toNat d.window
  guard (count234 window = 0)
  return { d with window, mwindow := ∅, current := 0, sequence := d.sequence + amount }

/-- `GetActiveAddresses`. -/
def getActiveAddresses (d : ReuseDistance) : Option (List (BitVec 64)) :=
  (List.range d.current.toNat).mapM fun i => (index234 d.window i).map ReuseEntry.address

/-- `Print`. -/
def print (d : ReuseDistance) : Option Report :=
  StatsMap.print d.stats d.capacity d.binindividual d.maxtracking

end ReuseDistance

end Pebil

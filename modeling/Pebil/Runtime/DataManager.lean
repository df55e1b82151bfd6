import Mathlib.Data.List.Sort
import Mathlib.Logic.Function.Basic

/-!
# Data by image and thread (instcode/InstrumentationCommon.hpp:420–740, instcode/Simulation.cpp:1844–1923)

`DataManager` keeps a data object for every image and thread. Adding an image makes its data
for the threads there are, adding a thread its data for the images there are; the data of an
image that its inline code reaches is entered in the image's table, at the hash of the thread.

The data are made by `GenerateCacheStats`. A new thread's object is a copy with handlers and a
buffer of its own. For a new image there is the one object that the image brought, whatever
the thread.

An assertion that fails, and a probe that does not end, is `none`.
-/

namespace Pebil

/-- The fields of `SimulationStats` that tell what it belongs to and what it shares. Addresses
are numbers; 0 is no address. -/
structure SimulationStats where
  threadid : Nat
  imageid : Nat
  handlers : Nat
  buffer : Nat
  deriving DecidableEq, Repr

/-- `ThreadData`, an entry of an image's table. An entry with `id` 0 is free. -/
structure ThreadData where
  id : Nat
  data : Nat
  deriving DecidableEq, Repr

/-- `ThreadType` and `ImageType`. -/
inductive DataType where
  | threadType
  | imageType
  deriving DecidableEq, Repr

/-- `ThreadHashShift`. -/
def threadHashShift : Nat := 12

/-- `ThreadHashMod`. -/
def threadHashMod : Nat := 0xffff

/-- `HashThread`. -/
def hashThread (tid : Nat) : Nat := (tid >>> threadHashShift) &&& threadHashMod

/-- Insertion into a `std::set`, kept in order. -/
def insertKey (k : Nat) (keys : List Nat) : List Nat :=
  if k ∈ keys then keys else keys.orderedInsert (· ≤ ·) k

@[simp] theorem mem_insertKey {k k' : Nat} {keys : List Nat} :
    k' ∈ insertKey k keys ↔ k' = k ∨ k' ∈ keys := by
  unfold insertKey
  split
  · rename_i hk
    exact ⟨.inr, fun h => h.elim (fun heq => heq ▸ hk) id⟩
  · exact List.mem_orderedInsert _

theorem nodup_insertKey {k : Nat} {keys : List Nat} (h : keys.Nodup) :
    (insertKey k keys).Nodup := by
  unfold insertKey
  split
  · exact h
  · rename_i hk
    exact (List.perm_orderedInsert _ k keys).nodup_iff.mpr (List.nodup_cons.mpr ⟨hk, h⟩)

/-- The first loop of `SetThreadData`: the first free entry, by linear probing. -/
def freeSlot (td : Nat → ThreadData) : Nat → Nat → Option Nat
  | 0, _ => none
  | fuel + 1, actual =>
    if (td actual).id = 0 then some actual
    else freeSlot td fuel ((actual + 1) % (threadHashMod + 1))

/-- The loop of `RemoveThreadData`: the entry of a thread, by linear probing. -/
def threadSlot (td : Nat → ThreadData) (tid : Nat) : Nat → Nat → Option Nat
  | 0, _ => none
  | fuel + 1, actual =>
    if (td actual).id = tid then some actual
    else threadSlot td tid fuel ((actual + 1) % (threadHashMod + 1))

/-- `DataManager<SimulationStats*>`, with the memory its data are in: the objects, and the
next address that was never used. -/
structure DataManager where
  heap : Nat → SimulationStats
  next : Nat
  datamap : Nat → Nat → Option Nat
  threadseq : Nat → Option Nat
  currentthreadseq : Nat
  firstimage : Nat
  threaddata : Nat → Option (Nat → ThreadData)
  allthreads : List Nat
  allimages : List Nat

namespace DataManager

/-- The constructor, called by the thread `creator`. -/
def create (creator : Nat) : DataManager where
  heap _ := ⟨0, 0, 0, 0⟩
  next := 1
  datamap _ _ := none
  threadseq := Function.update (fun _ => none) creator (some 0)
  currentthreadseq := 1
  firstimage := 0
  threaddata _ := none
  allthreads := []
  allimages := []

/-- `GetData(iid, tid)`. -/
def getData (dm : DataManager) (iid tid : Nat) : Option Nat := dm.datamap iid tid

/-- `datamap[iid][tid] = data`. -/
def setData (dm : DataManager) (iid tid data : Nat) : DataManager :=
  { dm with
    datamap := Function.update dm.datamap iid (Function.update (dm.datamap iid) tid (some data)) }

/-- `GenerateCacheStats`: the object it returns, and the memory after it. -/
def generateCacheStats (dm : DataManager) (s : Nat) (typ : DataType) (iid tid firstimage : Nat) :
    Option (Nat × DataManager) := do
  let (stats, next) := if typ = .threadType then (dm.next, dm.next + 1) else (s, dm.next)
  let (handlers, next) ←
    if typ = .threadType ∨ iid = firstimage then some (next, next + 1)
    else (dm.getData firstimage tid).map fun fs => ((dm.heap fs).handlers, next)
  let (buffer, next) ←
    if typ = .threadType then some (next, next + 1)
    else if iid ≠ firstimage then
      (dm.getData firstimage tid).map fun fs => ((dm.heap fs).buffer, next)
    else some ((dm.heap s).buffer, next)
  some (stats,
    { dm with
      heap := Function.update dm.heap stats ⟨tid, iid, handlers, buffer⟩
      next := next })

/-- `SetThreadData`: the data reference it enters. A thread that does not get the entry at its
hash is given up. -/
def setThreadData (dm : DataManager) (iid tid : Nat) : Option (Nat × DataManager) := do
  let td ← dm.threaddata iid
  let d ← dm.datamap iid tid
  let actual ← freeSlot td (threadHashMod + 1) (hashThread tid)
  if actual = hashThread tid then
    some (d,
      { dm with
        threaddata :=
          Function.update dm.threaddata iid (some (Function.update td actual ⟨tid, d⟩)) })
  else none

/-- The round of `AddThread` for one image. -/
def addThreadTo (tid : Nat) (dm : DataManager) (iid : Nat) : Option DataManager := do
  if (dm.datamap iid tid).isSome then none
  else
    match dm.allthreads with
    | [] => none
    | t :: _ =>
      let s ← dm.datamap iid t
      let (d, dm) ← dm.generateCacheStats s .threadType iid tid dm.firstimage
      let (_, dm) ← (dm.setData iid tid d).setThreadData iid tid
      some dm

/-- `AddThread`. -/
def addThread (dm : DataManager) (tid : Nat) : Option DataManager :=
  if tid ∈ dm.allthreads ∨ (dm.threadseq tid).isSome ∨ dm.firstimage = 0 then none
  else do
    let dm := { dm with
      threadseq := Function.update dm.threadseq tid (some dm.currentthreadseq)
      currentthreadseq := dm.currentthreadseq + 1 }
    let dm ← dm.allimages.foldlM (addThreadTo tid) dm
    some { dm with allthreads := insertKey tid dm.allthreads }

/-- The round of `AddImage` for one thread. -/
def addImageFor (data iid : Nat) (dm : DataManager) (tid : Nat) : Option DataManager := do
  let (d, dm) ← dm.generateCacheStats data .imageType iid tid dm.firstimage
  some (dm.setData iid tid d)

/-- The first part of `AddImage`: the image and the calling thread are entered, the image's
own object is the thread's data, and its table is empty. The object and its buffer are parts
of the image. -/
def insertImage (dm : DataManager) (iid tid : Nat) : DataManager :=
  { dm with
    heap := Function.update dm.heap dm.next ⟨0, 0, 0, dm.next + 1⟩
    next := dm.next + 2
    allthreads := insertKey tid dm.allthreads
    allimages := insertKey iid dm.allimages
    datamap := Function.update dm.datamap iid
      (Function.update (fun _ => none) tid (some dm.next))
    threaddata := Function.update dm.threaddata iid (some fun _ => ⟨0, 0⟩) }

/-- A single thread's data reference goes into every entry of the table. -/
def fillThreadData (dm : DataManager) (iid dataloc : Nat) : DataManager :=
  if dm.allthreads.length = 1 then
    { dm with
      threaddata := Function.update dm.threaddata iid
        ((dm.threaddata iid).map fun td i => { td i with data := dataloc }) }
  else dm

/-- `if (firstimage == 0) firstimage = iid`. -/
def setFirstimage (dm : DataManager) (iid : Nat) : DataManager :=
  if dm.firstimage = 0 then { dm with firstimage := iid } else dm

/-- `AddImage`, called by thread `tid`. -/
def addImage (dm : DataManager) (iid tid : Nat) : Option DataManager :=
  if iid ∈ dm.allimages then none
  else do
    let (dataloc, dm') ← (dm.insertImage iid tid).setThreadData iid tid
    let dm' := (dm'.fillThreadData iid dataloc).setFirstimage iid
    dm'.allthreads.foldlM (addImageFor dm.next iid) dm'

end DataManager

/-- The additions: an image by the thread that loads it, and a thread. -/
inductive DataOp where
  | addImage (iid tid : Nat)
  | addThread (tid : Nat)
  deriving DecidableEq, Repr

namespace DataOp

/-- Keys are never 0. -/
def Valid : DataOp → Prop
  | addImage iid tid => iid ≠ 0 ∧ tid ≠ 0
  | addThread tid => tid ≠ 0

def apply (dm : DataManager) : DataOp → Option DataManager
  | addImage iid tid => dm.addImage iid tid
  | addThread tid => dm.addThread tid

/-- An image comes before a second thread, and a thread before a second image. -/
def InOrder (dm : DataManager) : DataOp → Prop
  | addImage _ tid => ∀ t ∈ dm.allthreads, t = tid
  | addThread _ => dm.allimages.length ≤ 1

/-- The additions in a row. -/
def run (dm : DataManager) (ops : List DataOp) : Option DataManager := ops.foldlM apply dm

/-- Every addition of a run is in order. -/
def AllInOrder : DataManager → List DataOp → Prop
  | _, [] => True
  | dm, op :: ops => op.InOrder dm ∧ ∀ dm', op.apply dm = some dm' → AllInOrder dm' ops

end DataOp

namespace DataManager

/-- Every image and thread have an object of their own, which the image's table leads to; a
thread has one set of handlers and one buffer, which are no other thread's. -/
structure Owned (dm : DataManager) : Prop where
  data : ∀ i ∈ dm.allimages, ∀ t ∈ dm.allthreads, ∃ d, dm.getData i t = some d
  distinct : ∀ i t i' t' d, dm.getData i t = some d → dm.getData i' t' = some d → i = i' ∧ t = t'
  hashed : ∀ i t d, dm.getData i t = some d → ∃ td slot, dm.threaddata i = some td ∧
    threadSlot td t (threadHashMod + 1) (hashThread t) = some slot ∧ td slot = ⟨t, d⟩
  shared : ∀ i i' t d d', dm.getData i t = some d → dm.getData i' t = some d' →
    (dm.heap d).handlers = (dm.heap d').handlers ∧ (dm.heap d).buffer = (dm.heap d').buffer
  apart : ∀ i t i' t' d d', dm.getData i t = some d → dm.getData i' t' = some d' → t ≠ t' →
    (dm.heap d).handlers ≠ (dm.heap d').handlers ∧ (dm.heap d).buffer ≠ (dm.heap d').buffer

end DataManager

end Pebil

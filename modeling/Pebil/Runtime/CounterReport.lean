import Mathlib.Data.BitVec
import Pebil.Runtime.DataManager

/-!
# The counts of blocks and loops (instcode/CounterFunctions.cpp)

An image comes with an array of 64-bit counters, one for every block and loop; the entry of any
other instruction of a block holds the index of the block's counter. `DataManager` gives every
thread an array of its own, a copy with the counts cleared, and the image's inline code counts in
the array that the image's table has for the thread.

`tool_image_fini` of the executable adds up the threads' counts of an entry in a 32-bit variable
and prints the entry if the sum is not 0. `expected` are the lines with the true sums.
-/

namespace Pebil

namespace CounterReport

/-! ## Images -/

/-- `CounterTypes`. -/
inductive CounterType where
  | undefined
  | instruction
  | basicblock
  | loop
  | function
  deriving DecidableEq, Repr

/-- What the arrays of a `CounterArray` say of an entry. -/
structure CounterEntry where
  type : CounterType
  hash : BitVec 64
  address : BitVec 64
  function : String
  file : String
  line : BitVec 32
  deriving DecidableEq, Repr

/-- The counters of an image as the tool makes them. The entry of an instruction has the index of
the `leader` of its block, any other one the count 0. -/
structure Image where
  master : Bool
  entries : List CounterEntry
  counters : List (BitVec 64)
  leader : Nat → Nat
  length_eq : counters.length = entries.length
  length_lt : entries.length < 2 ^ 32
  leads : ∀ (k : Nat) e, entries[k]? = some e → if e.type = .instruction then
    counters[k]? = some (BitVec.ofNat 64 (leader k)) ∧
      ∃ e', entries[leader k]? = some e' ∧ e'.type ≠ .instruction
    else counters[k]? = some 0 ∧ leader k = k

/-! ## The data -/

/-- `CounterArray`; `counters` is the address of the counters. -/
structure CounterArray where
  initialized : Bool
  master : Bool
  threadid : Nat
  imageid : Nat
  entries : List CounterEntry
  counters : Nat
  deriving DecidableEq, Repr

/-- `DataManager<CounterArray*>`, with the memory its data are in: the objects, the counters,
and the next address that was never used. -/
structure CounterData where
  heap : Nat → CounterArray
  memory : Nat → List (BitVec 64)
  next : Nat
  datamap : Nat → Nat → Option Nat
  threadseq : Nat → Option Nat
  currentthreadseq : Nat
  imageseq : Nat → Option Nat
  currentimageseq : Nat
  firstimage : Nat
  threaddata : Nat → Option (Nat → ThreadData)
  allthreads : List Nat
  allimages : List Nat

namespace CounterData

/-- The constructor, called by the thread `creator`. -/
def create (creator : Nat) : CounterData where
  heap _ := ⟨false, false, 0, 0, [], 0⟩
  memory _ := []
  next := 1
  datamap _ _ := none
  threadseq := Function.update (fun _ => none) creator (some 0)
  currentthreadseq := 1
  imageseq _ := none
  currentimageseq := 0
  firstimage := 0
  threaddata _ := none
  allthreads := []
  allimages := []

/-- `datamap[iid][tid] = data`. -/
def setData (dm : CounterData) (iid tid data : Nat) : CounterData :=
  { dm with
    datamap := Function.update dm.datamap iid (Function.update (dm.datamap iid) tid (some data)) }

/-- "keep all CounterType_instruction in place" -/
def clearCounts (entries : List CounterEntry) (counters : List (BitVec 64)) : List (BitVec 64) :=
  List.zipWith (fun e n => if e.type = .instruction then n else 0) entries counters

/-- `GenerateCounterArray`: the object it returns, and the memory after it. -/
def generateCounterArray (dm : CounterData) (ctrs : Nat) (typ : DataType) (iid tid : Nat) :
    Nat × CounterData :=
  let c := { dm.heap ctrs with threadid := tid, imageid := iid }
  let dm := { dm with heap := Function.update dm.heap ctrs c }
  match typ with
  | .imageType => (ctrs, dm)
  | .threadType => (dm.next,
    { dm with
      heap := Function.update dm.heap dm.next
        { c with counters := dm.next + 1, initialized := false, master := false }
      memory := Function.update dm.memory (dm.next + 1)
        (clearCounts c.entries (dm.memory c.counters))
      next := dm.next + 2 })

/-- `SetThreadData` with `RefCounterArray`. A thread that does not get the entry at its hash is
given up. -/
def setThreadData (dm : CounterData) (iid tid : Nat) : Option (Nat × CounterData) := do
  let td ← dm.threaddata iid
  let d ← dm.datamap iid tid
  let actual ← freeSlot td (threadHashMod + 1) (hashThread tid)
  if actual = hashThread tid then
    some ((dm.heap d).counters,
      { dm with
        threaddata := Function.update dm.threaddata iid
          (some (Function.update td actual ⟨tid, (dm.heap d).counters⟩)) })
  else none

/-- The round of `AddThread` for one image. -/
def addThreadTo (tid : Nat) (dm : CounterData) (iid : Nat) : Option CounterData := do
  if (dm.datamap iid tid).isSome then none
  else
    match dm.allthreads with
    | [] => none
    | t :: _ =>
      let s ← dm.datamap iid t
      let (d, dm) := dm.generateCounterArray s .threadType iid tid
      let (_, dm) ← (dm.setData iid tid d).setThreadData iid tid
      some dm

/-- `AddThread`. -/
def addThread (dm : CounterData) (tid : Nat) : Option CounterData :=
  if tid ∈ dm.allthreads ∨ (dm.threadseq tid).isSome ∨ dm.firstimage = 0 then none
  else do
    let dm := { dm with
      threadseq := Function.update dm.threadseq tid (some dm.currentthreadseq)
      currentthreadseq := dm.currentthreadseq + 1 }
    let dm ← dm.allimages.foldlM (addThreadTo tid) dm
    some { dm with allthreads := insertKey tid dm.allthreads }

/-- The round of `AddImage` for one thread. -/
def addImageFor (data iid : Nat) (dm : CounterData) (tid : Nat) : CounterData :=
  let (d, dm) := dm.generateCounterArray data .imageType iid tid
  dm.setData iid tid d

/-- The first part of `AddImage`: the image and the calling thread are entered, the image's own
object is the thread's data, and its table is empty. -/
def insertImage (dm : CounterData) (image : Image) (iid tid : Nat) : CounterData :=
  { dm with
    heap := Function.update dm.heap dm.next
      ⟨true, image.master, 0, 0, image.entries, dm.next + 1⟩
    memory := Function.update dm.memory (dm.next + 1) image.counters
    next := dm.next + 2
    imageseq := Function.update dm.imageseq iid (some dm.currentimageseq)
    currentimageseq := dm.currentimageseq + 1
    allthreads := insertKey tid dm.allthreads
    allimages := insertKey iid dm.allimages
    datamap := Function.update dm.datamap iid
      (Function.update (fun _ => none) tid (some dm.next))
    threaddata := Function.update dm.threaddata iid (some fun _ => ⟨0, 0⟩) }

/-- A single thread's data reference goes into every entry of the table. -/
def fillThreadData (dm : CounterData) (iid dataloc : Nat) : CounterData :=
  if dm.allthreads.length = 1 then
    { dm with
      threaddata := Function.update dm.threaddata iid
        ((dm.threaddata iid).map fun td i => { td i with data := dataloc }) }
  else dm

/-- `if (firstimage == 0) firstimage = iid`. -/
def setFirstimage (dm : CounterData) (iid : Nat) : CounterData :=
  if dm.firstimage = 0 then { dm with firstimage := iid } else dm

/-- `AddImage`, called by thread `tid`. -/
def addImage (dm : CounterData) (image : Image) (iid tid : Nat) : Option CounterData :=
  if iid ∈ dm.allimages then none
  else do
    let (dataloc, dm') ← (dm.insertImage image iid tid).setThreadData iid tid
    let dm' := (dm'.fillThreadData iid dataloc).setFirstimage iid
    some (dm'.allthreads.foldl (addImageFor dm.next iid) dm')

/-- The inline code of an entry: it goes through the image's table, and there is nothing at the
address 0. -/
def count (dm : CounterData) (iid tid k : Nat) (add : Bool) : Option CounterData := do
  let td ← dm.threaddata iid
  let data := (td (hashThread tid)).data
  let n ← (dm.memory data)[k]?
  if data = 0 then none
  else some { dm with
    memory := Function.update dm.memory data
      ((dm.memory data).set k (if add then n + 1 else n - 1)) }

/-! ## The report -/

/-- A `BLK` or `LPP` line, which goes without the sequence number, and the lines of threads behind
it. -/
structure Line where
  loop : Bool
  sequence : Nat
  hash : BitVec 64
  imageSequence : Nat
  counter : BitVec 64
  file : String
  line : BitVec 32
  function : String
  address : BitVec 64
  threads : List (Nat × BitVec 64)
  deriving DecidableEq, Repr

/-- `PRINT_MINIMUM`. -/
def printMinimum : BitVec 64 := 1

/-- The lines of an entry that counts `counter`, with the counts of the threads. -/
def printEntry (e : CounterEntry) (i imageSequence : Nat) (counter : BitVec 64)
    (threads : List (Nat × BitVec 64)) : List Line :=
  if counter ≥ printMinimum then
    [{ loop := e.type == .loop
       sequence := i
       hash := e.hash
       imageSequence := imageSequence
       counter := counter
       file := e.file
       line := e.line
       function := e.function
       address := e.address
       threads := threads.filter fun t => t.2 ≥ printMinimum }]
  else []

/-- The loop that adds up, in a `uint32_t`. -/
def tally (counts : List (BitVec 64)) : BitVec 32 :=
  counts.foldl (fun counter n => (counter.setWidth 64 + n).setWidth 32) 0

/-- `tc->Counters[idx]` and the sequence number, for every thread. -/
def threadCounts (dm : CounterData) (iid idx : Nat) : Option (List (Nat × BitVec 64)) :=
  dm.allthreads.mapM fun t => do
    let tc ← dm.datamap iid t
    let n ← (dm.memory (dm.heap tc).counters)[idx]?
    let seq ← dm.threadseq t
    some (seq, n)

/-- The round for the entry `i` of an image. -/
def printRound (dm : CounterData) (iid : Nat) (c : CounterArray) (i : Nat) :
    Option (List Line) := do
  let e ← c.entries[i]?
  let n ← (dm.memory c.counters)[i]?
  let idx := if e.type = .instruction then (n.setWidth 32).toNat else i
  let threads ← dm.threadCounts iid idx
  let imageSequence ← dm.imageseq iid
  some (printEntry e i imageSequence ((tally (threads.map (·.2))).setWidth 64) threads)

/-- The lines of an image, with the array of the thread that prints. -/
def printImage (dm : CounterData) (tid iid : Nat) : Option (List Line) := do
  let c ← dm.datamap iid tid
  let lines ← (List.range (dm.heap c).entries.length).mapM (dm.printRound iid (dm.heap c))
  some lines.flatten

/-- `tool_image_fini`, as far as it prints counts. -/
def toolImageFini (dm : CounterData) (key tid : Nat) : Option (List Line) := do
  let ctrs ← dm.datamap key tid
  if (dm.heap ctrs).master then
    let lines ← dm.allimages.mapM (dm.printImage tid)
    some lines.flatten
  else some []

end CounterData

open CounterData

/-! ## Runs -/

/-- The thread `tid` enters an image for the first time or again, a thread starts, or the thread
`tid` comes past the code that counts for an entry; a loop is counted where its head is
entered, and counted back on its back edges. -/
inductive Operation where
  | imageInit (iid tid : Nat)
  | threadInit (tid : Nat)
  | count (iid tid k : Nat) (add : Bool)
  deriving DecidableEq, Repr

/-- `tool_image_init`, with `AllData`. -/
def toolImageInit (image : Image) (allData : Option CounterData) (iid tid : Nat) :
    Option CounterData :=
  let dm := allData.getD (create tid)
  if iid ∈ dm.allimages then some dm
  else (dm.addImage image iid tid).map fun dm' =>
    { dm' with
      heap := Function.update dm'.heap dm.next
        { dm'.heap dm.next with threadid := tid, imageid := iid } }

/-- `tool_thread_init`. -/
def toolThreadInit (allData : Option CounterData) (tid : Nat) : Option CounterData :=
  allData.bind fun dm => dm.addThread tid

section Run

variable (images : Nat → Image)

/-- One operation; none where the program stops. Only the entries that are not those of
instructions have code that counts, and `tool_thread_init` comes before the code of the
thread. -/
def step (allData : Option CounterData) : Operation → Option CounterData
  | .imageInit iid tid => toolImageInit (images iid) allData iid tid
  | .threadInit tid => toolThreadInit allData tid
  | .count iid tid k add => do
    let dm ← allData
    let e ← (images iid).entries[k]?
    if e.type = .instruction ∨ tid ∉ dm.allthreads then none else dm.count iid tid k add

/-- The operations in a row. -/
def run (allData : Option CounterData) : List Operation → Option CounterData
  | [] => allData
  | op :: ops =>
    match step images allData op with
    | none => none
    | some dm => run (some dm) ops

end Run

/-- How often the threads executed the entries: by image, thread and entry. -/
abbrev Executions := Nat → Nat → Nat → Int

/-- An operation as an execution of an entry. -/
def Operation.executions : Operation → Executions
  | .count iid tid k add => fun i t k' =>
    if i = iid ∧ t = tid ∧ k' = k then (if add then 1 else -1) else 0
  | _ => fun _ _ _ => 0

/-- How often the entries were executed in a run. -/
def executions (ops : List Operation) : Executions := fun i t k =>
  (ops.map fun op => op.executions i t k).sum

/-- The executions of an entry by all threads; those of an instruction are those of the leader of
its block. -/
def total (images : Nat → Image) (threads : List Nat) (executed : Executions) (i k : Nat) :
    BitVec 64 :=
  BitVec.ofInt 64 (threads.map fun t => executed i t ((images i).leader k)).sum

/-- The thread that an operation loads an image in. -/
def Operation.loads : Operation → Nat → Option Nat
  | .imageInit iid tid => fun i => if i = iid then some tid else none
  | _ => fun _ => none

/-- The thread that loads an image. -/
def loader (ops : List Operation) (i : Nat) : Option Nat := ops.findSome? fun op => op.loads i

/-- The lines that should be printed. -/
def expected (images : Nat → Image) (dm : CounterData) (executed : Executions) : List Line :=
  dm.allimages.flatMap fun i => (images i).entries.zipIdx.flatMap fun e =>
    printEntry e.1 e.2 ((dm.imageseq i).getD 0) (total images dm.allthreads executed i e.2)
      (dm.allthreads.map fun t => ((dm.threadseq t).getD 0,
        BitVec.ofInt 64 (executed i t ((images i).leader e.2))))

/-- The executable prints what it should, and the other images nothing. -/
def ReportRight (images : Nat → Image) (dm : CounterData) (executed : Executions) (key : Nat)
    (lines : List Line) : Prop :=
  lines = if (images key).master then expected images dm executed else []

/-- No sum needs more than 32 bits, and the executable ends in the thread that loaded it, or
nothing was executed. -/
def ReportMeets (images : Nat → Image) (dm : CounterData) (executed : Executions)
    (loader : Option Nat) (key tid : Nat) : Prop :=
  (images key).master = true → ∀ i ∈ dm.allimages, ∀ k < (images i).entries.length,
    (total images dm.allthreads executed i k).toNat < if loader = some tid then 2 ^ 32 else 1

/-- An image comes before a second thread. -/
def Operation.InOrder (allData : Option CounterData) : Operation → Prop
  | .imageInit iid tid => ∀ dm, allData = some dm →
    iid ∈ dm.allimages ∨ ∀ t ∈ dm.allthreads, t = tid
  | _ => True

/-- Keys are never 0. -/
def Operation.Valid : Operation → Prop
  | .imageInit iid tid => iid ≠ 0 ∧ tid ≠ 0
  | .threadInit tid => tid ≠ 0
  | .count _ _ _ _ => True

/-- Every operation of a run is in order. -/
def AllInOrder (images : Nat → Image) (allData : Option CounterData) : List Operation → Prop
  | [] => True
  | op :: ops => op.InOrder allData ∧
      ∀ dm, step images allData op = some dm → AllInOrder images (some dm) ops

end CounterReport

end Pebil

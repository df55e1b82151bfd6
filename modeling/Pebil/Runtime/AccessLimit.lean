import Pebil.Runtime.CounterReport
import Pebil.Runtime.Sampling

/-!
# The access limit (instcode/Simulation.cpp:184–213, 271–428, tools/CacheSimulation.C:324–660)

Beyond `METASIM_LIMIT_HIGH_COUNT` executions a block is not simulated any more: the points of the
block that check, increment and fill the buffer are disabled, and its key leaves `NonmaxKeys`, so
that no phase of the sampler enables them again. `process_thread_buffer` finds the blocks through
the entries of the buffer and the statistics that `FastData` has for them.

A key is the number of a block and a type. It does not say of which image the block is, and an
entry that nothing was written to, with the image 0, is not left out. `runRight_of_runMeets` says
for which runs this does no harm.
-/

namespace Pebil

namespace AccessLimit

open CounterReport (CounterType)

/-! ## The statistics of an image -/

/-- The image as the tool numbers its memory operations: for each one the number of its block. -/
structure SimulatedImage where
  perInstruction : Bool
  memops : List Nat
  ordered : memops.Pairwise (· ≤ ·)

namespace SimulatedImage

variable (image : SimulatedImage)

/-- `BlockIds`. -/
def blockIds (memseq : Nat) : Option Nat :=
  (image.memops[memseq]?).map fun b => if image.perInstruction then memseq else b

/-- `MemopIds`: the block of an instruction, or the place of an operation in its block. -/
def memopIds (memseq : Nat) : Option Nat :=
  (image.memops[memseq]?).map fun b =>
    if image.perInstruction then b else memseq - image.memops.idxOf b

/-- `Types`. The first operation of a block counts for it. -/
def types (bbid : Nat) : CounterType :=
  if image.perInstruction then
    match image.memops[bbid]? with
    | some b => if image.memops.idxOf b = bbid then .basicblock else .instruction
    | none => .undefined
  else .basicblock

/-- `Counters`, for blocks that were executed `count` times; the counters of other instructions
hold the index of the first one of their block. -/
def counters (count : Nat → Nat) (bbid : Nat) : Nat :=
  if image.perInstruction then
    match image.memops[bbid]? with
    | some b => if image.memops.idxOf b = bbid then count b else image.memops.idxOf b
    | none => 0
  else count bbid

/-- What decides about an entry: `midx` and `s->Counters[idx]`. -/
def reference (count : Nat → Nat) (memseq : Nat) : Option (Nat × Nat) := do
  let bbid ← image.blockIds memseq
  let idx := if image.types bbid = .instruction then image.counters count bbid else bbid
  let midx ← if image.perInstruction then image.memopIds bbid else some bbid
  some (midx, image.counters count idx)

end SimulatedImage

/-! ## The buffer -/

/-- What is read of a `BufferEntry`. -/
structure Entry where
  imageid : Nat
  memseq : Nat
  deriving DecidableEq, Repr

/-- The loop of `Refresh` over the entries from slot `j` on. A row has the statistics of an image
for each slot; here they are named by the image. -/
def refreshFrom (images : Finset Nat) (threadCount : Nat) :
    List Entry → Nat → (Nat → Option Nat) → Option (Nat → Option Nat)
  | [], _, row => some row
  | e :: buffer, j, row =>
    if e.imageid = 0 then
      if 1 < threadCount then refreshFrom images threadCount buffer (j + 1) row else none
    else if e.imageid ∈ images then
      refreshFrom images threadCount buffer (j + 1) (Function.update row j (some e.imageid))
    else none

/-- `Refresh`. -/
def refresh (images : Finset Nat) (threadCount : Nat) (buffer : List Entry)
    (row : Nat → Option Nat) : Option (Nat → Option Nat) :=
  if images.card = 1 then some row else refreshFrom images threadCount buffer 0 row

/-- The references of the last section, through the row of the thread. -/
def references (images : Nat → SimulatedImage) (counts : Nat → Nat → Nat)
    (row : Nat → Option Nat) (buffer : List Entry) : Option (List (Nat × Nat)) :=
  buffer.zipIdx.mapM fun e => do
    let i ← row e.2
    (images i).reference (counts i) e.1.memseq

/-- The blocks, by image and number, that occur in an entry that was written to and are beyond
the limit. -/
def hot (images : Nat → SimulatedImage) (sampler : SamplingMethod) (counts : Nat → Nat → Nat)
    (buffer : List Entry) : Finset (Nat × Nat) :=
  (buffer.filterMap fun e =>
    if e.imageid = 0 then none
    else ((images e.imageid).memops[e.memseq]?).bind fun b =>
      if sampler.exceedsAccessLimit (counts e.imageid b) then some (e.imageid, b)
      else none).toFinset

/-! ## Runs -/

/-- The state of the sampler, the rows and buffers of the threads, and the blocks that were hot in
a call while it sampled. -/
structure LimitState (ι τ : Type*) where
  sampling : SamplingState ι τ
  threadCount : Nat
  firstimage : Nat
  rows : τ → Nat → Option Nat
  buffers : τ → List Entry
  removed : Finset (Nat × Nat)

/-- The sections of a call, a thread that starts, and an image load. The second section has the
entries of the buffer, the third the executions of the blocks up to now. -/
inductive LimitAct (ι τ : Type*) where
  | startThread (t : τ)
  | snapshot (t : τ) (numElements : Nat)
  | process (t : τ) (buffer : List Entry)
  | finish (t : τ) (counts : Nat → Nat → Nat)
  | loadImage (t : τ) (key : Nat) (dyn : List ι)

/-- The points that go with a block. -/
def bufferTypes : List PointType := [.buffercheck, .bufferinc, .bufferfill]

section Run

variable {ι τ : Type} [DecidableEq ι] [DecidableEq τ] (images : Nat → SimulatedImage)
  (imageOf : ι → Nat)

/-- A point of the loaded images that goes with the block `b` of the image `i`; the points that
load an image have its key. -/
structure PointOf (st : SamplingState ι τ) (d : ι) (i b : Nat) : Prop where
  loaded : d ∈ st.points.selected {(st.points.insts d).key}
  noImage : (st.points.insts d).key ∉ st.images
  image : imageOf d = i
  key : ∃ typ ∈ bufferTypes, (st.points.insts d).key = generateKey b typ

/-- The points of a new image: all are its own, and a block that has any has one that fills. -/
def ownPoints (points : DynamicState ι) (key : Nat) (dyn : List ι) : Bool :=
  dyn.all fun d => imageOf d == key &&
    ((points.insts d).key == key ||
      bufferTypes.all (fun typ => getType (points.insts d).key != typ.number) ||
      dyn.any fun d' =>
        (points.insts d').key == generateKey (getBlockId (points.insts d).key) .bufferfill)

/-- One step. The entries of a buffer are those of loaded images or blank; a thread that starts or
loads an image is not in a call. -/
def step (st : LimitState ι τ) : LimitAct ι τ → Option (LimitState ι τ)
  | .startThread t =>
    if st.sampling.threads t = .idle then
      some { st with
        threadCount := st.threadCount + 1
        rows := Function.update st.rows t fun _ =>
          if st.sampling.images.card = 1 then some st.firstimage else none }
    else none
  | .snapshot t numElements => do
    let sampling ← st.sampling.step (.snapshot t numElements)
    some { st with sampling := sampling }
  | .process t buffer =>
    match st.sampling.threads t with
    | .read isSampling numElements =>
      if buffer.length = numElements ∧ ∀ e ∈ buffer, e.imageid = 0 ∨ e.imageid ∈ st.sampling.images
      then do
        let row ← (if isSampling then
            refresh st.sampling.images st.threadCount buffer (st.rows t)
          else some (st.rows t))
        let sampling ← st.sampling.step (.process t)
        some { st with
          sampling := sampling
          rows := Function.update st.rows t row
          buffers := Function.update st.buffers t buffer }
      else none
    | _ => none
  | .finish t counts =>
    match st.sampling.threads t with
    | .processed isSampling _ => do
      let references ← (if isSampling then references images counts (st.rows t) (st.buffers t)
        else some [])
      let sampling ← st.sampling.step (.finish t references)
      some { st with
        sampling := sampling
        removed := if isSampling then
            st.removed ∪ hot images st.sampling.sampler counts (st.buffers t)
          else st.removed }
    | _ => none
  | .loadImage t key dyn =>
    if st.sampling.threads t = .idle ∧ key ≠ 0 ∧ key ∉ st.sampling.images ∧
        ownPoints imageOf st.sampling.points key dyn then do
      let sampling ← st.sampling.step (.loadImage key dyn)
      some { st with
        sampling := sampling
        threadCount := if st.sampling.images = ∅ then 1 else st.threadCount
        firstimage := if st.sampling.images = ∅ then key else st.firstimage
        rows := if st.sampling.images = ∅ then
            Function.update st.rows t fun _ => some key
          else st.rows }
    else none

/-- Before any image is loaded. -/
def initial (sampler : SamplingMethod) (memory : ByteMemory) (insts : ι → DynamicInst) :
    LimitState ι τ where
  sampling := SamplingState.initial sampler memory insts
  threadCount := 0
  firstimage := 0
  rows _ _ := none
  buffers _ := []
  removed := ∅

/-! ## What is right -/

/-- The points of the blocks that were hot are disabled. -/
def StateRight (st : LimitState ι τ) : Prop :=
  ∀ d, ∀ x ∈ st.removed, PointOf imageOf st.sampling d x.1 x.2 →
    (st.sampling.points.insts d).isEnabled = false

open scoped Classical in
/-- The removal disables the points of the hot blocks and leaves all others as they are. -/
def StepRight (st : LimitState ι τ) : LimitAct ι τ → Prop
  | .finish t counts => ∀ numElements refs, st.sampling.threads t = .processed true numElements →
      references images counts (st.rows t) (st.buffers t) = some refs →
        ∀ d, ((st.sampling.removeMaxedOut refs).points.insts d).isEnabled =
          if ∃ x ∈ hot images st.sampling.sampler counts (st.buffers t),
              PointOf imageOf st.sampling d x.1 x.2 then false
          else (st.sampling.points.insts d).isEnabled
  | _ => True

/-- Every state and every removal of a run is right. -/
def RunRight (st : LimitState ι τ) : List (LimitAct ι τ) → Prop
  | [] => StateRight imageOf st
  | act :: acts => StateRight imageOf st ∧ StepRight images imageOf st act ∧
      ∀ next, step images imageOf st act = some next → RunRight next acts

/-! ## When it is right -/

/-- A hot block shares its number with hot blocks only, unless it was removed before, and so does a
block beyond the limit that a blank entry stands for; an image is loaded before any block was
hot, and no image has the key of a point that goes with a block. -/
def StepMeets (st : LimitState ι τ) : LimitAct ι τ → Prop
  | .finish t counts => ∀ numElements, st.sampling.threads t = .processed true numElements →
      (∀ x ∈ hot images st.sampling.sampler counts (st.buffers t), x ∉ st.removed →
        ∀ d i, PointOf imageOf st.sampling d i x.2 →
          (i, x.2) ∈ hot images st.sampling.sampler counts (st.buffers t)) ∧
      ∀ j e i b, (st.buffers t)[j]? = some e → e.imageid = 0 → st.rows t j = some i →
        (images i).memops[e.memseq]? = some b →
        st.sampling.sampler.exceedsAccessLimit (counts i b) = true →
        generateKey b .bufferfill ∈ st.sampling.nonmaxKeys →
          (i, b) ∈ hot images st.sampling.sampler counts (st.buffers t)
  | .loadImage _ key dyn => st.removed = ∅ ∧
      ∀ d, ((d ∈ dyn ∧ (st.sampling.points.insts d).key ≠ key) ∨
          (d ∈ st.sampling.points.selected {(st.sampling.points.insts d).key} ∧
            (st.sampling.points.insts d).key ∉ st.sampling.images)) →
        ∀ b, ∀ typ ∈ bufferTypes, (st.sampling.points.insts d).key = generateKey b typ →
          ∀ typ' ∈ bufferTypes, generateKey b typ' ∉ insert key st.sampling.images
  | _ => True

/-- Every step of a run meets the condition. -/
def RunMeets (st : LimitState ι τ) : List (LimitAct ι τ) → Prop
  | [] => True
  | act :: acts => StepMeets images imageOf st act ∧
      ∀ next, step images imageOf st act = some next → RunMeets next acts

end Run

end AccessLimit

end Pebil

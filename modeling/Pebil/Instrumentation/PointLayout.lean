import Pebil.Instrumentation.Bloat
import Mathlib.Data.List.SplitBy
import Mathlib.Data.List.Sort

/-!
# Laying out the points of a function (src/ElfFileInst.C:940–960, 1165–1217, src/Function.C:160–184, src/Instrumentation.C:166–199)

The points of a function are sorted, each block is bloated with its own, and the blocks are
placed one behind the other. Then `computeInstrumentationOffsets` goes over the points again
and computes, from the number of bytes that each of them takes, how far its code is from its
instruction.
-/

namespace Pebil

/-- `InstrumentationModes`; for an inlined snippet, the bytes of its instructions with the
state protection. -/
inductive InstrumentationMode where
  | inline (snippetSize : Nat)
  | trampinline
  | tramp
  deriving DecidableEq, Repr

/-- `Size__uncond_jump`. -/
def uncondJumpSize : Nat := 5

/-- An instrumentation point. Its source object is an instruction, the one with a number in a
block of the function. -/
structure FunctionPoint where
  block : Nat
  index : Nat
  instLocation : InstLocation
  priority : Nat
  instrumentationMode : InstrumentationMode
  deriving DecidableEq, Repr

namespace FunctionPoint

/-- `numberOfBytes`, as `insertStateProtection` leaves it. -/
def numberOfBytes (p : FunctionPoint) : Nat :=
  match p.instrumentationMode with
  | .inline snippetSize => snippetSize
  | _ => uncondJumpSize

/-- `bytesreq` in `computeInstrumentationOffsets`. -/
def bytesreq (p : FunctionPoint) : Nat :=
  match p.instrumentationMode with
  | .inline _ => p.numberOfBytes
  | _ => uncondJumpSize

/-- The point as `bloat` sees it. -/
def expansion (p : FunctionPoint) : ExpansionPoint :=
  ⟨p.index, p.instLocation, p.numberOfBytes⟩

end FunctionPoint

/-- The values of `InstLocations`. -/
def InstLocation.code : InstLocation → Nat
  | .prior => 1
  | .after => 2
  | .replace => 3

/-- A block of a function: code, or bytes that were not disassembled. -/
inductive FunctionBlock (ℓ : Type*) where
  | basic (instructions : List (ProgramInstruction ℓ))
  | raw (rawBytes : List (BitVec 8))
  deriving DecidableEq, Repr

def FunctionBlock.numberOfBytes {ℓ : Type*} : FunctionBlock ℓ → Nat
  | .basic instructions => (instructions.map ProgramInstruction.sizeInBytes).sum
  | .raw rawBytes => rawBytes.length

/-- The instructions of a block; a raw one has none. -/
def FunctionBlock.instructions {ℓ : Type*} : FunctionBlock ℓ → List (ProgramInstruction ℓ)
  | .basic instructions => instructions
  | .raw _ => []

/-- A block at its place in the function. -/
inductive PlacedBlock (ℓ : Type*) where
  | basic (baseAddress : BitVec 64) (instructions : List (BlockInstruction ℓ))
  | raw (baseAddress : BitVec 64) (rawBytes : List (BitVec 8))
  deriving DecidableEq, Repr

def PlacedBlock.numberOfBytes {ℓ : Type*} : PlacedBlock ℓ → Nat
  | .basic _ instructions => (instructions.map fun c => c.code.sizeInBytes).sum
  | .raw _ rawBytes => rawBytes.length

section Function

variable {ℓ : Type*}

/-- The address of the instruction of a point, before the function is moved. -/
def getInstBaseAddress (programAddress : BitVec 64) (blocks : List (FunctionBlock ℓ))
    (p : FunctionPoint) : BitVec 64 :=
  programAddress + BitVec.ofNat 64 (((blocks.take p.block).map FunctionBlock.numberOfBytes).sum +
    instructionOffset (blocks.getD p.block (.raw [])).instructions p.index)

/-- `compareInstBaseAddress`. Two instructions of a function have different addresses, so
that the comparison of the source objects, which comes after that of the addresses, does not
decide. -/
def compareInstBaseAddress (programAddress : BitVec 64) (blocks : List (FunctionBlock ℓ))
    (p q : FunctionPoint) : Int :=
  let pAddress := getInstBaseAddress programAddress blocks p
  let qAddress := getInstBaseAddress programAddress blocks q
  if pAddress < qAddress then -1
  else if qAddress < pAddress then 1
  else if p.instLocation.code < q.instLocation.code then -1
  else if q.instLocation.code < p.instLocation.code then 1
  else if p.priority < q.priority then -1
  else if q.priority < p.priority then 1
  else 0

/-- `instrumentationPoints.sort`. -/
def sortPoints (programAddress : BitVec 64) (blocks : List (FunctionBlock ℓ))
    (instrumentationPoints : List FunctionPoint) : List FunctionPoint :=
  instrumentationPoints.mergeSort fun p q =>
    decide (compareInstBaseAddress programAddress blocks p q ≤ 0)

/-- The points for each of the basic blocks, from the block with the number `k` on. -/
def instPointsPerBlock (instrumentationPoints : List FunctionPoint) :
    Nat → List (FunctionBlock ℓ) → List (List ExpansionPoint)
  | _, [] => []
  | k, .basic _ :: blocks =>
    (instrumentationPoints.filter (·.block == k)).map FunctionPoint.expansion ::
      instPointsPerBlock instrumentationPoints (k + 1) blocks
  | k, .raw _ :: blocks => instPointsPerBlock instrumentationPoints (k + 1) blocks

/-- The loop of `bloatBasicBlocks`, for a function at an address; none where an assertion
fails. A block is `oldByte` bytes from that address before it is placed anew. -/
def bloatBasicBlocks (u : Disassembler) (baseAddress : BitVec 64) :
    Nat → Nat → List (FunctionBlock ℓ) → List (List ExpansionPoint) →
      Option (List (PlacedBlock ℓ))
  | _, _, [], [] => some []
  | _, _, [], _ :: _ => none
  | oldByte, currByte, .raw rawBytes :: blocks, instPoints => do
    let behind ← bloatBasicBlocks u baseAddress (oldByte + rawBytes.length)
      (currByte + rawBytes.length) blocks instPoints
    some (.raw (baseAddress + BitVec.ofNat 64 currByte) rawBytes :: behind)
  | _, _, .basic _ :: _, [] => none
  | oldByte, currByte, .basic instructions :: blocks, points :: instPoints => do
    let bloated ← bloat u (baseAddress + BitVec.ofNat 64 oldByte) instructions points
    let placed := setBaseAddress (baseAddress + BitVec.ofNat 64 currByte) (bloated.map (·.code))
    let behind ← bloatBasicBlocks u baseAddress
      (oldByte + (instructions.map ProgramInstruction.sizeInBytes).sum)
      (currByte + (placed.map fun c => c.code.sizeInBytes).sum) blocks instPoints
    some (.basic (baseAddress + BitVec.ofNat 64 currByte) placed :: behind)

/-- The source object of a point in the blocks that have been placed: the instructions of the
program are still in their order. -/
def getSourceObject (blocks : List (PlacedBlock ℓ)) (p : FunctionPoint) :
    Option (BlockInstruction ℓ) :=
  match blocks[p.block]? with
  | some (.basic _ instructions) => (instructions.filter (·.code.isLeft))[p.index]?
  | _ => none

/-- The offsets of the prior points of an instruction, computed from the last to the first. -/
def priorOffsets : List FunctionPoint → List (FunctionPoint × BitVec 32)
  | [] => []
  | p :: priorpt =>
    let rest := priorOffsets priorpt
    let currentOffset := match rest with
      | [] => 0
      | (_, offset) :: _ => offset
    (p, currentOffset - BitVec.ofNat 32 p.bytesreq) :: rest

/-- The offsets of the points behind an instruction. -/
def afterOffsets : BitVec 32 → List FunctionPoint → List (FunctionPoint × BitVec 32)
  | _, [] => []
  | currentOffset, p :: afterpt =>
    (p, currentOffset) :: afterOffsets (currentOffset + BitVec.ofNat 32 p.bytesreq) afterpt

/-- The offsets of the points on one instruction; none if it is replaced twice. -/
def objectOffsets (sizeInBytes : Nat) (points : List FunctionPoint) :
    Option (List (FunctionPoint × BitVec 32)) :=
  let priorpt := points.filter (·.instLocation == .prior)
  let afterpt := points.filter (·.instLocation == .after)
  let replacept := points.filter (·.instLocation == .replace)
  if replacept.length < 2 then
    some (priorOffsets priorpt ++ afterOffsets (BitVec.ofNat 32 sizeInBytes) afterpt ++
      replacept.map fun p => (p, 0))
  else none

/-- The test whether two points have the same source object. -/
def FunctionPoint.sameObject (p q : FunctionPoint) : Bool :=
  p.block == q.block && p.index == q.index

/-- An offset as `getInstSourceAddress` adds it. -/
def getInstSourceAddress (source : BlockInstruction ℓ) (offset : BitVec 32) : BitVec 64 :=
  source.baseAddress + offset.signExtend 64

/-- A point and the address of its code. -/
structure InstrumentationRoom where
  point : FunctionPoint
  address : BitVec 64
  deriving DecidableEq, Repr

/-- The rooms of the points on one instruction. -/
def objectRooms (blocks : List (PlacedBlock ℓ)) (points : List FunctionPoint) :
    Option (List InstrumentationRoom) :=
  match points with
  | [] => some []
  | p :: _ =>
    (getSourceObject blocks p).bind fun source =>
      (objectOffsets source.code.sizeInBytes points).map fun offsets =>
        offsets.map fun (p, offset) => ⟨p, getInstSourceAddress source offset⟩

/-- `computeInstrumentationOffsets`, with the address that each offset stands for; none where
an assertion fails. -/
def computeInstrumentationOffsets (blocks : List (PlacedBlock ℓ))
    (instrumentationPoints : List FunctionPoint) : Option (List InstrumentationRoom) := do
  let rooms ← (instrumentationPoints.splitBy FunctionPoint.sameObject).mapM (objectRooms blocks)
  some rooms.flatten

end Function

end Pebil

import Pebil.Isa.Lea
import Pebil.Isa.Instruction
import Pebil.Instrumentation.Protection

/-!
# Filling the buffer (tools/CacheSimulation.C:490–570)

The snippet that the cache simulation puts in front of a memory instruction: how it
chooses its scratch registers (`scratchRegs`), the instructions it is made of
(`bufferFill`), among them those that compute the address
(`emitAddressComputation`, src/X86InstructionFactory.C:424–477), and what they do.
A failed assertion of the tool is `none`.
-/

namespace Pebil

/-! ## Memory instructions -/

/-- `isStackPush` and `isStackPop`. -/
inductive StackAccess where
  | push
  | pop
  deriving DecidableEq, Repr

/-- What is decoded of an instruction beyond its registers: its segment prefix, the
address and the operand size in bits, the scales of its operands, and whether it only
names an address (`IS_LOADADDR`, `IS_PREFETCH`) or is a push or a pop. -/
structure MemoryFields extends X86Instruction where
  pfxSeg : Option (Fin 6)
  adrMode : Nat
  oprMode : Nat
  scale : Fin 4 → Nat
  namesAddress : Bool
  stackAccess : Option StackAccess
  programAddress : BitVec 64

/-- `UD_R_RIP`. -/
def udRip : Nat := udRYmm15 + 1

/-- `getMemoryOperand` of an explicit memory operation, and `none` for another one. -/
def MemoryFields.explicitOperand (x : MemoryFields) : Option MemoryOperand :=
  if x.namesAddress || x.itype == .nop then none
  else (List.finRange 4).findSome? fun i => (x.operands i).bind fun op =>
    if op.type = .mem then some ⟨op.base, op.index, x.scale i, op.value⟩ else none

/-- No register, or one from `lo` to `hi`. -/
def isAddressReg (lo hi reg : Nat) : Prop := reg = 0 ∨ lo ≤ reg ∧ reg ≤ hi

/-- The operands that `decode_modrm` makes in 64-bit mode with an address size of 64 or
32 bits. RSP is no index, and without index there is no scale. -/
structure MemoryOperand.Decoded (adrMode : Nat) (op : MemoryOperand) : Prop where
  mode : adrMode = 64 ∨ adrMode = 32
  wide : adrMode = 64 → (isAddressReg udRRax udRR15 op.base ∨ op.base = udRip) ∧
    isAddressReg udRRax udRR15 op.index
  narrow : adrMode = 32 → isAddressReg udREax udRR15d op.base ∧
    isAddressReg udREax udRR15d op.index
  index : op.index ≠ udRRax + 4
  scale : op.scale ∈ [0, 2, 4, 8]
  noScale : op.index = 0 → op.scale = 0

/-- A memory instruction: it has an explicit memory operand, or it pushes or pops. -/
structure MemoryInstruction extends MemoryFields where
  isMemoryOperation : toMemoryFields.explicitOperand.isSome ∨ stackAccess.isSome
  decoded : ∀ op, toMemoryFields.explicitOperand = some op → op.Decoded adrMode

/-! ## What it accesses -/

/-- The segment registers ES, CS, SS, DS, FS, GS: their selectors and bases. -/
structure Segments where
  selector : Fin 6 → BitVec 16
  base : Fin 6 → BitVec 64

/-- The base of a segment: in 64-bit mode only FS and GS have one. -/
def Segments.linearBase (g : Segments) : Option (Fin 6) → BitVec 64
  | some seg => if seg = 4 ∨ seg = 5 then g.base seg else 0
  | none => 0

/-- The register an address is computed from, by its 64-bit or its 32-bit name. -/
def addressReg (gpr : Fin 16 → BitVec 64) (reg : Nat) : BitVec 64 :=
  if is32BitGpr reg then regValue gpr (udRRax + (reg - udREax)) else regValue gpr reg

namespace MemoryInstruction

variable (m : MemoryInstruction)

/-- The bytes a push or a pop moves. -/
def stackBytes : BitVec 64 := if m.oprMode = 16 then 2 else 8

/-- The offset that the processor computes for an operand. `loadOffset` is where the image
is loaded, relative to where it was linked. A pop has already moved the stack pointer. -/
def offset (loadOffset : BitVec 64) (s : Machine) (op : MemoryOperand) : BitVec 64 :=
  if op.base = udRip then
    loadOffset + m.programAddress + m.sizeInBytes + op.value
  else
    let gpr :=
      if m.stackAccess = some .pop then Function.update s.gpr x86RegSp (s.sp + m.stackBytes)
      else s.gpr
    addressReg gpr op.base + addressReg gpr op.index * BitVec.ofNat 64 (max op.scale 1) + op.value

/-- The linear address that the instruction accesses: that of its memory operand, or of
the word it pushes or pops. -/
def linearAddress (loadOffset : BitVec 64) (g : Segments) (s : Machine) : BitVec 64 :=
  match m.explicitOperand with
  | some op =>
    let offset := m.offset loadOffset s op
    g.linearBase m.pfxSeg +
      if m.adrMode = 32 then (offset.setWidth 32).setWidth 64 else offset
  | none => if m.stackAccess = some .push then s.sp - m.stackBytes else s.sp

end MemoryInstruction

/-! ## The emitted instructions -/

/-- The instructions that the snippet is made of, by the function that emits each. The
addresses are those of the linked instrumentation data. -/
inductive FillInsn where
  | moveThreadIdToReg (dest : Fin 16)
  | shiftRightLogical (imm : Nat) (reg : Fin 16)
  | shiftLeftLogical (imm : Nat) (reg : Fin 16)
  | immAndReg (imm : BitVec 32) (dest : Fin 16)
  | loadRipImmReg (addr : BitVec 64) (dest : Fin 16)
  | moveRegaddrImmToReg (src : Fin 16) (imm : BitVec 32) (dest : Fin 16)
  | moveImmToReg (imm : BitVec 32) (dest : Fin 16)
  | moveImm64ToReg (imm : BitVec 64) (dest : Fin 16)
  | moveSegmentRegToReg (seg : Fin 6) (dest : Fin 16)
  | loadEffectiveAddress (bytes : List Nat)
  | moveRegToRegaddrImm (src dest : Fin 16) (imm : BitVec 32)
  deriving DecidableEq, Repr

/-- What one of them does; the flags, which none of them reads, are left out. -/
def FillInsn.exec (g : Segments) (s : Machine) : FillInsn → Machine
  | moveThreadIdToReg dest => s.setGpr dest (s.mem.read (g.base 4 + 0x10))
  | shiftRightLogical imm reg => s.setGpr reg (s.gpr reg >>> imm)
  | shiftLeftLogical imm reg => s.setGpr reg (s.gpr reg <<< imm)
  | immAndReg imm dest => s.setGpr dest (s.gpr dest &&& imm.signExtend 64)
  | loadRipImmReg addr dest => s.setGpr dest addr
  | moveRegaddrImmToReg src imm dest =>
    s.setGpr dest (s.mem.read (s.gpr src + imm.signExtend 64))
  | moveImmToReg imm dest => s.setGpr dest (imm.signExtend 64)
  | moveImm64ToReg imm dest => s.setGpr dest imm
  | moveSegmentRegToReg seg dest => s.setGpr dest ((g.selector seg).setWidth 64)
  | loadEffectiveAddress bytes =>
    match decodeLea bytes with
    | some (dest, op) =>
      if h : dest < 16 then s.setGpr ⟨dest, h⟩ (op.effectiveAddress s.gpr) else s
    | none => s
  | moveRegToRegaddrImm src dest imm =>
    { s with mem := s.mem.write (s.gpr dest + imm.signExtend 64) (s.gpr src) }

/-- Run the instructions of a snippet. -/
def runFill (g : Segments) (insns : List FillInsn) (s : Machine) : Machine :=
  insns.foldl (FillInsn.exec g) s

/-- `X86InstructionFactory64::emitMoveImmToReg`: the value has to fit into 32 bits without
a sign, and the instruction extends it with one. -/
def emitMoveImmToReg (imm : BitVec 64) (idx : Fin 16) : Option FillInsn :=
  if imm.toNat < 2 ^ 32 then some (.moveImmToReg (imm.setWidth 32) idx) else none

/-- `base - UD_R_RAX`, where the assertions admit it. -/
def leaReg (reg : Nat) : Option (Fin 16) :=
  if h : udRRax ≤ reg ∧ reg ≤ udRR15 then
    some ⟨reg - udRRax, gprIndex_lt h⟩
  else none

/-- The register number of an operand field; 0 unless it has one. -/
def operandReg (reg : Nat) : Option (Fin 16) := if reg = 0 then some 0 else leaReg reg

/-- `emitLoadEffectiveAddress` of an operand, with the assertion that the emitted
instruction has the same operand. -/
def emitLoadEffectiveAddressOf (op : MemoryOperand) (dest : Fin 16) : Option FillInsn := do
  let baseReg ← operandReg op.base
  let indexReg ← operandReg op.index
  let scale := if op.scale = 0 then 1 else op.scale
  let bytes := emitLoadEffectiveAddress baseReg indexReg scale op.value dest (op.base != 0)
    (op.index != 0)
  let (_, emitted) ← decodeLea bytes
  if op.isSameOperand emitted then some (.loadEffectiveAddress bytes) else none

/-- `emitAddressComputation`; the offset of an operand with a segment prefix is ignored. -/
def emitAddressComputation (m : MemoryInstruction) (dest : Fin 16) : Option FillInsn :=
  match m.explicitOperand with
  | some op =>
    match m.pfxSeg with
    | some seg => some (.moveSegmentRegToReg seg dest)
    | none =>
      if op.base = udRip then
        emitMoveImmToReg (m.programAddress + op.value + m.sizeInBytes) dest
      else emitLoadEffectiveAddressOf op dest
  | none =>
    match m.stackAccess with
    | some .push =>
      some (.loadEffectiveAddress (emitLoadEffectiveAddress x86RegSp 0 1 (-8) dest true false))
    | some .pop =>
      some (.loadEffectiveAddress (emitLoadEffectiveAddress x86RegSp 0 1 0 dest true false))
    | none => none

/-! ## The scratch registers -/

/-- `X86Instruction::getUnusableRegisters`. The counter of the loop over the source
operands is not initialised; `start` is what it happens to be. -/
def X86Instruction.getUnusableRegisters (x : X86Instruction) (start : Nat) : RegisterSet :=
  let retval := RegisterSet.empty.addFlagsWhere x.usesFlag
  let retval :=
    if x.itype == .syscall || x.itype == .call then retval
    else retval.addRegistersWhere x.implicitlyUsesReg
  let retval := (x.getSourceOperands.drop start).foldl RegisterSet.addBaseIndex retval
  match x.getDestOperand with
  | some dest => retval.addDestination dest
  | none => retval

/-- The second loop of `getDeadRegIn`, over the registers that are left: any register that
is not invalid is added until there are `cnt`. -/
def fillDead (invalidRegs : Nat → Bool) (cnt : Nat) : List Nat → List Nat → List Nat
  | [], dead => dead
  | i :: regs, dead =>
    if cnt ≤ dead.length then dead
    else if invalidRegs i || i ∈ dead then fillDead invalidRegs cnt regs dead
    else fillDead invalidRegs cnt regs (dead ++ [i])

/-- `X86Instruction::getDeadRegIn`: dead registers first. -/
def getDeadRegIn (liveIns : Option RegisterSet) (invalidRegs : Nat → Bool) (cnt : Nat) :
    Option (List Nat) :=
  let dead := (List.range x86AluRegs).filter fun i =>
    !invalidRegs i && InstrumentationPoint.isRegDead liveIns i
  let dead := fillDead invalidRegs cnt (List.range x86AluRegs) dead
  if cnt ≤ dead.length then some dead else none

/-- The scratch registers; `none` is `X86_REG_INVALID`. -/
structure ScratchPick where
  sr1 : Option (Fin 16)
  sr2 : Option (Fin 16)
  sr3 : Option (Fin 16)

/-- One step of the loop that hands out the dead registers. -/
def ScratchPick.give (p : ScratchPick) (k : Fin 16) : ScratchPick :=
  if p.sr1 = none then { p with sr1 := some k }
  else if p.sr2 = none then { p with sr2 := some k }
  else if p.sr3 = none then { p with sr3 := some k }
  else p

structure ScratchRegs where
  sr1 : Fin 16
  sr2 : Fin 16
  sr3 : Fin 16
  deriving DecidableEq, Repr

/-! ## The snippet -/

/-- What the snippet of position-independent code is made with: the register that holds
the address of the thread's data throughout the function, if there is one, the address of
the table these addresses are in, and where the image is loaded. -/
structure PicData where
  threadReg : Option (Fin 16)
  threadHash : BitVec 64
  loadOffset : BitVec 64
  userSpace : threadHash.toNat < 2 ^ 47 ∧ loadOffset.toNat < 2 ^ 47
  threadReg_ne : threadReg ≠ some x86RegSp

/-- `usePIC`: without it the address of the buffer is known. -/
inductive Addressing where
  | absolute (bufferAddress : BitVec 64)
  | pic (p : PicData)

/-- What else goes into a snippet. -/
structure FillConfig where
  addressing : Addressing
  liveIns : Option RegisterSet
  /-- The initial counter in `getUnusableRegisters`. -/
  start : Nat
  memopSeq : BitVec 32
  memopIdInBlock : BitVec 32
  numberOfMemoryOps : BitVec 32
  imageHash : BitVec 64

namespace FillConfig

variable (c : FillConfig)

def threadReg : Option (Fin 16) :=
  match c.addressing with
  | .absolute _ => none
  | .pic p => p.threadReg

def loadOffset : BitVec 64 :=
  match c.addressing with
  | .absolute _ => 0
  | .pic p => p.loadOffset

/-- `inv`: RAX, RSP, the thread register, what the instruction uses, and all that are no
general purpose registers. -/
def invalid (m : MemoryInstruction) (k : Nat) : Bool :=
  k == x86RegAx || k == x86RegSp || c.threadReg.any (fun r => k == r.val) ||
    (m.getUnusableRegisters c.start).containsRegister k || 16 ≤ k

/-- The scratch registers. -/
def scratchRegs (m : MemoryInstruction) : Option ScratchRegs := do
  let dead ← getDeadRegIn c.liveIns (c.invalid m) 3
  let picked := ((List.finRange 16).filter fun k => k.val ∈ dead).foldl ScratchPick.give
    ⟨c.threadReg, none, none⟩
  match picked with
  | ⟨some sr1, some sr2, some sr3⟩ => some ⟨sr1, sr2, sr3⟩
  | _ => none

/-- `storeThreadData`: load the address of the thread's data. -/
def storeThreadData (threadHash : BitVec 64) (scratch dest : Fin 16) : List FillInsn :=
  [.moveThreadIdToReg dest, .shiftRightLogical 12 dest, .immAndReg 0xffff dest,
    .loadRipImmReg threadHash scratch, .shiftLeftLogical 4 dest,
    .loadEffectiveAddress (emitLoadEffectiveAddress scratch dest 0 0x08 dest true true),
    .moveRegaddrImmToReg dest 0 dest]

/-- `bufferIdx`, as it is multiplied by `sizeof(BufferEntry)`. -/
def bufferOffset : BitVec 64 :=
  32 * ((1 + c.memopIdInBlock - c.numberOfMemoryOps : BitVec 32).setWidth 64)

/-- Load the address of the buffer into `sr2`. -/
def loadBuffer (sr : ScratchRegs) : Option (List FillInsn) :=
  match c.addressing with
  | .absolute bufferAddress => (emitMoveImmToReg bufferAddress sr.sr2).map ([·])
  | .pic p =>
    some ((if p.threadReg = none then storeThreadData p.threadHash sr.sr2 sr.sr1 else []) ++
      [.moveRegaddrImmToReg sr.sr1 0 sr.sr2])

/-- From the buffer to this instruction's entry, which `sr2` then holds. -/
def findEntry (sr : ScratchRegs) : List FillInsn :=
  [.moveRegaddrImmToReg sr.sr2 0 sr.sr3, .shiftLeftLogical 5 sr.sr3,
    .loadEffectiveAddress
      (emitLoadEffectiveAddress sr.sr2 sr.sr3 1 c.bufferOffset sr.sr2 true true)]

/-- Put the elements of the entry into place; `sr3` holds the address at first. -/
def storeEntry (sr : ScratchRegs) : List FillInsn :=
  [.moveRegToRegaddrImm sr.sr3 sr.sr2 0,
    .moveImmToReg c.memopSeq sr.sr3, .moveRegToRegaddrImm sr.sr3 sr.sr2 8,
    .moveImm64ToReg c.imageHash sr.sr3, .moveRegToRegaddrImm sr.sr3 sr.sr2 16,
    .moveThreadIdToReg sr.sr3, .moveRegToRegaddrImm sr.sr3 sr.sr2 24]

/-- The snippet in front of a memory instruction. -/
def bufferFill (m : MemoryInstruction) (sr : ScratchRegs) : Option (List FillInsn) := do
  let buffer ← c.loadBuffer sr
  let address ← emitAddressComputation m sr.sr3
  return buffer ++ c.findEntry sr ++ [address] ++ c.storeEntry sr

end FillConfig

/-- `BufferEntry.address` of the entry that a snippet has filled. -/
def recordedAddress (sr : ScratchRegs) (s : Machine) : BitVec 64 :=
  s.mem.read (s.gpr sr.sr2)

end Pebil

import Pebil.Instrumentation.BlockCounter
import Pebil.Isa.AddressAnchor
import Pebil.Isa.Execute

/-!
# The counter snippet (src/InstrumentationTool.C:415–583)

`insertInlinedTripCounter` adds a step to a counter of 64 bits, or subtracts it, with the bytes of
one `add` to memory. Where the counter is not at a known address, instructions in front of it
compute the address into a scratch register.

The `add` behind a register has an operand of 32 bits, so that a carry is lost; the one at an
address has 64, but its immediate is extended with a sign, as are the displacements of both.
`TripCounter.Meets` says when none of this matters.
-/

namespace Pebil

open X86InstructionFactory64

/-- An instruction of the snippet, and the address that its operand is anchored to. -/
structure SnippetInsn where
  bytes : List Nat
  link : Option (BitVec 64)
  deriving DecidableEq, Repr

namespace SnippetInsn

def emit (bytes : List Nat) : SnippetInsn := ⟨bytes, none⟩

/-- `linkInstructionToData`, with an address. -/
def linkInstructionToData (bytes : List Nat) (addr : BitVec 64) : SnippetInsn := ⟨bytes, some addr⟩

/-- The operands of the `lea` that is anchored: a register, and a displacement from RIP in the
bytes from 3 on. -/
def ripOperands (i : Fin 4) : Option EncodedOperand :=
  if i = 1 then some ⟨⟨.mem, Register.rip.ud, 0, 0⟩, 4, 3⟩ else none

/-- The anchor of an instruction at `address`. -/
def anchor (i : SnippetInsn) (address link : BitVec 64) : AddressAnchor where
  link := link
  linkedParent := .instruction address (BitVec.ofNat 32 i.bytes.length) ripOperands
  imm := false

/-- The bytes in the output file: `AddressAnchor::dump` has overwritten the displacement. -/
def dump (i : SnippetInsn) (address : BitVec 64) : List Nat :=
  match i.link with
  | none => i.bytes
  | some link => i.bytes.take 3 ++ bytes32 (i.anchor address link).getLinkValue

end SnippetInsn

/-- The instructions of a snippet that begins at `address`. -/
def dumpSnippet : BitVec 64 → List SnippetInsn → List (List Nat)
  | _, [] => []
  | address, i :: snip =>
    i.dump address :: dumpSnippet (address + BitVec.ofNat 64 i.bytes.length) snip

/-- A call of `insertInlinedTripCounter` for a 64-bit image, with the scratch registers it chose,
where the snippet is in the file, and where the image is loaded relative to where it was linked.
An executable is loaded there. -/
structure TripCounter where
  tool : CounterTool
  instDataAddress : BitVec 64
  counterOffset : BitVec 64
  threadHash : BitVec 64
  threadReg : Option (Fin 16)
  add : Bool
  val : BitVec 32
  sr1 : Fin 16
  sr2 : Fin 16
  address : BitVec 64
  loadOffset : BitVec 64
  fixed : tool.isExecutable = true → loadOffset = 0

namespace TripCounter

open SnippetInsn

variable (c : TripCounter)

/-! ## The snippet -/

/-- `storeThreadData(scratch, dest)`. -/
def storeThreadData (scratch dest : Fin 16) : Option (List SnippetInsn) :=
  if scratch ≠ dest then
    some [emit (emitMoveThreadIdToReg dest),
      emit (emitShiftRightLogical 12 dest),
      emit (emitImmAndReg 0xffff dest),
      linkInstructionToData (emitLoadRipImmReg 0 scratch) (c.instDataAddress + c.threadHash),
      emit (emitShiftLeftLogical 4 dest),
      emit (Pebil.emitLoadEffectiveAddress scratch dest 0 0x08 dest true true),
      emit (emitMoveRegaddrImmToReg dest 0 dest)]
  else none

/-- What is added, `val` or `-1 * val`. -/
def step : BitVec 32 := if c.add then c.val else -1 * c.val

/-- The snippet of `insertInlinedTripCounter`. -/
def snippet : Option (List SnippetInsn) :=
  if c.sr1 ≠ x86RegSp ∧ c.sr2 ≠ x86RegSp ∧ c.sr1 ≠ x86RegAx ∧ c.sr2 ≠ x86RegAx then
    if c.tool.threaded then
      match c.threadReg with
      | none => (c.storeThreadData c.sr2 c.sr1).map fun loadThreadData => loadThreadData ++
          [emit (emitAddImmToRegaddrImm c.step c.sr1 (c.counterOffset.setWidth 32))]
      | some threadReg =>
        some [emit (emitAddImmToRegaddrImm c.step threadReg (c.counterOffset.setWidth 32))]
    else if c.tool.isExecutable then
      some [emit (emitAddImmToMem c.step (c.instDataAddress + c.counterOffset))]
    else
      some [linkInstructionToData (emitLoadRipImmReg 0 c.sr1) (c.instDataAddress + c.counterOffset),
        emit (emitAddImmToRegaddrImm c.step c.sr1 0)]
  else none

/-- Execute the snippet where it is loaded. -/
def run (p : Processor) (snip : List SnippetInsn) (s : Machine) : Option Machine :=
  runCode p (dumpSnippet c.address snip) (c.address + c.loadOffset) s

/-! ## The counter -/

/-- The place of a thread in the table: `(tid >> ThreadHashShift) & ThreadHashMod`. -/
def threadIndex (p : Processor) (s : Machine) : BitVec 64 :=
  s.mem.read (p.segmentBase 4 + 0x10) >>> 12 &&& 0xffff

/-- The member `data` of the `ThreadData` of a thread, in a table at `table`. -/
def dataAt (p : Processor) (s : Machine) (table : BitVec 64) : BitVec 64 :=
  s.mem.read (table + 16 * threadIndex p s + 8)

/-- Where the counter is when the snippet is executed. -/
def counterAddress (p : Processor) (s : Machine) : BitVec 64 :=
  if c.tool.threaded then
    match c.threadReg with
    | none => dataAt p s (c.instDataAddress + c.threadHash + c.loadOffset) + c.counterOffset
    | some threadReg => s.gpr threadReg + c.counterOffset
  else c.instDataAddress + c.counterOffset + c.loadOffset

/-- What the counter is to become. -/
def next (count : BitVec 64) : BitVec 64 :=
  if c.add then count + c.val.setWidth 64 else count - c.val.setWidth 64

/-- The snippet moves the counter by the step, and changes nothing else but its scratch registers
and the flags. It does not need the stack. -/
def Counts (p : Processor) (snip : List SnippetInsn) (s : Machine) : Prop :=
  let cell := c.counterAddress p s
  ∃ t, c.run p snip s = some t ∧ t.mem = s.mem.write cell (c.next (s.mem.read cell)) ∧
    t.vec = s.vec ∧ ∀ r, r ≠ c.sr1 → r ≠ c.sr2 → t.gpr r = s.gpr r

/-! ## When it does -/

/-- The displacement of an anchored `lea` that is `distance` bytes behind the start. -/
def displacement (distance target : BitVec 64) : BitVec 64 :=
  target - (c.address + distance + 7)

/-- The table as the `lea` of `storeThreadData` finds it, through 32 bits of its displacement. -/
def tableReached : BitVec 64 :=
  c.address + c.loadOffset + 27 +
    signExtend32 (c.displacement 20 (c.instDataAddress + c.threadHash))

/-- The operand of the `add` is the counter: what is cut to 32 bits is the same with its sign. -/
def ReachesCounter (p : Processor) (s : Machine) : Prop :=
  if c.tool.threaded then
    match c.threadReg with
    | none => dataAt p s c.tableReached + signExtend32 c.counterOffset = c.counterAddress p s
    | some _ => FitsSigned32 c.counterOffset
  else if c.tool.isExecutable then FitsSigned32 (c.instDataAddress + c.counterOffset)
  else FitsSigned32 (c.displacement 0 (c.instDataAddress + c.counterOffset))

/-- At an address, the step has no sign; behind a register, there is no carry out of the low half
of the counter. -/
def StepFits (p : Processor) (s : Machine) : Prop :=
  let low := (s.mem.read (c.counterAddress p s)).toNat % 2 ^ 32
  if c.tool.threaded = false ∧ c.tool.isExecutable = true then
    if c.add then c.val.toNat < 2 ^ 31 else c.val.toNat ≤ 2 ^ 31
  else if c.add then low + c.val.toNat < 2 ^ 32
  else c.val.toNat ≤ low

/-- There is nothing to add, or the `add` reaches the counter and its step fits. -/
def Meets (p : Processor) (s : Machine) : Prop :=
  c.val = 0 ∨ c.ReachesCounter p s ∧ c.StepFits p s

end TripCounter

end Pebil

import Pebil.Isa.Instruction
import Pebil.Isa.Machine

/-!
# State protection (src/Instrumentation.C:220–342, 915–1060, 1128–1203)

The code that is put around a snippet: which registers are saved
(`getProtectedRegs`), how the flags are saved (`getFlagsMethod`), and the sequences
that a trampoline (`generateTrampoline`) and an inline point (`insertStateProtection`)
are made of.
-/

namespace Pebil

/-- `InstLocations`. -/
inductive InstLocation where
  | prior
  | after
  | replace
  deriving DecidableEq, Repr

/-- `FlagsProtectionMethods`. -/
inductive FlagsProtectionMethod where
  | none
  | light
  | full
  deriving DecidableEq, Repr

/-- What is put at a point: a snippet, or a call of an instrumentation function. -/
structure Instrumentation where
  isSnippet : Bool
  /-- `hasSkipWrapper` of an instrumentation function. -/
  skipWrapper : Bool
  canOverflow : Bool
  coreInstructions : List X86Instruction

/-- `InstrumentationPoint`. `liveIns` and `liveOuts` are those of the instruction at the
point, if liveness was computed; `hasLeafOptimization` is its function's (no call in it)
and `isEntry` its block's. -/
structure InstrumentationPoint where
  liveIns : Option RegisterSet
  liveOuts : Option RegisterSet
  hasLeafOptimization : Bool
  isEntry : Bool
  instLocation : InstLocation
  instrumentation : Instrumentation
  precursorInstructions : List X86Instruction
  postcursorInstructions : List X86Instruction

namespace InstrumentationPoint

variable (pt : InstrumentationPoint)

/-- `isRegDeadIn` and `isRegDeadOut`: without liveness nothing is dead. -/
def isRegDead (live : Option RegisterSet) (regNum : Nat) : Bool :=
  live.any fun s => !s.containsRegister regNum

/-- `isFlagDeadIn` and `isFlagDeadOut`. -/
def isFlagDead (live : Option RegisterSet) (flagNum : Nat) : Bool :=
  live.any fun s => !s.containsFlag flagNum

/-- The live set that counts at the point's location; a replacement counts as prior. -/
def liveSet : Option RegisterSet :=
  match pt.instLocation with
  | .prior => pt.liveIns
  | .after => pt.liveOuts
  | .replace => pt.liveIns

/-- The instructions `getProtectedRegisters` and `getFlagsProtectionMethod` collect. -/
def insns : List X86Instruction :=
  pt.precursorInstructions ++
    (if pt.instrumentation.isSnippet then pt.instrumentation.coreInstructions else []) ++
    pt.postcursorInstructions

/-- `getProtectedRegs`: the registers that are live and defined. -/
def protectedRegs (regNum : Nat) : Bool :=
  !isRegDead pt.liveSet regNum &&
    pt.insns.any fun ins => ins.getRegistersDefined.containsRegister regNum

/-! ## The flags -/

/-- `X86_FLAG_OF`. -/
def x86FlagOf : Nat := 11

/-- `__flag_mask__protect_light`: CF, PF, AF, ZF, SF. -/
def protectLight (i : Nat) : Bool := i ∈ [0, 2, 4, 6, 7]

/-- `__flag_mask__protect_full`: also TF, IF, DF, OF, IOPL and NT. -/
def protectFull (i : Nat) : Bool := i ∈ [0, 2, 4, 6, 7, 8, 9, 10, 11, 12, 13, 14]

/-- The flags that some instruction defines. -/
def flagsSquashed (insert : List X86Instruction) (i : Nat) : Bool :=
  insert.any fun ins => ins.defsFlag i

/-- The loop over the flags to protect that picks the weakest method: `prot` is the
method so far, and the loop stops at the first flag that needs the full one. -/
def weakestMethod (protectBits : Nat → Bool) :
    List Nat → FlagsProtectionMethod → FlagsProtectionMethod
  | [], prot => prot
  | i :: flags, prot =>
    if protectBits i then
      if protectLight i then weakestMethod protectBits flags .light
      else if protectFull i then .full
      else weakestMethod protectBits flags prot
    else weakestMethod protectBits flags prot

/-- The flags that are live and squashed; the overflow flag does not count where the
point is told to ignore it. -/
def protectBits (i : Nat) : Bool :=
  !isFlagDead pt.liveSet i && (flagsSquashed pt.insns i &&
    !(!pt.instrumentation.canOverflow && i == x86FlagOf))

/-- `getFlagsMethod`. -/
def getFlagsMethod : FlagsProtectionMethod :=
  if pt.instLocation = .replace then .none
  else if (List.range x86FlagBits).all fun i => isFlagDead pt.liveSet i then .none
  else weakestMethod pt.protectBits (List.range x86FlagBits) .none

/-! ## The emitted sequences -/

/-- `Size__trampoline_autoinc`. -/
def trampolineAutoinc : BitVec 64 := 0x80

/-- The registers 0 to `X86_64BIT_GPRS - 1`. -/
def gprs : List (Fin 16) := List.finRange 16

/-- A sequence of instructions with the snippet's in the middle. -/
structure Emitted where
  before : List SaveInsn
  snippet : List X86Instruction
  after : List SaveInsn

/-- The save and the restore code of a protection method. -/
def saveFlags : FlagsProtectionMethod → List SaveInsn
  | .full => [.pushEflags]
  | .light => [.stackPush x86RegAx, .loadAhFromFlags]
  | .none => []

def restoreFlags : FlagsProtectionMethod → List SaveInsn
  | .full => [.popEflags]
  | .light => [.storeAhToFlags, .stackPop x86RegAx]
  | .none => []

/-- The number of registers other than the stack pointer that are saved. -/
def countProt : Nat := gprs.countP fun i => i != x86RegSp && pt.protectedRegs i

/-- `stackIsSafe` in `generateTrampoline`: an instrumentation function without wrapper
counts as safe wherever it is called. -/
def stackIsSafe : Bool :=
  (!pt.instrumentation.isSnippet && pt.instrumentation.skipWrapper) ||
    !(pt.hasLeafOptimization || pt.isEntry)

/-- `protectStack` in `generateTrampoline`. -/
def protectStack : Bool :=
  pt.getFlagsMethod != .none || !pt.stackIsSafe || 0 < pt.countProt

/-- `generateTrampoline`, up to the instructions displaced from the point. The core
instructions of a snippet stand in the trampoline, or behind the call in it. -/
def generateTrampoline : Emitted where
  before :=
    (if pt.protectStack then [.loadRegImmReg (-trampolineAutoinc)] else []) ++
      (gprs.filter fun r => pt.protectedRegs r.val).map .stackPush ++ saveFlags pt.getFlagsMethod
  snippet := pt.precursorInstructions ++ pt.instrumentation.coreInstructions ++
    pt.postcursorInstructions
  after :=
    restoreFlags pt.getFlagsMethod ++ (gprs.reverse.filter fun r => pt.protectedRegs r.val).map .stackPop ++
      (if pt.protectStack then [.loadRegImmReg trampolineAutoinc] else [])

/-- The loop of `insertStateProtection` that puts a push before the instructions so far
and a pop after them, for every saved register but the stack pointer. -/
def wrapRegs (e : Emitted) : Emitted :=
  gprs.foldl (fun e i =>
    if i != x86RegSp && pt.protectedRegs i then
      { e with before := .stackPush i :: e.before, after := e.after ++ [.stackPop i] }
    else e) e

/-- `insertStateProtection` of an inline point. -/
def insertStateProtection : Emitted :=
  let e := pt.wrapRegs ⟨[], pt.instrumentation.coreInstructions, []⟩
  let e :=
    { e with
      before := saveFlags pt.getFlagsMethod ++ e.before
      after := e.after ++ restoreFlags pt.getFlagsMethod }
  let countProt := pt.countProt + if pt.getFlagsMethod = .none then 0 else 1
  if (pt.hasLeafOptimization || pt.isEntry) && 0 < countProt then
    { e with
      before := .loadRegImmReg (-trampolineAutoinc) :: e.before
      after := e.after ++ [.loadRegImmReg trampolineAutoinc] }
  else e

end InstrumentationPoint

/-- Run a sequence of save instructions. -/
def execAll (insns : List SaveInsn) (s : Machine) : Machine :=
  insns.foldl SaveInsn.exec s

/-- Run a sequence; `body` is what its snippet does. -/
def InstrumentationPoint.Emitted.run (e : Emitted) (body : Machine → Machine) (s : Machine) :
    Machine :=
  execAll e.after (body (execAll e.before s))

end Pebil

import Pebil.Cfg.LivenessCorrect
import Pebil.Instrumentation.Protection

/-!
# The point of a block for its counter (src/BasicBlock.C:32–122)

`findBestInstPoint` numbers the places before and behind the instructions of a block, without
those at a control instruction at its end, and goes over them twice: once for the places where
all flags are dead, if that is asked for, and once for the one of these, or of all if there are
none, with the most registers that are valid and dead. The entry block of a function does not
get this place, but the one at its end: "frame setup messes up lots of stuff".
-/

namespace Pebil

open InstrumentationPoint (isRegDead isFlagDead)

/-- `X86Instruction` with its live sets. `continues` is about the processor: behind the
instruction the next one is always executed. -/
structure LiveInstruction extends X86Instruction where
  liveIns : Option RegisterSet
  liveOuts : Option RegisterSet
  continues : Bool

/-- The live set that counts at a location. -/
def LiveInstruction.liveSet (x : LiveInstruction) : InstLocation → Option RegisterSet
  | .prior => x.liveIns
  | .after => x.liveOuts
  | .replace => x.liveIns

/-- `allFlagsDeadIn` and `allFlagsDeadOut`. -/
def allFlagsDead (live : Option RegisterSet) : Bool :=
  live.any fun s => (List.range x86FlagBits).all fun i => !s.containsFlag i

/-- The same registers and flags are dead. -/
structure SameLive (s t : Option RegisterSet) : Prop where
  reg : ∀ j, isRegDead s j = isRegDead t j
  flag : ∀ i, isFlagDead s i = isFlagDead t i

/-- A place in a block: an instruction by its number, and on which side of it. -/
abbrev BlockPlace := Nat × InstLocation

/-- `BasicBlock`: only its last instruction may be a control instruction, and what is live
behind an instruction is what is live before the next one. -/
structure LiveBlock where
  instructions : List LiveInstruction
  isEntry : Bool
  nonempty : instructions ≠ []
  controlLast : ∀ x ∈ instructions.dropLast, x.isControl = false
  live : instructions.IsChain fun x y => SameLive x.liveOuts y.liveIns

/-- What `findBestInstPoint` returns: the instruction and the location, and the registers. -/
structure BestPoint (size : Nat) where
  best : Nat
  bestloc : InstLocation
  useRegs : BitSet size

/-- The place that was chosen. -/
def BestPoint.place {size : Nat} (p : BestPoint size) : BlockPlace := (p.best, p.bestloc)

namespace LiveBlock

variable (b : LiveBlock)

/-- `BasicBlock::endsWithControl`. -/
def endsWithControl : Bool := (b.instructions.getLast b.nonempty).isControl

/-- `ninsn`: a control instruction at the end does not count. -/
def ninsn : Nat :=
  if b.endsWithControl then b.instructions.length - 1 else b.instructions.length

/-- `i % 2`: even numbers are the places before an instruction, odd ones those behind it. -/
def side (i : Nat) : InstLocation := if i % 2 = 0 then .prior else .after

/-- The place with number `i`. -/
def placeAt (i : Nat) : BlockPlace := (i / 2, side i)

/-- `ASSERT(i / 2 < ninsn)`, and `getInstruction(i / 2)`. -/
def instructionAt (i : Nat) : Option LiveInstruction :=
  if i / 2 < b.ninsn then b.instructions[i / 2]? else none

/-! ## The two passes -/

/-- The variables of the pass over the flags. -/
structure FlagsPass (size : Nat) where
  flagsDead : BitSet size
  hasFlags : Bool
  best : Nat
  bestloc : InstLocation

/-- The body of the loop over the places for the flags. -/
def visitFlags (st : FlagsPass (b.ninsn * 2)) (i : Nat) : Option (FlagsPass (b.ninsn * 2)) :=
  (b.instructionAt i).map fun ins =>
    if allFlagsDead (ins.liveSet (side i)) then
      ⟨st.flagsDead.insert i, true, i / 2, side i⟩
    else st

/-- What the pass starts with. -/
def initFlags : FlagsPass (b.ninsn * 2) := ⟨BitSet.new _, false, 0, .prior⟩

/-- The pass over the flags, if they are attended to. -/
def flagsPass (attendFlags : Bool) : Option (FlagsPass (b.ninsn * 2)) :=
  if attendFlags then (List.range (b.ninsn * 2)).foldlM b.visitFlags b.initFlags
  else some b.initFlags

/-- The variables of the pass over the registers. -/
structure RegsPass where
  maxDead : Nat
  best : Nat
  bestloc : InstLocation

section

variable {size : Nat} (validRegs : BitSet size)

/-- The number of registers that are valid and dead. -/
def countDead (live : Option RegisterSet) : Nat :=
  (List.range x86AluRegs).countP fun j => validRegs.contains j && isRegDead live j

/-- The body of the loop over the places for the registers. -/
def visitRegs (attendFlags : Bool) (flags : FlagsPass (b.ninsn * 2)) (st : RegsPass) (i : Nat) :
    Option RegsPass :=
  (b.instructionAt i).map fun ins =>
    if attendFlags && flags.hasFlags && !flags.flagsDead.contains i then st
    else if st.maxDead < countDead validRegs (ins.liveSet (side i)) then
      ⟨countDead validRegs (ins.liveSet (side i)), i / 2, side i⟩
    else st

/-- The pass over the registers. -/
def regsPass (attendFlags : Bool) (flags : FlagsPass (b.ninsn * 2)) : Option RegsPass :=
  (List.range (b.ninsn * 2)).foldlM (b.visitRegs validRegs attendFlags flags)
    ⟨0, flags.best, flags.bestloc⟩

/-- The end of the block, where its counter goes if it is an entry. -/
def endPlace : BlockPlace :=
  (b.instructions.length - 1, if b.endsWithControl then .prior else .after)

/-- The registers that are valid and dead are put into `useRegs`. -/
def insertDead {k : Nat} (useRegs : BitSet k) (live : Option RegisterSet) : BitSet k :=
  (List.range x86AluRegs).foldl
    (fun u j => if isRegDead live j && validRegs.contains j then u.insert j else u) useRegs

/-- `BasicBlock::findBestInstPoint`. -/
def findBestInstPoint {k : Nat} (useRegs : BitSet k) (attendFlags : Bool) : Option (BestPoint k) :=
  (b.flagsPass attendFlags).bind fun flags =>
    (b.regsPass validRegs attendFlags flags).bind fun regs =>
      -- all function entries use the end of the block
      let place := if b.isEntry then b.endPlace else (regs.best, regs.bestloc)
      (b.instructions[place.1]?).map fun bestinsn =>
        ⟨place.1, place.2, insertDead validRegs useRegs (bestinsn.liveSet place.2)⟩

end

/-! ## Executing a block -/

/-- The places that execution of instructions, numbered from `i`, comes to. -/
def passedFrom : Nat → List LiveInstruction → List BlockPlace
  | _, [] => []
  | i, x :: xs =>
    (i, .prior) :: if x.continues then (i, .after) :: passedFrom (i + 1) xs else []

/-- The places that an execution of the block comes to. -/
def passed : List BlockPlace := passedFrom 0 b.instructions

section Execute

variable {σ : Type*} (exec : LiveInstruction → σ → σ) (inserted : BlockPlace → σ → σ)

/-- Executing instructions with what is inserted at the places between them. -/
def executeFrom : Nat → List LiveInstruction → σ → σ
  | _, [], s => s
  | i, x :: xs, s =>
    let t := exec x (inserted (i, .prior) s)
    if x.continues then executeFrom (i + 1) xs (inserted (i, .after) t) else t

/-- Executing the block with what is inserted into it. -/
def execute (s : σ) : σ := executeFrom exec inserted 0 b.instructions s

end Execute

/-- The live set at a place. -/
def liveAt (p : BlockPlace) : Option RegisterSet := (b.instructions[p.1]?).bind (·.liveSet p.2)

end LiveBlock

end Pebil

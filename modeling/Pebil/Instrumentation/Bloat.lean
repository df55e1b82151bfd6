import Pebil.Instrumentation.Protection
import Pebil.Lib.Slots

/-!
# Making room in a basic block (src/BasicBlock.C:244–307, 833–841, src/X86Instruction.C:1240–1341)

`BasicBlock::bloat` puts nops where the code of instrumentation points is to go: before the
instruction of a point or behind it, for the points from last to first, at indices that were
computed beforehand. Then it gives branches with a short displacement one of four bytes, and
computes the indices and the addresses anew.

An instruction is its bytes with what the decoder has found in them; `emitNop` is told by
the length of the nop. The decoder is a parameter of which the encodings of the two near
branches are known.
-/

namespace Pebil

/-- The operand at `JUMP_TARGET_OPERAND`: `relative` says that it is a `UD_OP_JIMM`, and
`value` is the low half of `getValue`. -/
structure TargetOperand where
  relative : Bool
  bytesUsed : Nat
  value : BitVec 32
  deriving DecidableEq, Repr

/-- What `ud_disassemble` finds. -/
structure Decoding where
  itype : X86InstructionType
  sizeInBytes : Nat
  target : Option TargetOperand
  deriving DecidableEq, Repr

/-- The bytes of a 32-bit number, as `memcpy` writes them. -/
def dwordBytes (v : BitVec 32) : List (BitVec 8) :=
  [v.setWidth 8, (v >>> 8).setWidth 8, (v >>> 16).setWidth 8, (v >>> 24).setWidth 8]

/-- The decoder, and that it knows `jmp` and the conditional jumps with a displacement of
four bytes. -/
structure Disassembler where
  disassemble : List (BitVec 8) → Option Decoding
  sized : ∀ bytes d, disassemble bytes = some d → 0 < d.sizeInBytes
  nearJump : ∀ v rest, disassemble (0xE9 :: (dwordBytes v ++ rest)) =
    some ⟨.uncondbr, 5, some ⟨true, 4, v⟩⟩
  nearCond : ∀ (cc : Fin 16) v rest,
    disassemble (0x0F :: (0x80 + BitVec.ofNat 8 cc) :: (dwordBytes v ++ rest)) =
      some ⟨.condbr, 6, some ⟨true, 4, v⟩⟩

/-- An instruction of the program. The anchor is what its target operand is linked to. -/
structure ProgramInstruction (ℓ : Type*) where
  insnBytes : List (BitVec 8)
  itype : X86InstructionType
  target : Option TargetOperand
  addressAnchor : Option ℓ
  deriving DecidableEq, Repr

namespace ProgramInstruction

variable {ℓ : Type*} (u : Disassembler) (x : ProgramInstruction ℓ)

def sizeInBytes : Nat := x.insnBytes.length

def isUnconditionalBranch : Bool := x.itype == .uncondbr

def isConditionalBranch : Bool := x.itype == .condbr

def isFunctionCall : Bool := x.itype == .call

def isReturn : Bool := x.itype == .ret

def isControl : Bool :=
  x.isConditionalBranch || x.isUnconditionalBranch || x.itype == .syscall || x.isFunctionCall ||
    x.isReturn

def bytesUsedForTarget : Nat :=
  if x.isUnconditionalBranch || x.isConditionalBranch || x.isFunctionCall then
    match x.target with
    | some op => op.bytesUsed
    | none => 0
  else 0

/-- The second decoding in `convertTo4ByteTargetOperand`, of what is in the buffer now. -/
def redisassemble (rawBytes : List (BitVec 8)) : Option (ProgramInstruction ℓ) :=
  (u.disassemble rawBytes).map fun d =>
    { x with insnBytes := rawBytes.take d.sizeInBytes, itype := d.itype, target := d.target }

/-- `convertTo4ByteTargetOperand`; none where an assertion fails. The opcode becomes that of
the long form of a `jmp` or a conditional jump of two bytes. -/
def convertTo4ByteTargetOperand : Option (ProgramInstruction ℓ) :=
  match x.target, x.insnBytes with
  | some op, opcode :: _ =>
    if x.bytesUsedForTarget = 0 ∨ 4 ≤ x.bytesUsedForTarget then some x
    else if x.isUnconditionalBranch then
      if x.sizeInBytes = 2 ∧ x.addressAnchor.isSome then
        x.redisassemble u ((opcode - 0x02) :: dwordBytes op.value)
      else none
    else if x.isConditionalBranch then
      -- a branch that is not of two bytes is only warned about
      if x.addressAnchor.isSome then
        x.redisassemble u
          (0x0F :: (opcode + 0x10) :: (dwordBytes op.value ++ x.insnBytes.drop 6))
      else none
    else some x
  | _, _ => some x

/-- The conversion in `bloat`. -/
def convertBranch : Option (ProgramInstruction ℓ) :=
  if x.isControl && !x.isReturn && decide (x.bytesUsedForTarget < 4) then
    x.convertTo4ByteTargetOperand u
  else some x

end ProgramInstruction

/-- The distance of an instruction from the start of its block. -/
def instructionOffset {ℓ : Type*} (instructions : List (ProgramInstruction ℓ)) (index : Nat) :
    Nat :=
  ((instructions.take index).map ProgramInstruction.sizeInBytes).sum

/-- What `bloat` reads of an instrumentation point; `index` is that of its source object. -/
structure ExpansionPoint where
  index : Nat
  instLocation : InstLocation
  numberOfBytes : Nat
  deriving DecidableEq, Repr

/-- The index at which the nops of a point are inserted into a block of `n` instructions; for
a replacement "send a dummy value so that no expansion happens". -/
def ExpansionPoint.expansionIndex (n : Nat) (p : ExpansionPoint) : Nat :=
  match p.instLocation with
  | .prior => p.index
  | .after => p.index + 1
  | .replace => n + 2

/-- `MAX_NOP_LENGTH`. -/
def maxNopLength : Nat := 8

/-- The lengths of the nops for some bytes, in the order in which they are inserted. -/
def nopLengths (bloatAmount : Nat) : List Nat :=
  List.replicate (bloatAmount / maxNopLength) maxNopLength ++
    if bloatAmount % maxNopLength = 0 then [] else [bloatAmount % maxNopLength]

/-- What `emitNop` emits. The code does not keep for which point this was. -/
structure Nop where
  length : Nat
  point : ExpansionPoint
  deriving DecidableEq, Repr

/-- The nops for a point, in the order in which they are inserted. -/
def ExpansionPoint.nops (p : ExpansionPoint) : List Nop :=
  (nopLengths p.numberOfBytes).map fun length => ⟨length, p⟩

/-- An instruction of a block that is being bloated: one of the program, or a nop. -/
abbrev BlockCode (ℓ : Type*) := ProgramInstruction ℓ ⊕ Nop

/-- The nops for a point, at its index. -/
def expand {ℓ : Type*} (p : ExpansionPoint) (instructionIdx : Nat)
    (instructions : List (BlockCode ℓ)) : List (BlockCode ℓ) :=
  if instructionIdx < instructions.length + 1 then
    Slots.insertAllAt instructionIdx p.nops instructions
  else instructions

/-- The nops for all points, from the last point to the first. -/
def expandAll {ℓ : Type*} (n : Nat) (instPoints : List ExpansionPoint)
    (instructions : List (BlockCode ℓ)) : List (BlockCode ℓ) :=
  instPoints.foldr (fun p l => expand p (p.expansionIndex n) l) instructions

/-- An instruction at its place in a block. -/
structure BlockInstruction (ℓ : Type*) where
  code : BlockCode ℓ
  index : Nat
  baseAddress : BitVec 64
  deriving DecidableEq, Repr

namespace BlockCode

variable {ℓ : Type*}

def sizeInBytes : BlockCode ℓ → Nat
  | .inl x => x.sizeInBytes
  | .inr nop => nop.length

def convert (u : Disassembler) : BlockCode ℓ → Option (BlockCode ℓ)
  | .inl x => (x.convertBranch u).map .inl
  | .inr nop => some (.inr nop)

end BlockCode

/-- The loop of `setBaseAddress`. -/
def placeFrom {ℓ : Type*} (index : Nat) (baseAddress : BitVec 64) :
    List (BlockCode ℓ) → List (BlockInstruction ℓ)
  | [] => []
  | c :: l => ⟨c, index, baseAddress⟩ ::
      placeFrom (index + 1) (baseAddress + BitVec.ofNat 64 c.sizeInBytes) l

/-- `setBaseAddress`. -/
def setBaseAddress {ℓ : Type*} (baseAddress : BitVec 64) (instructions : List (BlockCode ℓ)) :
    List (BlockInstruction ℓ) :=
  placeFrom 0 baseAddress instructions

/-- `bloat` of a block at an address; none where an assertion fails. -/
def bloat {ℓ : Type*} (u : Disassembler) (baseAddress : BitVec 64)
    (instructions : List (ProgramInstruction ℓ)) (instPoints : List ExpansionPoint) :
    Option (List (BlockInstruction ℓ)) := do
  let expanded := expandAll instructions.length instPoints (instructions.map .inl)
  let converted ← expanded.mapM (BlockCode.convert u)
  some (setBaseAddress baseAddress converted)

end Pebil

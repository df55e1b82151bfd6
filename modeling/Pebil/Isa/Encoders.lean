import Pebil.Isa.Decode

/-!
# Encoders (src/X86InstructionFactory.C)

The encoders of `X86InstructionFactory64`, and those of `X86InstructionFactory` that it inherits,
as far as they have a register or take an immediate or an address of 64 bits. Each one is the
bytes that it hands to `emitInstructionBase`; a register is one that passes its assertions, and
the result is `none` where another assertion fails.

The functions with `Bytes` in their names are what several encoders have in common.
-/

namespace Pebil

/-- `memcpy` of four bytes. -/
def immBytes32 (imm : BitVec 32) : List Nat := bytes32 (imm.setWidth 64)

/-- `memcpy` of eight bytes. -/
def bytes64 (value : BitVec 64) : List Nat := bytes32 value ++ bytes32 (value >>> 32)

/-- `ASSERT(imm32 == imm)`. -/
def assert32 (imm : BitVec 64) (bytes : List Nat) : Option (List Nat) :=
  if imm.toNat < 2 ^ 32 then some bytes else none

/-- The REX prefix for a register in the `reg` field and one in the `rm` field. -/
def rexByte (reg rm : Fin 16) : Nat :=
  (if reg.val < 8 then 0x48 else 0x4c) + (if rm.val < 8 then 0 else 1)

/-- Two registers. -/
def regRegBytes (opcode : Nat) (reg rm : Fin 16) : List Nat :=
  [rexByte reg rm, opcode, 0xc0 + 8 * (reg.val % 8) + rm.val % 8]

/-- A register, and in its ModRM byte the rest of the operation. -/
def regBytes (opcode modrm : Nat) (reg : Fin 16) : List Nat :=
  [if reg.val < 8 then 0x48 else 0x49, opcode, modrm + reg.val % 8]

/-- The SIB byte of RSP and R12. -/
def sibBytes (reg : Nat) : List Nat := if reg % 8 = 4 then [0x24] else []

/-- A register and memory behind a register, without a displacement unless RBP or R13 needs one. -/
def regaddrBytes (opcode : Nat) (addr reg : Fin 16) : List Nat :=
  [0x48 + (if 8 ≤ addr.val then 1 else 0) + (if 8 ≤ reg.val then 4 else 0),
    opcode,
    addr.val % 8 + 8 * (reg.val % 8) + (if addr.val % 8 = 5 then 0x40 else 0)] ++
    sibBytes addr.val ++ (if addr.val % 8 = 5 then [0x00] else [])

/-- Memory behind a register with a displacement of four bytes. -/
def regaddrImmBytes (rex opcode reg addr : Nat) (imm : BitVec 64) : List Nat :=
  [rex, opcode, 0x80 + 8 * (reg % 8) + addr % 8] ++ sibBytes addr ++ bytes32 imm

/-- Memory at an address. -/
def memBytes (opcode : Nat) (reg : Fin 16) (addr : BitVec 64) : List Nat :=
  [if reg.val < 8 then 0x48 else 0x4c, opcode, 0x04 + 8 * (reg.val % 8), 0x25] ++ bytes32 addr

namespace X86InstructionFactory

def emitCallRelative (addr tgt : BitVec 64) : Option (List Nat) :=
  if addr.toNat < 2 ^ 32 ∧ tgt.toNat < 2 ^ 32 then some (0xe8 :: bytes32 (tgt - addr - 5))
  else none

/-- Its assertions extend the low half with a sign. -/
def emitJumpRelative (addr tgt : BitVec 64) : Option (List Nat) :=
  if addr = signExtend32 addr ∧ tgt = signExtend32 tgt then
    some (0xe9 :: bytes32 (tgt - addr - 5))
  else none

def emitStackPushImm (imm : BitVec 64) : Option (List Nat) := assert32 imm (0x68 :: bytes32 imm)

/-- From SP on the register is written with 16 bits. -/
def emitMoveImmByteToReg (imm : BitVec 8) (idx : Fin 8) : List Nat :=
  if 3 < idx.val then [0x66, 0xb0 + 0x08 + idx.val, imm.toNat, 0x00]
  else [0xb0 + idx.val, imm.toNat]

def emitRegIncrement (idx : Fin 8) : List Nat := [0x40 + idx.val]

def emitAddByteToRegaddr (byt : BitVec 8) (idx : Fin 8) : List Nat :=
  [0x83, 0x00 + idx.val, byt.toNat]

/-- `X86_SEGREG_CS` fails the assertion of all four. -/
def assertSegmentReg (idx : Fin 6) (bytes : List Nat) : Option (List Nat) :=
  if idx.val ≠ 1 then some bytes else none

def emitMoveRipImmToSegmentReg (imm : BitVec 64) (idx : Fin 6) : Option (List Nat) :=
  assertSegmentReg idx ([0x8e, 0x05 + 8 * idx.val] ++ bytes32 imm) >>= assert32 imm

def emitMoveImmToSegmentReg (imm : BitVec 64) (idx : Fin 6) : Option (List Nat) :=
  assertSegmentReg idx ([0x8e, 0x04 + 8 * idx.val, 0x25] ++ bytes32 imm) >>= assert32 imm

def emitPushSegmentReg (idx : Fin 6) : Option (List Nat) :=
  assertSegmentReg idx
    (if idx.val = 4 ∨ idx.val = 5 then [0x0f, 0x80 + idx.val] else [0x06 + 8 * idx.val])

def emitPopSegmentReg (idx : Fin 6) : Option (List Nat) :=
  assertSegmentReg idx
    (if idx.val = 4 ∨ idx.val = 5 then [0x0f, 0x81 + idx.val] else [0x07 + 8 * idx.val])

/-- `emitNop(1)`. -/
def emitNop : List Nat := [0x90]

end X86InstructionFactory

namespace X86InstructionFactory64

/-- RBP and R13 as `dest` have no displacement here. -/
def emitExchangeAdd (src dest : Fin 16) (lock : Bool) : List Nat :=
  (if lock then [0xf0] else []) ++
    [0x48 + (if 8 ≤ src.val then 0x04 else 0) + (if 8 ≤ dest.val then 0x01 else 0),
      0x0f, 0xc1,
      0x00 + dest.val % 8 + 8 * (src.val % 8)] ++ sibBytes dest.val

/-- What `emitAddImmToRegaddrImm` and `emitAddImmByteToRegaddrImm` have in common. -/
def addToRegaddrImmBytes (opcode : Nat) (reg : Fin 16) (imm : BitVec 32) : List Nat :=
  (if 8 ≤ reg.val then [0x41] else []) ++ [opcode, 0x80 + reg.val % 8] ++ sibBytes reg.val ++
    immBytes32 imm

def emitAddImmToRegaddrImm (b : BitVec 32) (reg : Fin 16) (imm : BitVec 32) : List Nat :=
  addToRegaddrImmBytes 0x81 reg imm ++ immBytes32 b

def emitAddImmByteToRegaddrImm (byte : BitVec 8) (reg : Fin 16) (imm : BitVec 32) : List Nat :=
  addToRegaddrImmBytes 0x83 reg imm ++ [byte.toNat]

def emitImmAndReg (imm : BitVec 32) (dest : Fin 16) : List Nat :=
  regBytes 0x81 0xe0 dest ++ immBytes32 imm

def emitImmOrReg (imm : BitVec 32) (dest : Fin 16) : List Nat :=
  regBytes 0x81 0xc8 dest ++ immBytes32 imm

def emitMoveTLSOffsetToReg (imm : BitVec 32) (dest : Fin 16) : List Nat :=
  0x64 :: memBytes 0x8b dest (imm.setWidth 64)

def emitMoveThreadIdToReg (dest : Fin 16) : List Nat := emitMoveTLSOffsetToReg 0x10 dest

/-- What `emitFxSaveReg` and `emitFxRstorReg` have in common. -/
def fxBytes (modrm : Nat) (reg : Fin 16) : List Nat :=
  (if 8 ≤ reg.val then [0x41] else []) ++ [0x0f, 0xae, modrm + reg.val % 8] ++ sibBytes reg.val

def emitFxSaveReg (reg : Fin 16) : List Nat := fxBytes 0x00 reg

def emitFxRstorReg (reg : Fin 16) : List Nat := fxBytes 0x08 reg

def emitMoveSegmentRegToReg (src : Fin 6) (dest : Fin 16) : List Nat :=
  regBytes 0x8c (0xc0 + 8 * src.val) dest

/-- The assertions of `emitLoadEffectiveAddress` admit RIP as the base, here `none`: its number
is 102, and of this the code uses the remainder by 8 and that it is not below 8, which R14 has in
common with it. -/
def emitLoadEffectiveAddress (baseReg : Option (Fin 16)) (indexReg : Fin 16) (scale : Nat)
    (value : BitVec 64) (dest : Fin 16) (hasBase hasIndex : Bool) : Option (List Nat) :=
  if scale ∈ [0, 1, 2, 4, 8] then
    some (Pebil.emitLoadEffectiveAddress (baseReg.getD 14) indexReg scale value dest hasBase
      hasIndex)
  else none

/-- It looks at `idxdest` for the SIB byte and not at the remainder. -/
def emitLoadRegImmReg (idxsrc : Fin 16) (imm : BitVec 64) (idxdest : Fin 16) : List Nat :=
  [rexByte idxsrc idxdest, 0x8d, 0x80 + 8 * (idxsrc.val % 8) + idxdest.val % 8] ++
    (if idxdest.val = 4 then [0x24] else []) ++ bytes32 imm

def emitLoadRipImmReg (imm : BitVec 64) (idxdest : Fin 16) : List Nat :=
  [rexByte idxdest idxdest, 0x8d, 0x05 + 8 * (idxdest.val % 8)] ++
    (if idxdest.val = 4 then [0x24] else []) ++ bytes32 imm

def emitShiftRightLogical (imm : BitVec 8) (reg : Fin 16) : List Nat :=
  regBytes 0xc1 0xe8 reg ++ [imm.toNat]

def emitShiftLeftLogical (imm : BitVec 8) (reg : Fin 16) : List Nat :=
  regBytes 0xc1 0xe0 reg ++ [imm.toNat]

def emitCompareImmReg (imm : BitVec 64) (reg : Fin 16) : Option (List Nat) :=
  assert32 imm (regBytes 0x81 0xf8 reg ++ bytes32 imm)

def emitMoveRegToReg (srcreg destreg : Fin 16) : List Nat := regRegBytes 0x89 srcreg destreg

def emitLoadRipImmToReg (imm : BitVec 32) (destreg : Fin 16) : List Nat :=
  [if destreg.val < 8 then 0x48 else 0x4c, 0x8d, 0x05 + 8 * (destreg.val % 8)] ++ immBytes32 imm

def emitRegAddReg2OpForm (srcdestreg srcreg : Fin 16) : List Nat :=
  regRegBytes 0x01 srcdestreg srcreg

def emitRegImmMultReg (src : Fin 16) (imm : BitVec 32) (dest : Fin 16) : Option (List Nat) :=
  if src = dest then some (regRegBytes 0x69 dest src ++ immBytes32 imm) else none

def emitXorRegReg (src tgt : Fin 8) : List Nat := [0x48, 0x31, 0xc0 + tgt.val + 8 * src.val]

/-- The assertion compares the low half of the address with itself. -/
def emitAddImmToMem (imm : BitVec 32) (addr : BitVec 64) : List Nat :=
  [0x48, 0x81, 0x04, 0x25] ++ bytes32 addr ++ immBytes32 imm

def emitRegAndReg (src srcdest : Fin 16) : List Nat := regRegBytes 0x21 srcdest src

def emitRegOrReg (src srcdest : Fin 16) : List Nat := regRegBytes 0x09 srcdest src

def emitMoveImmToRegaddrImm (val : BitVec 64) (idx : Fin 16) (off : BitVec 64) : List Nat :=
  0x67 :: regaddrImmBytes (if idx.val < 8 then 0x48 else 0x49) 0xc7 0 idx.val off ++ bytes32 val

def emitMoveRegaddrImmToReg (idxsrc : Fin 16) (imm : BitVec 64) (idxdest : Fin 16) : List Nat :=
  regaddrImmBytes (rexByte idxdest idxsrc) 0x8b idxdest.val idxsrc.val imm

def emitStackPush4Byte (idx : Fin 8) : List Nat := [0x66, 0x50 + idx.val]

/-- The definition calls the first register `destidx`; it is the one that is stored. -/
def emitMoveRegToRegaddr (idxsrc idxdest : Fin 16) : List Nat := regaddrBytes 0x89 idxdest idxsrc

def emitMoveRegaddrToReg (srcidx destidx : Fin 16) : List Nat := regaddrBytes 0x8b srcidx destidx

/-- There is no REX bit for the upper registers. -/
def emitRegSubImm4Byte (idx : Fin 16) (imm : BitVec 32) : Option (List Nat) :=
  if 0 < idx.val then some ([0x48, 0x81, 0xe8 + idx.val % 8] ++ immBytes32 imm) else none

def emitRegSubImm (idx : Fin 16) (imm : BitVec 32) : Option (List Nat) :=
  if 0 < idx.val then
    if imm = 0 then some X86InstructionFactory.emitNop else emitRegSubImm4Byte idx imm
  else none

/-- For AX the immediate is written over the ModRM byte. -/
def emitRegAddImm4Byte (idx : Fin 16) (imm : BitVec 32) : List Nat :=
  if idx.val = 0 then [0x48, 0x81] ++ immBytes32 imm
  else regBytes 0x81 0xc0 idx ++ immBytes32 imm

def emitRegAddImm (idx : Fin 16) (imm : BitVec 32) : List Nat :=
  if imm = 0 then X86InstructionFactory.emitNop else emitRegAddImm4Byte idx imm

def emitStackPush (idx : Fin 16) : List Nat :=
  if idx.val < 8 then [0x50 + idx.val] else [0x41, 0x48 + idx.val]

def emitStackPop (idx : Fin 16) : List Nat :=
  if idx.val < 8 then [0x58 + idx.val] else [0x41, 0x50 + idx.val]

def emitMoveRegToRegaddrImm (idxsrc idxdest : Fin 16) (imm : BitVec 64) (source64Bit : Bool) :
    List Nat :=
  regaddrImmBytes
    ((if idxsrc.val < 8 then 0x40 else 0x44) + (if source64Bit then 0x08 else 0) +
      (if idxdest.val < 8 then 0 else 1))
    0x89 idxsrc.val idxdest.val imm

def emitMoveRegToRegaddrImm1Byte (idxsrc idxdest : Fin 8) (imm : BitVec 64) : List Nat :=
  [0x48, 0x89, 0x40 + idxsrc.val * 8 + idxdest.val] ++
    (if idxdest.val = 4 then [0x24] else []) ++ [imm.toNat % 256]

def emitMoveRegToRegaddrImm4Byte (idxsrc idxdest : Fin 8) (imm : BitVec 64) : List Nat :=
  regaddrImmBytes 0x48 0x89 idxsrc.val idxdest.val imm

/-- `idx` is the number behind the first XMM register. -/
def emitMoveMemToXMMReg (addr : BitVec 64) (idx : Fin 16) : Option (List Nat) :=
  assert32 addr ((if idx.val < 8 then [0xf2, 0x0f, 0x10] else [0xf2, 0x44, 0x0f, 0x10]) ++
    [0x04 + 0x08 * (idx.val % 8), 0x25] ++ bytes32 addr)

def emitMoveImmToReg (imm : BitVec 64) (idx : Fin 16) : Option (List Nat) :=
  assert32 imm (regBytes 0xc7 0xc0 idx ++ bytes32 imm)

def emitMoveImm64ToReg (imm : BitVec 64) (idx : Fin 16) : List Nat :=
  [if idx.val < 8 then 0x48 else 0x49, 0xb8 + idx.val % 8] ++ bytes64 imm

def emitMoveRegToMem (idx : Fin 16) (addr : BitVec 64) : Option (List Nat) :=
  assert32 addr (memBytes 0x89 idx addr)

/-- With 32 bits the REX prefix is overwritten by the opcode. -/
def emitMoveMemToReg (addr : BitVec 64) (idx : Fin 16) (is64Bit : Bool) : Option (List Nat) :=
  if is64Bit then assert32 addr (memBytes 0x8b idx addr)
  else if idx.val < 8 then assert32 addr ([0x8b, 0x04 + 8 * idx.val, 0x25] ++ bytes32 addr)
  else none

end X86InstructionFactory64

end Pebil

import Pebil.Lib.Loop
import Pebil.Dwarf.Leb128

/-!
# Line programs as `LineInfoTable` runs them (src/LineInformation.C:330–590)

The header fields and the line registers have the widths of the source, and
temporaries (`int16_t addr_inc`, `uint16_t addr16`) are truncated where the source
truncates them. A failed `ASSERT` or a `PRINT_ERROR` ends the program, and both
are `none`, as is reading past the bytes.

`lr_op_index` is written only with the defaults and read nowhere, and is left out.
-/

namespace Pebil

open Leb128 (Byte)

/-- The operand counts of the standard opcodes `DW_LNS_copy` to `DW_LNS_set_isa`. -/
def standardOperands : List Nat := [0, 1, 1, 1, 1, 0, 0, 0, 1, 0, 0, 1]

/-- The header fields the line program depends on (`DWARF4_Internal_LineInfo`, the
opcode table and the ELF class). The table has an entry for each opcode below the
base, with the standard's count for the opcodes the standard defines. -/
structure LineHeader where
  minInsnLength : BitVec 8
  defaultIsStmt : BitVec 8
  lineBase : BitVec 8
  lineRange : BitVec 8
  opcodeBase : BitVec 8
  opcodes : List (BitVec 8)
  is64Bit : Bool
  lineRange_pos : 0 < lineRange.toNat
  opcodes_length : opcodes.length + 1 = opcodeBase.toNat
  opcodes_standard : (opcodes.take 12).map BitVec.toNat <+: standardOperands

/-- The table's count for an opcode the standard defines. -/
theorem LineHeader.standardOperands_get (h : LineHeader) {i : Nat} {n : Byte}
    (hn : h.opcodes[i]? = some n) (hi : i < 12) : standardOperands[i]? = some n.toNat := by
  obtain ⟨hlt, rfl⟩ := List.getElem?_eq_some_iff.mp hn
  have hopcode := List.prefix_iff_getElem?.mp h.opcodes_standard i
    (by rw [List.length_map, List.length_take]; omega)
  rw [hopcode, List.getElem_map, List.getElem_take]

/-- `DWARF4_LineInfo_Registers`. -/
structure LineRegisters where
  address : BitVec 64
  file : BitVec 32
  line : BitVec 32
  column : BitVec 32
  isa : BitVec 32
  discriminator : BitVec 32
  isStmt : BitVec 8
  basicBlock : BitVec 8
  endSequence : BitVec 8
  prologueEnd : BitVec 8
  epilogueBegin : BitVec 8
  deriving DecidableEq, Repr

/-- `DWARF4_FileName`. -/
structure FileName where
  name : List Byte
  dirIndex : BitVec 64
  modTime : BitVec 64
  size : BitVec 64
  deriving DecidableEq, Repr

/-- The parts of `LineInfoTable` that running the program changes. -/
structure LineInfoTable where
  registers : LineRegisters
  lineInformations : List LineRegisters
  fileNames : List FileName
  deriving DecidableEq, Repr

/-- `LineInfo::initializeWithDefaults`. -/
def LineHeader.defaults (h : LineHeader) : LineRegisters where
  address := 0
  file := 1
  line := 1
  column := 0
  isa := 0
  discriminator := 0
  isStmt := h.defaultIsStmt
  basicBlock := 0
  endSequence := 0
  prologueEnd := 0
  epilogueBegin := 0

/-- `LineInfoTable::getAddressSize`. -/
def LineHeader.addressSize (h : LineHeader) : Nat := if h.is64Bit then 8 else 4

/-- `getUInt16`, `getUInt32` and `getUInt64`: `n` bytes, low byte first. -/
def getUInt : Nat → List Byte → Option Nat
  | 0, _ => some 0
  | _ + 1, [] => none
  | n + 1, b :: bytes => (getUInt n bytes).map fun v => b.toNat + 256 * v

/-- A null terminated string and the bytes after it. -/
def takeString : List Byte → Option (List Byte × List Byte)
  | [] => none
  | b :: bytes =>
    if b = 0 then some ([], bytes)
    else (takeString bytes).map fun (s, rest) => (b :: s, rest)

namespace LineInfoTable

/-- `appendRowToMatrix`. -/
def appendRowToMatrix (t : LineInfoTable) : LineInfoTable :=
  { t with lineInformations := t.lineInformations ++ [t.registers] }

/-- The flags that a row clears. -/
def clearRowFlags (t : LineInfoTable) : LineInfoTable :=
  { t with registers :=
      { t.registers with basicBlock := 0, prologueEnd := 0, epilogueBegin := 0, discriminator := 0 } }

/-- `executeSpecialOpcode`. -/
def executeSpecialOpcode (h : LineHeader) (t : LineInfoTable) (opcode : Byte) :
    LineInfoTable × Nat :=
  let adjustedOpcode : BitVec 8 := opcode - h.opcodeBase
  let addrInc : BitVec 16 := BitVec.ofNat 16
    (adjustedOpcode.toNat / h.lineRange.toNat * h.minInsnLength.toNat)
  let lineInc : BitVec 16 := BitVec.ofInt 16
    (h.lineBase.toInt + (adjustedOpcode.toNat % h.lineRange.toNat : Nat))
  let registers :=
    { t.registers with
      address := t.registers.address + addrInc.signExtend 64
      line := t.registers.line + lineInc.signExtend 32 }
  (({ t with registers := registers } : LineInfoTable).appendRowToMatrix.clearRowFlags, 1)

/-- `ASSERT(uop0 == (uint32_t)uop0)`, for an unsigned operand that sets a 32-bit
register. -/
def setUnsigned32 (t : LineInfoTable) (operands : List Byte)
    (set : LineRegisters → BitVec 32 → LineRegisters) : Option (LineInfoTable × Nat) := do
  let (uop0, len) ← getLeb128Unsigned operands
  if uop0 = (uop0.setWidth 32).setWidth 64 then
    return ({ t with registers := set t.registers (uop0.setWidth 32) }, 1 + len)
  else none

/-- The cases of `executeStandardOpcode`, given the operand count of the table. -/
def standardCase (h : LineHeader) (t : LineInfoTable) (opcode numberOfOperands : Nat)
    (operands : List Byte) : Option (LineInfoTable × Nat) :=
  let regs := t.registers
  if standardOperands[opcode - 1]? ≠ some numberOfOperands then none
  else match opcode with
  | 1 => some (t.appendRowToMatrix.clearRowFlags, 1)
  | 2 => do
    let (uop0, len) ← getLeb128Unsigned operands
    let address := regs.address + h.minInsnLength.setWidth 64 * uop0
    return ({ t with registers := { regs with address := address } }, 1 + len)
  | 3 => do
    let (sop0, len) ← getLeb128Signed operands
    if sop0 = (sop0.setWidth 32).signExtend 64 then
      return ({ t with registers := { regs with line := regs.line + sop0.setWidth 32 } }, 1 + len)
    else none
  | 4 => t.setUnsigned32 operands fun regs file => { regs with file := file }
  | 5 => t.setUnsigned32 operands fun regs column => { regs with column := column }
  | 6 =>
    let isStmt : BitVec 8 := if regs.isStmt ≠ 0 then 0 else 1
    some ({ t with registers := { regs with isStmt := isStmt } }, 1)
  | 7 => some ({ t with registers := { regs with basicBlock := 1 } }, 1)
  | 8 =>
    let addr16 : BitVec 16 := BitVec.ofNat 16
      ((255 - h.opcodeBase.toNat) / h.lineRange.toNat * h.minInsnLength.toNat)
    some ({ t with registers := { regs with address := regs.address + addr16.setWidth 64 } }, 1)
  | 9 => do
    let addr16 ← getUInt 2 operands
    return ({ t with registers :=
      { regs with address := regs.address + (BitVec.ofNat 16 addr16).setWidth 64 } }, 3)
  | 10 => some ({ t with registers := { regs with prologueEnd := 1 } }, 1)
  | 11 => some ({ t with registers := { regs with epilogueBegin := 1 } }, 1)
  | 12 => t.setUnsigned32 operands fun regs isa => { regs with isa := isa }
  | _ => none

/-- `executeStandardOpcode`. -/
def executeStandardOpcode (h : LineHeader) (t : LineInfoTable) (opcode : Byte)
    (operands : List Byte) : Option (LineInfoTable × Nat) := do
  let numberOfOperands ← h.opcodes[opcode.toNat - 1]?
  t.standardCase h opcode.toNat numberOfOperands.toNat operands

/-- `DW_LNE_define_file`: the name and three unsigned numbers. -/
def defineFile (t : LineInfoTable) (operands : List Byte) : Option LineInfoTable := do
  let (name, rest) ← takeString operands
  let (dirIndex, len) ← getLeb128Unsigned rest
  let (modTime, len') ← getLeb128Unsigned (rest.drop len)
  let (size, _) ← getLeb128Unsigned (rest.drop (len + len'))
  return { t with fileNames := t.fileNames ++ [⟨name, dirIndex, modTime, size⟩] }

/-- `executeExtendedOpcode`; `bytes` are the bytes after the zero opcode. The size is
one byte below `0x80`. -/
def executeExtendedOpcode (h : LineHeader) (t : LineInfoTable) :
    List Byte → Option (LineInfoTable × Nat)
  | size :: opcode :: operands =>
    let instructionSize := 2 + size.toNat
    let regs := t.registers
    if size &&& 0x80#8 ≠ 0 then none
    else match opcode.toNat with
    | 1 =>
      let t' := ({ t with registers := { regs with endSequence := 1 } } :
        LineInfoTable).appendRowToMatrix
      some ({ t' with registers := h.defaults }, instructionSize)
    | 2 => do
      let addr ← getUInt h.addressSize operands
      return ({ t with registers := { regs with address := BitVec.ofNat 64 addr } },
        instructionSize)
    | 3 => (t.defineFile operands).map (·, instructionSize)
    | 4 => do
      let (disc, _) ← getLeb128Unsigned operands
      return ({ t with registers := { regs with discriminator := disc.setWidth 32 } },
        instructionSize)
    | _ => none
  | _ => none

/-- `executeInstruction`: the table after it and the number of bytes it took. -/
def executeInstruction (h : LineHeader) (t : LineInfoTable) :
    List Byte → Option (LineInfoTable × Nat)
  | [] => none
  | opcode :: operands =>
    if opcode.toNat < h.opcodeBase.toNat - 1 then
      if opcode.toNat = 0 then t.executeExtendedOpcode h operands
      else t.executeStandardOpcode h opcode operands
    else some (t.executeSpecialOpcode h opcode)

/-- One round of `while (currByte < sizeInBytes)`, on the bytes still to run; leaving
it fails unless exactly `sizeInBytes` bytes were taken. -/
def programStep (h : LineHeader) : List Byte × LineInfoTable →
    (List Byte × LineInfoTable) ⊕ Option LineInfoTable
  | ([], t) => .inr (some t)
  | (bytes, t) =>
    match t.executeInstruction h bytes with
    | none => .inr none
    | some (t', n) => if n ≤ bytes.length then .inl (bytes.drop n, t') else .inr none

/-- The table before the program runs, with the header's file names. -/
def initial (h : LineHeader) (fileNames : List FileName) : LineInfoTable where
  registers := h.defaults
  lineInformations := []
  fileNames := fileNames

/-- The decoding loop of `LineInfoTable::read` over the bytes of the program; the
inner `none` is an abort. -/
def runProgram (h : LineHeader) (fileNames : List FileName) (program : List Byte) (fuel : Nat) :
    Option (Option LineInfoTable) :=
  loop (programStep h) fuel (program, initial h fileNames)

end LineInfoTable

end Pebil

import Pebil.Dwarf.LineProgram

/-!
# The line-number state machine of DWARF

The state machine of versions 2 to 4, for one operation per instruction, on its
own terms: a program is a sequence of operations, `decode` reads one, and `exec`
says what it does to the registers and which rows it emits. Registers have the
widths of the rows, 64 bits for addresses and 32 bits for the other numbers; those
that appear in no row are left out.

`decode` skips what the standard lets a consumer skip: a standard opcode it does
not know, by the operand count of the table, and an extended opcode it does not
know, by its length.
-/

namespace Pebil

open Leb128 (Byte)

/-- A row of the matrix, and the registers that make it. -/
structure LineRow where
  address : BitVec 64
  file : BitVec 32
  line : BitVec 32
  column : BitVec 32
  isStmt : Bool
  basicBlock : Bool
  endSequence : Bool
  deriving DecidableEq, Repr

/-- Extended operations. -/
inductive ExtendedOp where
  | endSequence
  | setAddress (address : Nat)
  | defineFile
  | setDiscriminator
  | unknown
  deriving DecidableEq, Repr

/-- Operations. A signed operand and an extended operation remember how many bytes
their operand and their length take. -/
inductive LineOp where
  | special (adjusted : Nat)
  | copy
  | advancePc (v : Nat)
  | advanceLine (v : Int) (len : Nat)
  | setFile (v : Nat)
  | setColumn (v : Nat)
  | negateStmt
  | setBasicBlock
  | constAddPc
  | fixedAdvancePc (v : Nat)
  | setPrologueEnd
  | setEpilogueBegin
  | setIsa (v : Nat)
  | unknownStandard
  | extended (lengthLen : Nat) (op : ExtendedOp)
  deriving DecidableEq, Repr

/-- A decoded operation: its opcode, what it does, and the bytes it takes. -/
structure LineInstruction where
  opcode : Nat
  op : LineOp
  size : Nat
  deriving DecidableEq, Repr

namespace LineSpec

/-- `count` LEB128 numbers: the bytes they take. -/
def skipOperands : Nat → List Byte → Option Nat
  | 0, _ => some 0
  | count + 1, bytes => do
    let (_, len) ← Leb128.unsigned bytes
    let rest ← skipOperands count (bytes.drop len)
    return len + rest

/-- An operation with one unsigned operand. -/
def unsignedOp (op : Nat → LineOp) (operands : List Byte) : Option (LineOp × Nat) :=
  (Leb128.unsigned operands).map fun (v, len) => (op v, 1 + len)

/-- A standard operation. -/
def decodeStandard (h : LineHeader) (opcode : Nat) (operands : List Byte) :
    Option (LineOp × Nat) :=
  match opcode with
  | 1 => some (.copy, 1)
  | 2 => unsignedOp .advancePc operands
  | 3 => (Leb128.signed operands).map fun (v, len) => (.advanceLine v len, 1 + len)
  | 4 => unsignedOp .setFile operands
  | 5 => unsignedOp .setColumn operands
  | 6 => some (.negateStmt, 1)
  | 7 => some (.setBasicBlock, 1)
  | 8 => some (.constAddPc, 1)
  | 9 => (getUInt 2 operands).map fun v => (.fixedAdvancePc v, 3)
  | 10 => some (.setPrologueEnd, 1)
  | 11 => some (.setEpilogueBegin, 1)
  | 12 => unsignedOp .setIsa operands
  | n => do
    let count ← h.opcodes[n - 1]?
    let len ← skipOperands count.toNat operands
    return (.unknownStandard, 1 + len)

/-- The name and the three numbers of a file: the bytes they take. -/
def fileLength (operands : List Byte) : Option Nat := do
  let (name, rest) ← takeString operands
  let len ← skipOperands 3 rest
  return name.length + 1 + len

/-- An extended operation whose operands take at most `length - 1` bytes. -/
def decodeExtendedOp (h : LineHeader) (length opcode : Nat) (operands : List Byte) :
    Option ExtendedOp :=
  match opcode with
  | 1 => some .endSequence
  | 2 =>
    if h.addressSize + 1 ≤ length then (getUInt h.addressSize operands).map .setAddress else none
  | 3 => do
    let len ← fileLength operands
    if len + 1 ≤ length then return .defineFile else none
  | 4 => do
    let (_, len) ← Leb128.unsigned operands
    if len + 1 ≤ length then return .setDiscriminator else none
  | _ => some .unknown

/-- An extended operation, from the bytes after the zero opcode: the length counts
the extended opcode and its operands. -/
def decodeExtended (h : LineHeader) (bytes : List Byte) : Option (LineOp × Nat) := do
  let (length, lengthLen) ← Leb128.unsigned bytes
  match bytes.drop lengthLen with
  | [] => none
  | opcode :: operands =>
    if length = 0 then none
    else
      let op ← decodeExtendedOp h length opcode.toNat operands
      return (.extended lengthLen op, 1 + lengthLen + length)

/-- The operation with this opcode. -/
def decodeOp (h : LineHeader) (opcode : Byte) (operands : List Byte) : Option (LineOp × Nat) :=
  if h.opcodeBase.toNat ≤ opcode.toNat then
    some (.special (opcode.toNat - h.opcodeBase.toNat), 1)
  else if opcode.toNat = 0 then decodeExtended h operands
  else decodeStandard h opcode.toNat operands

/-- The operation at the start of `bytes`; `none` when they do not hold one. -/
def decode (h : LineHeader) : List Byte → Option LineInstruction
  | [] => none
  | opcode :: operands => do
    let (op, size) ← decodeOp h opcode operands
    if size ≤ operands.length + 1 then return ⟨opcode.toNat, op, size⟩ else none

/-- The operations a program is made of. -/
inductive Decodes (h : LineHeader) : List Byte → List LineInstruction → Prop where
  | nil : Decodes h [] []
  | cons {bytes i is} : decode h bytes = some i → Decodes h (bytes.drop i.size) is →
      Decodes h bytes (i :: is)

/-- The registers at the start of a sequence. -/
def initial (h : LineHeader) : LineRow where
  address := 0
  file := 1
  line := 1
  column := 0
  isStmt := decide (h.defaultIsStmt ≠ 0)
  basicBlock := false
  endSequence := false

/-- The address advance of a special opcode: whole lines of the opcode table, each
one instruction long. -/
def addressAdvance (h : LineHeader) (adjusted : Nat) : Nat :=
  adjusted / h.lineRange.toNat * h.minInsnLength.toNat

/-- One operation: the registers after it and the rows it emits. -/
def exec (h : LineHeader) (r : LineRow) : LineOp → LineRow × List LineRow
  | .special adjusted =>
    let row := { r with
      address := r.address + BitVec.ofNat 64 (addressAdvance h adjusted)
      line := r.line +
        BitVec.ofInt 32 (h.lineBase.toInt + (adjusted % h.lineRange.toNat : Nat)) }
    ({ row with basicBlock := false }, [row])
  | .copy => ({ r with basicBlock := false }, [r])
  | .advancePc v =>
    ({ r with address := r.address + BitVec.ofNat 64 (h.minInsnLength.toNat * v) }, [])
  | .advanceLine v _ => ({ r with line := r.line + BitVec.ofInt 32 v }, [])
  | .setFile v => ({ r with file := BitVec.ofNat 32 v }, [])
  | .setColumn v => ({ r with column := BitVec.ofNat 32 v }, [])
  | .negateStmt => ({ r with isStmt := !r.isStmt }, [])
  | .setBasicBlock => ({ r with basicBlock := true }, [])
  | .constAddPc =>
    ({ r with
      address := r.address + BitVec.ofNat 64 (addressAdvance h (255 - h.opcodeBase.toNat)) }, [])
  | .fixedAdvancePc v => ({ r with address := r.address + BitVec.ofNat 64 v }, [])
  | .extended _ .endSequence => (initial h, [{ r with endSequence := true }])
  | .extended _ (.setAddress a) => ({ r with address := BitVec.ofNat 64 a }, [])
  | _ => (r, [])

/-- The rows of a sequence of operations. -/
def rows (h : LineHeader) (r : LineRow) : List LineInstruction → List LineRow
  | [] => []
  | i :: is => (exec h r i.op).2 ++ rows h (exec h r i.op).1 is

end LineSpec

end Pebil

import Pebil.Isa.Lea

/-!
# Decoding (external/udis86-1.7/libudis86/decode.c:44–198, 619–646, 768–945)

An instruction as the processor reads it in 64-bit mode: legacy prefixes, a REX prefix, the
opcode, the ModRM byte with its SIB byte and displacement, and the immediate. The opcodes are
those of the encoders in src/X86InstructionFactory.C; any other one is not decoded.
-/

namespace Pebil

/-! ## Instructions -/

inductive MachineOp where
  | add
  | or
  | adc
  | sbb
  | and
  | sub
  | xor
  | cmp
  | rol
  | ror
  | rcl
  | rcr
  | shl
  | shr
  | sal
  | sar
  | mov
  | lea
  | imul
  | inc
  | xadd
  | push
  | pop
  | nop
  | fxsave
  | fxrstor
  | movsd
  | call
  | jmp
  | jcc (condition : Nat)
  deriving DecidableEq, Repr

/-- An operand, with the number of bits that the instruction reads or writes of it. -/
inductive MachineOperand where
  | gpr (bits number : Nat)
  | segmentReg (number : Nat)
  | xmm (number : Nat)
  | memory (segmentReg : Option Nat) (addressBits bits : Nat) (op : MemoryOperand)
  | immediate (value : BitVec 64)
  | relative (value : BitVec 64)
  deriving DecidableEq, Repr

/-- The operands start with the destination. -/
structure MachineInsn where
  op : MachineOp
  lock : Bool
  operands : List MachineOperand
  deriving DecidableEq, Repr

/-! ## Prefixes -/

/-- The prefixes; `w`, `r`, `x` and `b` are the bits of the REX prefix, and `segmentReg` is the
number of FS or GS. -/
structure Prefixes where
  lock : Bool := false
  segmentReg : Option Nat := none
  operand16 : Bool := false
  address32 : Bool := false
  repeated : Option Nat := none
  w : Nat := 0
  r : Nat := 0
  x : Nat := 0
  b : Nat := 0
  deriving DecidableEq, Repr

namespace Prefixes

def legacy (p : Prefixes) (byte : Nat) : Option Prefixes :=
  if byte = 0xf0 then some { p with lock := true }
  else if byte = 0x66 then some { p with operand16 := true }
  else if byte = 0x67 then some { p with address32 := true }
  else if byte = 0xf2 ∨ byte = 0xf3 then some { p with repeated := some byte }
  else if byte = 0x64 then some { p with segmentReg := some 4 }
  else if byte = 0x65 then some { p with segmentReg := some 5 }
  -- the other segments have base 0 in 64-bit mode
  else if byte = 0x26 ∨ byte = 0x2e ∨ byte = 0x36 ∨ byte = 0x3e then some p
  else none

/-- `get_prefixes`: the legacy prefixes, in any number and order, and behind them REX. -/
def decode (p : Prefixes) : List Nat → Prefixes × List Nat
  | [] => (p, [])
  | byte :: rest =>
    match p.legacy byte with
    | some p => p.decode rest
    | none =>
      if byte / 16 = 4 then
        ({ p with w := byte / 8 % 2, r := byte / 4 % 2, x := byte / 2 % 2, b := byte % 2 }, rest)
      else (p, byte :: rest)

variable (p : Prefixes)

/-- The operand size. -/
def bits : Nat := if p.w = 1 then 64 else if p.operand16 then 16 else 32

/-- The operand size of what uses the stack. -/
def stackBits : Nat := if p.operand16 then 16 else 64

def insn (m : MachineOp) (operands : List MachineOperand) : MachineInsn := ⟨m, p.lock, operands⟩

def memory (bits : Nat) (op : MemoryOperand) : MachineOperand :=
  .memory p.segmentReg (if p.address32 then 32 else 64) bits op

end Prefixes

/-! ## ModRM, displacement and immediate -/

/-- What the `rm` field names. -/
inductive RmOperand where
  | reg (number : Nat)
  | mem (op : MemoryOperand)

def Prefixes.rm (p : Prefixes) (bits : Nat) : RmOperand → MachineOperand
  | .reg number => .gpr bits number
  | .mem op => p.memory bits op

/-- The bytes that a displacement takes; `five` is whether the number of RBP means that there is
one without a base register. -/
def displacementBytes (mod : Nat) (five : Prop) [Decidable five] : Nat :=
  if mod = 1 then 1 else if mod = 2 ∨ five then 4 else 0

/-- The part of `decode_modrm` behind a ModRM byte that asks for a SIB byte. -/
def decodeWithSib (p : Prefixes) (mod : Nat) : List Nat → Option (MemoryOperand × List Nat)
  | [] => none
  | sib :: rest =>
    let len := displacementBytes mod (sib % 8 = 5)
    (decodeSib mod p.x p.b sib (rest.take len)).map fun op => (op, rest.drop len)

/-- `decode_modrm`: the `reg` field, the operand of the `rm` field and the bytes behind. -/
def decodeModRM (p : Prefixes) : List Nat → Option (Nat × RmOperand × List Nat)
  | [] => none
  | modrm :: rest =>
    let mod := modrm / 64
    let reg := modrm / 8 % 8
    let rm := modrm % 8
    if mod = 3 then some (reg, .reg (rm + 8 * p.b), rest)
    else if rm = 4 then (decodeWithSib p mod rest).map fun (op, rest) => (reg, .mem op, rest)
    else
      let len := displacementBytes mod (mod = 0 ∧ rm = 5)
      (decodeRm mod p.b rm (rest.take len)).map fun op => (reg, .mem op, rest.drop len)

def valueOfBytes : List Nat → Nat
  | [] => 0
  | byte :: rest => byte + 256 * valueOfBytes rest

/-- `decode_imm`: a number of `n` bytes, with its sign. -/
def decodeImm (n : Nat) (bytes : List Nat) : Option (BitVec 64 × List Nat) :=
  if n ≤ bytes.length then
    some ((BitVec.ofNat (8 * n) (valueOfBytes (bytes.take n))).signExtend 64, bytes.drop n)
  else none

/-! ## Opcodes -/

/-- The operations of opcodes 0x80 to 0x83, by the `reg` field. -/
def group1 : List MachineOp := [.add, .or, .adc, .sbb, .and, .sub, .xor, .cmp]

/-- The operations of opcode 0xc1. -/
def group2 : List MachineOp := [.rol, .ror, .rcl, .rcr, .shl, .shr, .sal, .sar]

namespace Prefixes

variable (p : Prefixes)

def decodeRmReg (m : MachineOp) (bytes : List Nat) : Option (MachineInsn × List Nat) := do
  let (reg, rm, rest) ← decodeModRM p bytes
  return (p.insn m [p.rm p.bits rm, .gpr p.bits (reg + 8 * p.r)], rest)

def decodeRegRm (m : MachineOp) (bytes : List Nat) : Option (MachineInsn × List Nat) := do
  let (reg, rm, rest) ← decodeModRM p bytes
  return (p.insn m [.gpr p.bits (reg + 8 * p.r), p.rm p.bits rm], rest)

/-- An instruction with a memory operand only, where `f` is given the `reg` field. -/
def decodeMem (f : Nat → MemoryOperand → Option MachineInsn) (bytes : List Nat) :
    Option (MachineInsn × List Nat) := do
  let (reg, rm, rest) ← decodeModRM p bytes
  match rm with
  | .reg _ => none
  | .mem op => return (← f reg op, rest)

/-- An instruction whose operation is in the `reg` field, with an immediate of `n` bytes. -/
def decodeRmImm (group : List MachineOp) (n : Nat) (bytes : List Nat) :
    Option (MachineInsn × List Nat) := do
  let (reg, rm, rest) ← decodeModRM p bytes
  let m ← group[reg]?
  let (value, rest) ← decodeImm n rest
  return (p.insn m [p.rm p.bits rm, .immediate value], rest)

/-- The size of an immediate of the operand size; of 64 bits only `mov` has one. -/
def immBytes : Nat := if p.bits = 16 then 2 else 4

def decodeTwoByte : List Nat → Option (MachineInsn × List Nat)
  | [] => none
  | opcode :: rest =>
    if opcode = 0xc1 then p.decodeRmReg .xadd rest
    else if opcode = 0xae then
      p.decodeMem (fun reg op =>
        if reg = 0 then some (p.insn .fxsave [p.memory 4096 op])
        else if reg = 1 then some (p.insn .fxrstor [p.memory 4096 op])
        else none) rest
    else if opcode = 0x10 then
      if p.repeated = some 0xf2 then
        p.decodeMem (fun reg op =>
          some (p.insn .movsd [.xmm (reg + 8 * p.r), p.memory 64 op])) rest
      else none
    else if opcode = 0xa0 ∨ opcode = 0xa8 then
      some (p.insn .push [.segmentReg (opcode / 8 % 2 + 4)], rest)
    else if opcode = 0xa1 ∨ opcode = 0xa9 then
      some (p.insn .pop [.segmentReg (opcode / 8 % 2 + 4)], rest)
    else if opcode / 16 = 8 then
      (decodeImm 4 rest).map fun (value, rest) =>
        (p.insn (.jcc (opcode % 16)) [.relative value], rest)
    else none

/-- The instruction behind the prefixes. -/
def decodeOpcode : List Nat → Option (MachineInsn × List Nat)
  | [] => none
  | opcode :: rest =>
    let reg := opcode % 8 + 8 * p.b
    if opcode / 8 = 0x50 / 8 then some (p.insn .push [.gpr p.stackBits reg], rest)
    else if opcode / 8 = 0x58 / 8 then some (p.insn .pop [.gpr p.stackBits reg], rest)
    -- AL to BL; what the next four numbers mean depends on whether there is a REX prefix
    else if opcode / 4 = 0xb0 / 4 then
      (decodeImm 1 rest).map fun (value, rest) => (p.insn .mov [.gpr 8 reg, .immediate value], rest)
    else if opcode / 8 = 0xb8 / 8 then
      (decodeImm (p.bits / 8) rest).map fun (value, rest) =>
        (p.insn .mov [.gpr p.bits reg, .immediate value], rest)
    else if opcode = 0x01 then p.decodeRmReg .add rest
    else if opcode = 0x09 then p.decodeRmReg .or rest
    else if opcode = 0x21 then p.decodeRmReg .and rest
    else if opcode = 0x31 then p.decodeRmReg .xor rest
    else if opcode = 0x89 then p.decodeRmReg .mov rest
    else if opcode = 0x8b then p.decodeRegRm .mov rest
    else if opcode = 0x8d then
      p.decodeMem (fun reg op =>
        some (p.insn .lea [.gpr p.bits (reg + 8 * p.r), p.memory p.bits op])) rest
    else if opcode = 0x8c then do
      let (reg, rm, rest) ← decodeModRM p rest
      return (p.insn .mov [p.rm p.bits rm, .segmentReg reg], rest)
    else if opcode = 0x8e then do
      let (reg, rm, rest) ← decodeModRM p rest
      return (p.insn .mov [.segmentReg reg, p.rm 16 rm], rest)
    else if opcode = 0x69 then do
      let (reg, rm, rest) ← decodeModRM p rest
      let (value, rest) ← decodeImm p.immBytes rest
      return (p.insn .imul [.gpr p.bits (reg + 8 * p.r), p.rm p.bits rm, .immediate value], rest)
    else if opcode = 0x81 then p.decodeRmImm group1 p.immBytes rest
    else if opcode = 0x83 then p.decodeRmImm group1 1 rest
    else if opcode = 0xc1 then p.decodeRmImm group2 1 rest
    else if opcode = 0xc7 then p.decodeRmImm [.mov] p.immBytes rest
    else if opcode = 0x68 then
      (decodeImm 4 rest).map fun (value, rest) => (p.insn .push [.immediate value], rest)
    else if opcode = 0xe8 then
      (decodeImm 4 rest).map fun (value, rest) => (p.insn .call [.relative value], rest)
    else if opcode = 0xe9 then
      (decodeImm 4 rest).map fun (value, rest) => (p.insn .jmp [.relative value], rest)
    else if opcode = 0x90 then some (p.insn .nop [], rest)
    else if opcode = 0x0f then p.decodeTwoByte rest
    else none

end Prefixes

/-- The first instruction of `bytes` and the bytes behind it. -/
def decodeInsn (bytes : List Nat) : Option (MachineInsn × List Nat) :=
  let (p, rest) := ({} : Prefixes).decode bytes
  p.decodeOpcode rest

/-! ## Reading back prefixes -/

namespace Prefixes

theorem decode_rex (p : Prefixes) {w r x b : Nat} (hw : w < 2) (hr : r < 2) (hx : x < 2)
    (hb : b < 2) (rest : List Nat) :
    p.decode ((0x40 + 8 * w + 4 * r + 2 * x + b) :: rest) = ({ p with w, r, x, b }, rest) := by
  have hlegacy : p.legacy (0x40 + 8 * w + 4 * r + 2 * x + b) = none := by
    unfold legacy
    repeat rw [if_neg (by omega)]
  rw [decode, hlegacy]
  dsimp only
  rw [if_pos (by omega), show (0x40 + 8 * w + 4 * r + 2 * x + b) / 8 % 2 = w by omega,
    show (0x40 + 8 * w + 4 * r + 2 * x + b) / 4 % 2 = r by omega,
    show (0x40 + 8 * w + 4 * r + 2 * x + b) / 2 % 2 = x by omega,
    show (0x40 + 8 * w + 4 * r + 2 * x + b) % 2 = b by omega]

end Prefixes

theorem decodeInsn_rex {w r x b : Nat} (hw : w < 2) (hr : r < 2) (hx : x < 2) (hb : b < 2)
    (rest : List Nat) :
    decodeInsn ((0x40 + 8 * w + 4 * r + 2 * x + b) :: rest) =
      ({ w, r, x, b } : Prefixes).decodeOpcode rest := by
  rw [decodeInsn, Prefixes.decode_rex _ hw hr hx hb]

/-! ## Reading back immediates and displacements -/

/-- What the processor makes of the low half of a value. -/
def signExtend32 (value : BitVec 64) : BitVec 64 := (value.setWidth 32).signExtend 64

/-- The values that sign extension of the low half yields. -/
def FitsSigned32 (value : BitVec 64) : Prop :=
  value.toNat < 2 ^ 31 ∨ 2 ^ 64 - 2 ^ 31 ≤ value.toNat

theorem signExtend32_eq_iff (value : BitVec 64) :
    signExtend32 value = value ↔ FitsSigned32 value := by
  have hlt := value.isLt
  have hnat : (signExtend32 value).toNat =
      value.toNat % 2 ^ 32 + if 2 ^ 31 ≤ value.toNat % 2 ^ 32 then 2 ^ 64 - 2 ^ 32 else 0 := by
    rw [signExtend32, BitVec.toNat_signExtend, BitVec.toNat_setWidth, BitVec.toNat_setWidth,
      BitVec.msb_eq_decide, BitVec.toNat_setWidth]
    simp only [decide_eq_true_eq, show 2 ^ (32 - 1) = 2 ^ 31 from rfl]
    split <;> omega
  rw [FitsSigned32, ← BitVec.toNat_inj, hnat]
  split <;> omega

theorem decodeImm_bytes32 (value : BitVec 64) :
    decodeImm 4 (bytes32 value) = some (signExtend32 value, []) := by
  have hlow : BitVec.ofNat 32 (valueOfBytes (bytes32 value)) = value.setWidth 32 := by
    apply BitVec.eq_of_toNat_eq
    simp only [bytes32, valueOfBytes, BitVec.toNat_ofNat, BitVec.toNat_setWidth]
    omega
  show some ((BitVec.ofNat 32 (valueOfBytes (bytes32 value))).signExtend 64, []) = _
  rw [hlow]
  rfl

theorem decodeImm_one (byte : Nat) (rest : List Nat) :
    decodeImm 1 (byte :: rest) = some ((BitVec.ofNat 8 byte).signExtend 64, rest) := rfl

/-! ## Reading back ModRM -/

namespace MemoryOperand

/-- A base register and a displacement. -/
def based (reg : Nat) (value : BitVec 64) : MemoryOperand :=
  { base := udRRax + reg, index := 0, scale := 0, value }

def absolute (value : BitVec 64) : MemoryOperand := { base := 0, index := 0, scale := 0, value }

/-- `UD_R_RIP` and a displacement. -/
def ripRelative (value : BitVec 64) : MemoryOperand :=
  { base := udRYmm15 + 1, index := 0, scale := 0, value }

end MemoryOperand

section ModRM

variable (p : Prefixes) {reg rm : Nat} (hreg : reg < 8)
include hreg

theorem decodeModRM_reg (hrm : rm < 8) (rest : List Nat) :
    decodeModRM p ((0xc0 + 8 * reg + rm) :: rest) = some (reg, .reg (rm + 8 * p.b), rest) := by
  rw [decodeModRM]
  dsimp only
  rw [if_pos (by omega), show (0xc0 + 8 * reg + rm) / 8 % 8 = reg by omega,
    show (0xc0 + 8 * reg + rm) % 8 = rm by omega]

/-- Without a SIB byte. -/
theorem decodeModRM_rm {mod : Nat} (hmod : mod < 3) (hrm : rm < 8) (hne : rm ≠ 4)
    (rest : List Nat) :
    decodeModRM p ((64 * mod + 8 * reg + rm) :: rest) =
      (decodeRm mod p.b rm (rest.take (displacementBytes mod (mod = 0 ∧ rm = 5)))).map fun op =>
        (reg, .mem op, rest.drop (displacementBytes mod (mod = 0 ∧ rm = 5))) := by
  rw [decodeModRM]
  dsimp only
  rw [show (64 * mod + 8 * reg + rm) / 64 = mod by omega,
    show (64 * mod + 8 * reg + rm) / 8 % 8 = reg by omega,
    show (64 * mod + 8 * reg + rm) % 8 = rm by omega, if_neg (by omega), if_neg hne]

/-- With a SIB byte. -/
theorem decodeModRM_sib {mod : Nat} (hmod : mod < 3) (rest : List Nat) :
    decodeModRM p ((64 * mod + 8 * reg + 4) :: rest) =
      (decodeWithSib p mod rest).map fun (op, rest) => (reg, .mem op, rest) := by
  rw [decodeModRM]
  dsimp only
  rw [show (64 * mod + 8 * reg + 4) / 64 = mod by omega,
    show (64 * mod + 8 * reg + 4) / 8 % 8 = reg by omega,
    show (64 * mod + 8 * reg + 4) % 8 = 4 by omega, if_neg (by omega), if_pos rfl]

end ModRM

section Memory

variable {p : Prefixes} {mod reg rm : Nat} (hmod : mod < 3) (hreg : reg < 8)
  {disp : List Nat} (hdisp : disp.length = if mod = 0 then 0 else if mod = 1 then 1 else 4)

include hmod hdisp in
theorem displacementBytes_eq {five : Prop} [Decidable five] (hfive : mod = 0 → ¬five) :
    displacementBytes mod five = disp.length := by
  rw [hdisp, displacementBytes]
  obtain rfl | rfl | rfl : mod = 0 ∨ mod = 1 ∨ mod = 2 := by omega
  · simp [hfive rfl]
  · rfl
  · simp

include hmod hdisp in
theorem offset_eq {five : Prop} [Decidable five] (hfive : ¬five) :
    (if mod = 1 then 8 else if mod = 2 ∨ five then 32 else 0) = 8 * disp.length := by
  rw [hdisp]
  obtain rfl | rfl | rfl : mod = 0 ∨ mod = 1 ∨ mod = 2 := by omega
  · simp [hfive]
  · rfl
  · simp

include hmod hdisp in
/-- A SIB byte without an index whose base is RSP or R12. -/
theorem decodeWithSib_rsp (hx : p.x = 0) (rest : List Nat) :
    decodeWithSib p mod (0x24 :: (disp ++ rest)) =
      (decodeOffset (8 * disp.length) disp).map fun value => (.based (4 + 8 * p.b) value, rest) := by
  have hbp : ¬(0x24 % 8 + 8 * p.b = 5 ∨ 0x24 % 8 + 8 * p.b = 13) := by omega
  have hindex : 0x24 / 8 % 8 + 8 * p.x = 4 := by rw [hx]
  have hlen : displacementBytes mod (0x24 % 8 = 5) = disp.length :=
    displacementBytes_eq hmod hdisp fun _ => by decide
  have hbase : ¬((0x24 % 8 + 8 * p.b = 5 ∨ 0x24 % 8 + 8 * p.b = 13) ∧ mod = 0) := fun h => hbp h.1
  rw [decodeWithSib, hlen, List.take_left, List.drop_left, decodeSib, ← offset_eq hmod hdisp hbp,
    if_neg hbase, if_pos hindex, if_pos hindex]
  cases decodeOffset _ disp <;> rfl

include hmod hreg hdisp in
/-- A base register and a displacement, as all encoders write them. -/
theorem decodeModRM_based (hx : p.x = 0) (hrm : rm < 8) (hne : mod = 0 → rm ≠ 5)
    (rest : List Nat) :
    decodeModRM p ((64 * mod + 8 * reg + rm) ::
        ((if rm = 4 then [0x24] else []) ++ (disp ++ rest))) =
      (decodeOffset (8 * disp.length) disp).map fun value =>
        (reg, .mem (.based (rm + 8 * p.b) value), rest) := by
  by_cases hsp : rm = 4
  · subst hsp
    rw [decodeModRM_sib p hreg hmod, if_pos rfl, List.singleton_append,
      decodeWithSib_rsp hmod hdisp hx, Option.map_map]
    rfl
  · have hrip : ¬(mod = 0 ∧ rm = 5) := fun h => hne h.1 h.2
    rw [decodeModRM_rm p hreg hmod hrm hsp, if_neg hsp, List.nil_append,
      displacementBytes_eq hmod hdisp (fun _ => hrip), List.take_left, List.drop_left, decodeRm,
      ← offset_eq hmod hdisp hrip]
    rw [if_neg hrip]
    cases decodeOffset _ disp <;> rfl

include hreg in
/-- No base register, through a SIB byte. -/
theorem decodeModRM_absolute (hx : p.x = 0) (hb : p.b = 0) (value : BitVec 64) (rest : List Nat) :
    decodeModRM p ((0x04 + 8 * reg) :: 0x25 :: (bytes32 value ++ rest)) =
      some (reg, .mem (.absolute (signExtend32 value)), rest) := by
  have hmodrm : 0x04 + 8 * reg = 64 * 0 + 8 * reg + 4 := by omega
  rw [hmodrm, decodeModRM_sib p hreg (by decide), decodeWithSib]
  show ((decodeSib 0 p.x p.b 0x25 (bytes32 value)).map fun op => (op, rest)).map _ = _
  rw [decodeSib, hx, hb]
  show (((decodeOffset 32 (bytes32 value)).map fun value => MemoryOperand.absolute value).map
    fun op => (op, rest)).map _ = _
  rw [decodeOffset_bytes32]
  rfl

include hreg in
theorem decodeModRM_ripRelative (value : BitVec 64) (rest : List Nat) :
    decodeModRM p ((0x05 + 8 * reg) :: (bytes32 value ++ rest)) =
      some (reg, .mem (.ripRelative (signExtend32 value)), rest) := by
  have hmodrm : 0x05 + 8 * reg = 64 * 0 + 8 * reg + 5 := by omega
  rw [hmodrm, decodeModRM_rm p hreg (by decide) (by decide) (by decide)]
  show (decodeRm 0 p.b 5 (bytes32 value)).map (fun op => (reg, RmOperand.mem op, rest)) = _
  rw [decodeRm]
  show ((decodeOffset 32 (bytes32 value)).map fun value => MemoryOperand.ripRelative value).map _ = _
  rw [decodeOffset_bytes32]
  rfl

end Memory

/-! ## Bytes that are missing -/

theorem decodeOffset_short {bytes : List Nat} (h : bytes.length < 4) :
    decodeOffset 32 bytes = none := by
  match bytes, h with
  | [], _ | [_], _ | [_, _], _ | [_, _, _], _ => rfl

/-- A SIB byte and a displacement of four bytes. -/
theorem decodeWithSib_short (p : Prefixes) {bytes : List Nat} (h : bytes.length < 5) :
    decodeWithSib p 2 bytes = none := by
  cases bytes with
  | nil => rfl
  | cons sib bytes =>
    have hshort : (bytes.take 4).length < 4 := by
      rw [List.length_take]
      simp only [List.length_cons] at h
      omega
    have hlen : displacementBytes 2 (sib % 8 = 5) = 4 := by simp [displacementBytes]
    rw [decodeWithSib, hlen, decodeSib]
    simp [decodeOffset_short hshort]

/-- The number of RBP without a displacement means RIP, and four bytes. -/
theorem decodeModRM_ripRelative_short (p : Prefixes) {reg : Nat} (hreg : reg < 8)
    {rest : List Nat} (hlen : rest.length < 4) : decodeModRM p ((8 * reg + 5) :: rest) = none := by
  have hshort : (rest.take 4).length < 4 := by
    rw [List.length_take]
    omega
  have h := decodeModRM_rm p hreg (by decide : 0 < 3) (by decide : 5 < 8) (by decide) rest
  rw [show 64 * 0 + 8 * reg + 5 = 8 * reg + 5 by omega] at h
  rw [h]
  show (decodeRm 0 p.b 5 (rest.take 4)).map _ = none
  rw [decodeRm]
  simp [decodeOffset_short hshort]

theorem decodeWithSib_length {p : Prefixes} {mod : Nat} {bytes rest : List Nat} {op : MemoryOperand}
    (h : decodeWithSib p mod bytes = some (op, rest)) : rest.length < bytes.length := by
  cases bytes with
  | nil => cases h
  | cons sib bytes =>
    obtain ⟨_, -, heq⟩ := Option.map_eq_some_iff.mp h
    obtain rfl := (Prod.ext_iff.mp heq).2
    simp only [List.length_drop, List.length_cons]
    omega

/-- ModRM takes a byte at least. -/
theorem decodeModRM_length {p : Prefixes} {bytes rest : List Nat} {reg : Nat} {rm : RmOperand}
    (h : decodeModRM p bytes = some (reg, rm, rest)) : rest.length < bytes.length := by
  cases bytes with
  | nil => cases h
  | cons modrm bytes =>
    unfold decodeModRM at h
    dsimp only at h
    split_ifs at h
    · cases h
      simp
    · obtain ⟨⟨op, left⟩, hsib, heq⟩ := Option.map_eq_some_iff.mp h
      cases heq
      exact Nat.lt_succ_of_lt (decodeWithSib_length hsib)
    · obtain ⟨_, -, heq⟩ := Option.map_eq_some_iff.mp h
      cases heq
      simp only [List.length_drop, List.length_cons]
      omega

theorem decodeOffset_length {n : Nat} {bytes : List Nat} {value : BitVec 64}
    (h : decodeOffset n bytes = some value) : bytes.length = n / 8 := by
  unfold decodeOffset at h
  split at h
  · rfl
  · rfl
  · rfl
  · cases h

/-- The bytes of an operand that `decodeSib` accepts are those that `decodeModRM` takes. -/
theorem decodeSib_length {mod x b sib : Nat} {bytes : List Nat} {op : MemoryOperand} (hb : b < 2)
    (h : decodeSib mod x b sib bytes = some op) :
    bytes.length = displacementBytes mod (sib % 8 = 5) := by
  obtain ⟨value, hvalue, -⟩ := Option.bind_eq_some_iff.mp h
  have hlen := decodeOffset_length hvalue
  have hbp : (sib % 8 + 8 * b = 5 ∨ sib % 8 + 8 * b = 13) ↔ sib % 8 = 5 := by omega
  rw [hlen, displacementBytes]
  simp only [hbp]
  split_ifs <;> rfl

theorem decodeRm_length {mod b rm : Nat} {bytes : List Nat} {op : MemoryOperand}
    (h : decodeRm mod b rm bytes = some op) :
    bytes.length = displacementBytes mod (mod = 0 ∧ rm = 5) := by
  obtain ⟨value, hvalue, -⟩ := Option.bind_eq_some_iff.mp h
  rw [decodeOffset_length hvalue, displacementBytes]
  split_ifs <;> rfl

theorem decodeImm_short {n : Nat} {bytes : List Nat} (h : bytes.length < n) :
    decodeImm n bytes = none := if_neg (by omega)

/-- Without a byte for ModRM before the immediate there is no instruction. -/
theorem Prefixes.decodeRmImm_short (p : Prefixes) (group : List MachineOp) {n : Nat}
    {bytes : List Nat} (h : bytes.length ≤ n) : p.decodeRmImm group n bytes = none := by
  rw [decodeRmImm]
  cases hmodrm : decodeModRM p bytes with
  | none => rfl
  | some found =>
    obtain ⟨reg, rm, rest⟩ := found
    have hlen := decodeModRM_length hmodrm
    have himm : decodeImm n rest = none := decodeImm_short (by omega)
    simp [himm]

end Pebil

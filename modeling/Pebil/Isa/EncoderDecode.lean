import Pebil.Isa.Encoders

/-!
# What the encoders write

For each encoder the instruction that its bytes decode to, whether it is the one that the name of
the encoder promises or not. The bytes of a family are decoded once.
-/

namespace Pebil

/-! ## REX -/

/-- The prefixes of `rexByte`. -/
def rexPrefixes (reg rm : Fin 16) : Prefixes := { w := 1, r := reg.val / 8, b := rm.val / 8 }

theorem rexByte_eq (reg rm : Fin 16) :
    rexByte reg rm = 0x40 + 8 * 1 + 4 * (reg.val / 8) + 2 * 0 + rm.val / 8 := by
  have hreg := reg.isLt
  have hrm := rm.isLt
  unfold rexByte
  split <;> split <;> omega

theorem decode_rexByte (p : Prefixes) (reg rm : Fin 16) (rest : List Nat) :
    p.decode (rexByte reg rm :: rest) =
      ({ p with w := 1, r := reg.val / 8, x := 0, b := rm.val / 8 }, rest) := by
  rw [rexByte_eq]
  exact p.decode_rex (by decide) (by omega) (by decide) (by omega) rest

theorem decodeInsn_rexByte (reg rm : Fin 16) (rest : List Nat) :
    decodeInsn (rexByte reg rm :: rest) = (rexPrefixes reg rm).decodeOpcode rest := by
  rw [decodeInsn, decode_rexByte]
  rfl

@[simp] theorem rexPrefixes_bits (reg rm : Fin 16) : (rexPrefixes reg rm).bits = 64 := rfl

@[simp] theorem rexPrefixes_immBytes (reg rm : Fin 16) : (rexPrefixes reg rm).immBytes = 4 := rfl

@[simp] theorem rexPrefixes_insn (reg rm : Fin 16) (m : MachineOp) (operands : List MachineOperand) :
    (rexPrefixes reg rm).insn m operands = ⟨m, false, operands⟩ := rfl

/-- The number of a register from its field and its REX bit. -/
@[simp] theorem field_add_rex (reg : Fin 16) : reg.val % 8 + 8 * (reg.val / 8) = reg.val :=
  Nat.mod_add_div _ _

theorem field_lt (reg : Fin 16) : reg.val % 8 < 8 := Nat.mod_lt _ (by decide)

/-! ## Two registers -/

theorem decodeModRM_regReg (reg rm : Fin 16) (rest : List Nat) :
    decodeModRM (rexPrefixes reg rm) ((0xc0 + 8 * (reg.val % 8) + rm.val % 8) :: rest) =
      some (reg.val % 8, .reg rm.val, rest) := by
  rw [decodeModRM_reg _ (field_lt reg) (field_lt rm)]
  simp [rexPrefixes]

/-- The register of the `rm` field is the destination. -/
theorem decodeInsn_regReg {opcode : Nat} {m : MachineOp}
    (hopcode : ∀ p : Prefixes, ∀ rest, p.decodeOpcode (opcode :: rest) = p.decodeRmReg m rest)
    (reg rm : Fin 16) :
    decodeInsn (regRegBytes opcode reg rm) =
      some (⟨m, false, [.gpr 64 rm.val, .gpr 64 reg.val]⟩, []) := by
  rw [regRegBytes, decodeInsn_rexByte, hopcode, Prefixes.decodeRmReg, decodeModRM_regReg]
  simp [rexPrefixes, Prefixes.rm, Prefixes.bits, Prefixes.insn]

/-! ## One register -/

theorem regBytes_eq (opcode modrm : Nat) (reg : Fin 16) :
    regBytes opcode modrm reg = [rexByte 0 reg, opcode, modrm + reg.val % 8] := by
  unfold regBytes rexByte
  split <;> rfl

theorem decodeModRM_ext {ext : Nat} (hext : ext < 8) (reg : Fin 16) (rest : List Nat) :
    decodeModRM (rexPrefixes 0 reg) ((0xc0 + 8 * ext + reg.val % 8) :: rest) =
      some (ext, .reg reg.val, rest) := by
  rw [decodeModRM_reg _ hext (field_lt reg)]
  simp [rexPrefixes]

/-- The operation is in the `reg` field, and behind it is an immediate. -/
theorem decodeInsn_regImm (reg : Fin 16) (ext : Nat) {opcode n : Nat} {group : List MachineOp} {m : MachineOp}
    {value : BitVec 64} {imm : List Nat}
    (hopcode : ∀ rest, (rexPrefixes 0 reg).decodeOpcode (opcode :: rest) =
      (rexPrefixes 0 reg).decodeRmImm group n rest)
    (hext : ext < 8) (hm : group[ext]? = some m) (himm : decodeImm n imm = some (value, [])) :
    decodeInsn (regBytes opcode (0xc0 + 8 * ext) reg ++ imm) =
      some (⟨m, false, [.gpr 64 reg.val, .immediate value]⟩, []) := by
  rw [regBytes_eq]
  show decodeInsn (rexByte 0 reg :: opcode :: (0xc0 + 8 * ext + reg.val % 8) :: imm) = _
  rw [decodeInsn_rexByte, hopcode, Prefixes.decodeRmImm, decodeModRM_ext hext]
  show (group[ext]?.bind fun m => (decodeImm n imm).bind fun _ => _) = _
  rw [hm, himm]
  rfl

/-! ## Memory behind a register -/

section Memory

variable {p : Prefixes} (hx : p.x = 0) {addr : Fin 16} (hb : p.b = addr.val / 8) {reg : Nat}
  (hreg : reg < 8)
include hx hb hreg

/-- With a displacement of four bytes every register is its own base. -/
theorem decodeModRM_regaddrImm (imm : BitVec 64) (rest : List Nat) :
    decodeModRM p ((0x80 + 8 * reg + addr.val % 8) ::
        (sibBytes addr.val ++ (bytes32 imm ++ rest))) =
      some (reg, .mem (.based addr.val (signExtend32 imm)), rest) := by
  have hdisp : (bytes32 imm).length = if 2 = 0 then 0 else if 2 = 1 then 1 else 4 := rfl
  have h := decodeModRM_based (p := p) (by decide : 2 < 3) hreg hdisp hx (field_lt addr)
    (by simp) rest
  rw [show 8 * (bytes32 imm).length = 32 from rfl, decodeOffset_bytes32, hb, field_add_rex] at h
  exact h

/-- Without one this is so unless the base is RBP or R13. -/
theorem decodeModRM_indirect (hbp : addr.val % 8 ≠ 5) (rest : List Nat) :
    decodeModRM p ((8 * reg + addr.val % 8) :: (sibBytes addr.val ++ rest)) =
      some (reg, .mem (.based addr.val 0), rest) := by
  have hdisp : ([] : List Nat).length = if 0 = 0 then 0 else if 0 = 1 then 1 else 4 := rfl
  have h := decodeModRM_based (p := p) (by decide : 0 < 3) hreg hdisp hx (field_lt addr)
    (fun _ => hbp) rest
  rw [hb, field_add_rex] at h
  rw [show 64 * 0 + 8 * reg + addr.val % 8 = 8 * reg + addr.val % 8 by omega] at h
  exact h

/-- RBP and R13 with a displacement of one byte. -/
theorem decodeModRM_regaddr (rest : List Nat) :
    decodeModRM p ((addr.val % 8 + 8 * reg + (if addr.val % 8 = 5 then 0x40 else 0)) ::
        (sibBytes addr.val ++ ((if addr.val % 8 = 5 then [0x00] else []) ++ rest))) =
      some (reg, .mem (.based addr.val 0), rest) := by
  by_cases hbp : addr.val % 8 = 5
  · have hdisp : ([0x00] : List Nat).length = if 1 = 0 then 0 else if 1 = 1 then 1 else 4 := rfl
    have h := decodeModRM_based (p := p) (by decide : 1 < 3) hreg hdisp hx (field_lt addr)
      (by simp) rest
    rw [hb, field_add_rex, show 64 * 1 + 8 * reg + addr.val % 8 =
      addr.val % 8 + 8 * reg + 0x40 by omega] at h
    rw [if_pos hbp, if_pos hbp]
    exact h
  · rw [if_neg hbp, if_neg hbp, List.nil_append, Nat.add_zero, Nat.add_comm]
    exact decodeModRM_indirect hx hb hreg hbp rest

end Memory

/-! ## Opcodes without a REX prefix, or with one for the upper registers only -/

theorem Prefixes.decode_opcode (p : Prefixes) {byte : Nat} (hlegacy : p.legacy byte = none)
    (hrex : byte / 16 ≠ 4) (rest : List Nat) : p.decode (byte :: rest) = (p, byte :: rest) := by
  rw [decode, hlegacy]
  dsimp only
  rw [if_neg hrex]

/-- The prefixes of an instruction that has 0x41 before it if the register is an upper one. -/
def upperPrefixes (reg : Fin 16) : Prefixes := { b := reg.val / 8 }

theorem decodeInsn_upper (reg : Fin 16) {opcode : Nat}
    (hlegacy : ({} : Prefixes).legacy opcode = none) (hrex : opcode / 16 ≠ 4) (rest : List Nat) :
    decodeInsn ((if 8 ≤ reg.val then [0x41] else []) ++ opcode :: rest) =
      (upperPrefixes reg).decodeOpcode (opcode :: rest) := by
  have hreg := reg.isLt
  by_cases hupper : 8 ≤ reg.val
  · rw [if_pos hupper, upperPrefixes, show reg.val / 8 = 1 by omega]
    rfl
  · rw [if_neg hupper, upperPrefixes, show reg.val / 8 = 0 by omega, List.nil_append, decodeInsn,
      Prefixes.decode_opcode _ hlegacy hrex]

/-! ## Immediates of the encoders -/

theorem signExtend32_setWidth (imm : BitVec 32) :
    signExtend32 (imm.setWidth 64) = imm.signExtend 64 := by
  rw [signExtend32, BitVec.setWidth_setWidth_of_le _ (by decide), BitVec.setWidth_eq]

theorem decodeImm_immBytes32 (imm : BitVec 32) :
    decodeImm 4 (immBytes32 imm) = some (imm.signExtend 64, []) := by
  rw [immBytes32, decodeImm_bytes32, signExtend32_setWidth]

theorem decodeImm_byte (imm : BitVec 8) : decodeImm 1 [imm.toNat] = some (imm.signExtend 64, []) := by
  rw [decodeImm_one, BitVec.ofNat_toNat, BitVec.setWidth_eq]

theorem decodeImm_bytes64 (value : BitVec 64) : decodeImm 8 (bytes64 value) = some (value, []) := by
  have hvalue : BitVec.ofNat 64 (valueOfBytes (bytes64 value)) = value := by
    apply BitVec.eq_of_toNat_eq
    have hlt := value.isLt
    simp only [bytes64, bytes32, List.cons_append, List.nil_append, valueOfBytes,
      BitVec.toNat_ofNat, BitVec.toNat_ushiftRight, Nat.shiftRight_eq_div_pow]
    omega
  show some ((BitVec.ofNat 64 (valueOfBytes (bytes64 value))).signExtend 64, []) = _
  rw [hvalue, BitVec.signExtend_eq]

/-! ## The encoders -/

namespace MachineOperand

def reg64 (reg : Fin 16) : MachineOperand := .gpr 64 reg.val

/-- Memory behind a register. -/
def behind (bits : Nat) (addr : Fin 16) (value : BitVec 64) : MachineOperand :=
  .memory none 64 bits (.based addr.val value)

end MachineOperand

open MachineOperand

namespace X86InstructionFactory64

variable (reg src dest : Fin 16) (imm : BitVec 32) (imm8 : BitVec 8) (value : BitVec 64)

theorem decodeInsn_emitExchangeAdd (lock : Bool) :
    decodeInsn (emitExchangeAdd src dest lock) =
      if dest.val % 8 = 5 then none
      else some (⟨.xadd, lock, [behind 64 dest 0, reg64 src]⟩, []) := by
  have hrex : 0x48 + (if 8 ≤ src.val then 0x04 else 0) + (if 8 ≤ dest.val then 0x01 else 0) =
      rexByte src dest := by
    unfold rexByte
    split <;> split <;> split <;> split <;> omega
  have hbytes : emitExchangeAdd src dest lock = (if lock then [0xf0] else []) ++
      rexByte src dest :: 0x0f :: 0xc1 :: (8 * (src.val % 8) + dest.val % 8) ::
        (sibBytes dest.val ++ []) := by
    rw [emitExchangeAdd, hrex, Nat.zero_add, Nat.add_comm (dest.val % 8)]
    simp
  have hopcode : decodeInsn (emitExchangeAdd src dest lock) =
      ({ rexPrefixes src dest with lock := lock } : Prefixes).decodeRmReg .xadd
        ((8 * (src.val % 8) + dest.val % 8) :: (sibBytes dest.val ++ [])) := by
    rw [hbytes, decodeInsn]
    cases lock with
    | false =>
      rw [if_neg (by decide), List.nil_append, decode_rexByte]
      rfl
    | true =>
      show (({ lock := true } : Prefixes).decode (rexByte src dest :: _)).1.decodeOpcode
        (({ lock := true } : Prefixes).decode (rexByte src dest :: _)).2 = _
      rw [decode_rexByte]
      rfl
  rw [hopcode, Prefixes.decodeRmReg]
  by_cases hbp : dest.val % 8 = 5
  · rw [if_pos hbp, hbp, sibBytes, hbp, decodeModRM_ripRelative_short _ (field_lt src) (by decide)]
    rfl
  · rw [if_neg hbp, decodeModRM_indirect rfl rfl (field_lt src) hbp]
    simp [Prefixes.rm, Prefixes.memory, Prefixes.bits, Prefixes.insn, rexPrefixes, behind, reg64]

theorem decodeInsn_emitMoveRegToReg :
    decodeInsn (emitMoveRegToReg src dest) = some (⟨.mov, false, [reg64 dest, reg64 src]⟩, []) :=
  decodeInsn_regReg (fun _ _ => rfl) src dest

theorem decodeInsn_emitRegAddReg2OpForm :
    decodeInsn (emitRegAddReg2OpForm dest src) = some (⟨.add, false, [reg64 src, reg64 dest]⟩, []) :=
  decodeInsn_regReg (fun _ _ => rfl) dest src

theorem decodeInsn_emitRegAndReg :
    decodeInsn (emitRegAndReg src dest) = some (⟨.and, false, [reg64 src, reg64 dest]⟩, []) :=
  decodeInsn_regReg (fun _ _ => rfl) dest src

theorem decodeInsn_emitRegOrReg :
    decodeInsn (emitRegOrReg src dest) = some (⟨.or, false, [reg64 src, reg64 dest]⟩, []) :=
  decodeInsn_regReg (fun _ _ => rfl) dest src

theorem decodeInsn_emitRegImmMultReg :
    decodeInsn (regRegBytes 0x69 dest src ++ immBytes32 imm) =
      some (⟨.imul, false, [reg64 dest, reg64 src, .immediate (imm.signExtend 64)]⟩, []) := by
  show decodeInsn (rexByte dest src :: 0x69 ::
    (0xc0 + 8 * (dest.val % 8) + src.val % 8) :: immBytes32 imm) = _
  rw [decodeInsn_rexByte]
  show ((decodeModRM (rexPrefixes dest src) _).bind _ : Option (MachineInsn × List Nat)) = _
  rw [decodeModRM_regReg]
  simp [decodeImm_immBytes32, Prefixes.rm, reg64]
  simp [rexPrefixes]

theorem decodeInsn_emitImmAndReg :
    decodeInsn (emitImmAndReg imm dest) =
      some (⟨.and, false, [reg64 dest, .immediate (imm.signExtend 64)]⟩, []) :=
  decodeInsn_regImm dest 4 (fun _ => rfl) (by decide) rfl (decodeImm_immBytes32 imm)

theorem decodeInsn_emitImmOrReg :
    decodeInsn (emitImmOrReg imm dest) =
      some (⟨.or, false, [reg64 dest, .immediate (imm.signExtend 64)]⟩, []) :=
  decodeInsn_regImm dest 1 (fun _ => rfl) (by decide) rfl (decodeImm_immBytes32 imm)

theorem decodeInsn_emitCompareImmReg :
    decodeInsn (regBytes 0x81 0xf8 reg ++ bytes32 value) =
      some (⟨.cmp, false, [reg64 reg, .immediate (signExtend32 value)]⟩, []) :=
  decodeInsn_regImm reg 7 (fun _ => rfl) (by decide) rfl (decodeImm_bytes32 value)

theorem decodeInsn_emitMoveImmToReg :
    decodeInsn (regBytes 0xc7 0xc0 reg ++ bytes32 value) =
      some (⟨.mov, false, [reg64 reg, .immediate (signExtend32 value)]⟩, []) :=
  decodeInsn_regImm reg 0 (fun _ => rfl) (by decide) rfl (decodeImm_bytes32 value)

theorem decodeInsn_emitShiftRightLogical :
    decodeInsn (emitShiftRightLogical imm8 reg) =
      some (⟨.shr, false, [reg64 reg, .immediate (imm8.signExtend 64)]⟩, []) :=
  decodeInsn_regImm reg 5 (fun _ => rfl) (by decide) rfl (decodeImm_byte imm8)

theorem decodeInsn_emitShiftLeftLogical :
    decodeInsn (emitShiftLeftLogical imm8 reg) =
      some (⟨.shl, false, [reg64 reg, .immediate (imm8.signExtend 64)]⟩, []) :=
  decodeInsn_regImm reg 4 (fun _ => rfl) (by decide) rfl (decodeImm_byte imm8)

theorem decodeInsn_emitRegAddImm4Byte (hreg : reg.val ≠ 0) :
    decodeInsn (emitRegAddImm4Byte reg imm) =
      some (⟨.add, false, [reg64 reg, .immediate (imm.signExtend 64)]⟩, []) := by
  rw [emitRegAddImm4Byte, if_neg hreg]
  exact decodeInsn_regImm reg 0 (fun _ => rfl) (by decide) rfl (decodeImm_immBytes32 imm)

/-- Of RAX only the operation is left: the bytes of the immediate are ModRM and the first three of
the four that an immediate has. -/
theorem decodeInsn_emitRegAddImm4Byte_rax : decodeInsn (emitRegAddImm4Byte 0 imm) = none :=
  Prefixes.decodeRmImm_short (rexPrefixes 0 0) group1 (Nat.le_refl 4)

/-- The upper registers are written as the lower ones. -/
theorem decodeInsn_emitRegSubImm4Byte :
    decodeInsn ([0x48, 0x81, 0xe8 + reg.val % 8] ++ immBytes32 imm) =
      some (⟨.sub, false, [.gpr 64 (reg.val % 8), .immediate (imm.signExtend 64)]⟩, []) := by
  have hlow : reg.val % 8 < 16 := by omega
  have h : decodeInsn (regBytes 0x81 0xe8 ⟨reg.val % 8, hlow⟩ ++ immBytes32 imm) = _ :=
    decodeInsn_regImm _ 5 (fun _ => rfl) (by decide) rfl (decodeImm_immBytes32 imm)
  rw [regBytes, if_pos (field_lt reg)] at h
  simpa using h

theorem decodeInsn_emitMoveSegmentRegToReg (seg : Fin 6) :
    decodeInsn (emitMoveSegmentRegToReg seg dest) =
      some (⟨.mov, false, [reg64 dest, .segmentReg seg.val]⟩, []) := by
  rw [emitMoveSegmentRegToReg, regBytes_eq, decodeInsn_rexByte]
  show ((decodeModRM (rexPrefixes 0 dest) _).bind _ : Option (MachineInsn × List Nat)) = _
  rw [decodeModRM_ext (by omega)]
  rfl

/-! ### A base register and four bytes -/

/-- The bytes of `regaddrImmBytes`, and a `tail` behind them, after the REX prefix. -/
theorem decodeInsn_regaddrImm (opcode r : Nat) (addr : Fin 16) {p : Prefixes} {rex : Nat}
    (hrex : ∀ rest, decodeInsn (rex :: rest) = p.decodeOpcode rest) (tail : List Nat) :
    decodeInsn (regaddrImmBytes rex opcode r addr.val value ++ tail) =
      p.decodeOpcode (opcode :: (0x80 + 8 * (r % 8) + addr.val % 8) ::
        (sibBytes addr.val ++ (bytes32 value ++ tail))) := by
  rw [← hrex, regaddrImmBytes]
  simp

theorem decodeInsn_emitMoveRegaddrImmToReg :
    decodeInsn (emitMoveRegaddrImmToReg src value dest) =
      some (⟨.mov, false, [reg64 dest, behind 64 src (signExtend32 value)]⟩, []) := by
  have h := decodeInsn_regaddrImm value 0x8b dest.val src (decodeInsn_rexByte dest src) []
  rw [List.append_nil] at h
  rw [emitMoveRegaddrImmToReg, h]
  show (rexPrefixes dest src).decodeRegRm .mov _ = _
  rw [Prefixes.decodeRegRm, decodeModRM_regaddrImm rfl rfl (field_lt dest)]
  simp [Prefixes.rm, Prefixes.memory, reg64, behind]
  simp [rexPrefixes]

theorem decodeInsn_emitMoveRegToRegaddrImm (source64Bit : Bool) :
    decodeInsn (emitMoveRegToRegaddrImm src dest value source64Bit) =
      some (⟨.mov, false, [behind (if source64Bit then 64 else 32) dest (signExtend32 value),
        .gpr (if source64Bit then 64 else 32) src.val]⟩, []) := by
  have hsrc := src.isLt
  have hdest := dest.isLt
  let w := if source64Bit then 1 else 0
  let p : Prefixes := { w := w, r := src.val / 8, b := dest.val / 8 }
  have hbyte : (if src.val < 8 then 0x40 else 0x44) + (if source64Bit then 0x08 else 0) +
      (if dest.val < 8 then 0 else 1) =
      0x40 + 8 * w + 4 * (src.val / 8) + 2 * 0 + dest.val / 8 := by
    have hr : (if src.val < 8 then 0x40 else 0x44) = 0x40 + 4 * (src.val / 8) := by
      split <;> omega
    have hb : (if dest.val < 8 then 0 else 1) = dest.val / 8 := by
      split <;> omega
    have h64 : (if source64Bit then 0x08 else 0) = 8 * w := by
      cases source64Bit <;> rfl
    rw [hr, hb, h64]
    omega
  have hw : w < 2 := by cases source64Bit <;> decide
  have hrex : ∀ rest, decodeInsn ((0x40 + 8 * w + 4 * (src.val / 8) + 2 * 0 + dest.val / 8) ::
      rest) = p.decodeOpcode rest :=
    decodeInsn_rex hw (by omega) (by decide) (by omega)
  have h := decodeInsn_regaddrImm value 0x89 src.val dest hrex []
  rw [List.append_nil] at h
  rw [emitMoveRegToRegaddrImm, hbyte, h]
  show p.decodeRmReg .mov _ = _
  rw [Prefixes.decodeRmReg, decodeModRM_regaddrImm rfl rfl (field_lt src)]
  cases source64Bit <;>
    simp [p, w, Prefixes.rm, Prefixes.memory, Prefixes.bits, Prefixes.insn, behind]

/-- The address is one of 32 bits. -/
theorem decodeInsn_emitMoveImmToRegaddrImm (imm : BitVec 64) :
    decodeInsn (emitMoveImmToRegaddrImm imm dest value) =
      some (⟨.mov, false, [.memory none 32 64 (.based dest.val (signExtend32 value)),
        .immediate (signExtend32 imm)]⟩, []) := by
  let p : Prefixes := { rexPrefixes 0 dest with address32 := true }
  have hbytes : emitMoveImmToRegaddrImm imm dest value =
      0x67 :: rexByte 0 dest :: 0xc7 :: (0x80 + 8 * 0 + dest.val % 8) ::
        (sibBytes dest.val ++ (bytes32 value ++ bytes32 imm)) := by
    simp only [emitMoveImmToRegaddrImm, regaddrImmBytes, rexByte]
    split <;> simp
  have hopcode : decodeInsn (emitMoveImmToRegaddrImm imm dest value) =
      p.decodeRmImm [.mov] 4 ((0x80 + 8 * 0 + dest.val % 8) ::
        (sibBytes dest.val ++ (bytes32 value ++ bytes32 imm))) := by
    rw [hbytes]
    show (({ address32 := true } : Prefixes).decode (rexByte 0 dest :: _)).1.decodeOpcode
      (({ address32 := true } : Prefixes).decode (rexByte 0 dest :: _)).2 = _
    rw [decode_rexByte]
    rfl
  rw [hopcode, Prefixes.decodeRmImm, decodeModRM_regaddrImm rfl rfl (by decide)]
  simp [decodeImm_bytes32, Prefixes.rm, Prefixes.memory, p]
  simp [rexPrefixes, Prefixes.bits, Prefixes.insn]

theorem decodeInsn_addToRegaddrImm {opcode n : Nat} {v : BitVec 64} {tail : List Nat}
    (hlegacy : ({} : Prefixes).legacy opcode = none) (hrex : opcode / 16 ≠ 4)
    (hopcode : ∀ rest, (upperPrefixes reg).decodeOpcode (opcode :: rest) =
      (upperPrefixes reg).decodeRmImm group1 n rest)
    (htail : decodeImm n tail = some (v, [])) :
    decodeInsn (addToRegaddrImmBytes opcode reg imm ++ tail) =
      some (⟨.add, false, [behind 32 reg (imm.signExtend 64), .immediate v]⟩, []) := by
  have hbytes : addToRegaddrImmBytes opcode reg imm ++ tail =
      (if 8 ≤ reg.val then [0x41] else []) ++ opcode :: (0x80 + 8 * 0 + reg.val % 8) ::
        (sibBytes reg.val ++ (bytes32 (imm.setWidth 64) ++ tail)) := by
    simp [addToRegaddrImmBytes, immBytes32]
  rw [hbytes, decodeInsn_upper reg hlegacy hrex, hopcode, Prefixes.decodeRmImm,
    decodeModRM_regaddrImm rfl rfl (by decide)]
  simp [htail, group1, signExtend32_setWidth, Prefixes.rm, Prefixes.memory, behind]
  simp [upperPrefixes, Prefixes.bits, Prefixes.insn]

theorem decodeInsn_emitAddImmToRegaddrImm (b : BitVec 32) :
    decodeInsn (emitAddImmToRegaddrImm b reg imm) =
      some (⟨.add, false, [behind 32 reg (imm.signExtend 64), .immediate (b.signExtend 64)]⟩, []) :=
  decodeInsn_addToRegaddrImm reg imm rfl (by decide) (fun _ => rfl) (decodeImm_immBytes32 b)

theorem decodeInsn_emitAddImmByteToRegaddrImm :
    decodeInsn (emitAddImmByteToRegaddrImm imm8 reg imm) =
      some (⟨.add, false,
        [behind 32 reg (imm.signExtend 64), .immediate (imm8.signExtend 64)]⟩, []) :=
  decodeInsn_addToRegaddrImm reg imm rfl (by decide) (fun _ => rfl) (decodeImm_byte imm8)

theorem decodeInsn_emitMoveRegToRegaddrImm4Byte (src dest : Fin 8) :
    decodeInsn (emitMoveRegToRegaddrImm4Byte src dest value) =
      some (⟨.mov, false, [behind 64 (dest.castLE (by decide)) (signExtend32 value),
        reg64 (src.castLE (by decide))]⟩, []) := by
  have hsrc := src.isLt
  have hdest := dest.isLt
  have h := decodeInsn_emitMoveRegToRegaddrImm (src.castLE (by decide)) (dest.castLE (by decide))
    value true
  rw [emitMoveRegToRegaddrImm] at h
  simpa [emitMoveRegToRegaddrImm4Byte, hsrc, hdest, reg64] using h

/-- With one byte the displacement is the low byte. -/
theorem decodeInsn_emitMoveRegToRegaddrImm1Byte (src dest : Fin 8) :
    decodeInsn (emitMoveRegToRegaddrImm1Byte src dest value) =
      some (⟨.mov, false, [behind 64 (dest.castLE (by decide)) ((value.setWidth 8).signExtend 64),
        reg64 (src.castLE (by decide))]⟩, []) := by
  have hbyte : BitVec.ofNat 8 (value.toNat % 256) = value.setWidth 8 := by
    apply BitVec.eq_of_toNat_eq
    rw [BitVec.toNat_ofNat, BitVec.toNat_setWidth, Nat.mod_mod]
  have hdisp : [value.toNat % 256].length = if 1 = 0 then 0 else if 1 = 1 then 1 else 4 := rfl
  have hmodrm := decodeModRM_based (p := rexPrefixes 0 0) (by decide : 1 < 3) src.isLt hdisp rfl
    dest.isLt (by simp) []
  have hoffset : decodeOffset (8 * [value.toNat % 256].length) [value.toNat % 256] =
      some ((value.setWidth 8).signExtend 64) := by
    rw [← hbyte]
    rfl
  have hbytes : emitMoveRegToRegaddrImm1Byte src dest value =
      rexByte 0 0 :: 0x89 :: (64 * 1 + 8 * src.val + dest.val) ::
        ((if dest.val = 4 then [0x24] else []) ++ ([value.toNat % 256] ++ [])) := by
    simp [emitMoveRegToRegaddrImm1Byte, rexByte, Nat.mul_comm]
  rw [hoffset] at hmodrm
  rw [hbytes, decodeInsn_rexByte]
  show (rexPrefixes 0 0).decodeRmReg .mov _ = _
  rw [Prefixes.decodeRmReg, hmodrm]
  rfl

theorem decodeOpcode_lea (p : Prefixes) (rest : List Nat) :
    p.decodeOpcode (0x8d :: rest) = p.decodeMem (fun reg op =>
      some (p.insn .lea [.gpr p.bits (reg + 8 * p.r), p.memory p.bits op])) rest :=
  rfl

/-- The registers are exchanged, and R12 as `dest` lacks a SIB byte, so that the displacement is
taken for one. -/
theorem decodeInsn_emitLoadRegImmReg :
    decodeInsn (emitLoadRegImmReg src value dest) =
      if dest.val = 12 then none
      else some (⟨.lea, false, [reg64 src, behind 64 dest (signExtend32 value)]⟩, []) := by
  have hdest := dest.isLt
  have hbytes : emitLoadRegImmReg src value dest =
      rexByte src dest :: 0x8d :: (0x80 + 8 * (src.val % 8) + dest.val % 8) ::
        ((if dest.val = 4 then [0x24] else []) ++ bytes32 value) := by
    simp [emitLoadRegImmReg]
  rw [hbytes, decodeInsn_rexByte]
  rw [decodeOpcode_lea, Prefixes.decodeMem]
  by_cases h12 : dest.val = 12
  · rw [if_pos h12, if_neg (by omega), h12, List.nil_append,
      show 0x80 + 8 * (src.val % 8) + 12 % 8 = 64 * 2 + 8 * (src.val % 8) + 4 by omega,
      decodeModRM_sib _ (field_lt src) (by decide), decodeWithSib_short _ (by simp [bytes32])]
    rfl
  · have hsib : (if dest.val = 4 then [0x24] else []) = sibBytes dest.val := by
      unfold sibBytes
      split <;> split <;> first | rfl | omega
    have hmodrm := decodeModRM_regaddrImm (p := rexPrefixes src dest) rfl rfl (field_lt src) value []
    rw [List.append_nil] at hmodrm
    rw [if_neg h12, hsib, hmodrm]
    simp [Prefixes.memory, reg64, behind]
    simp [rexPrefixes]

theorem decodeInsn_emitLoadRipImmToReg :
    decodeInsn (emitLoadRipImmToReg imm dest) =
      some (⟨.lea, false,
        [reg64 dest, .memory none 64 64 (.ripRelative (imm.signExtend 64))]⟩, []) := by
  have hbytes : emitLoadRipImmToReg imm dest =
      rexByte dest 0 :: 0x8d :: (0x05 + 8 * (dest.val % 8)) :: (bytes32 (imm.setWidth 64) ++ []) := by
    simp [emitLoadRipImmToReg, immBytes32, rexByte]
  rw [hbytes, decodeInsn_rexByte, decodeOpcode_lea, Prefixes.decodeMem,
    decodeModRM_ripRelative (field_lt dest), signExtend32_setWidth]
  simp [Prefixes.memory, reg64]
  simp [rexPrefixes]

/-- For RSP there is one byte too many. -/
theorem decodeInsn_emitLoadRipImmReg (hsp : dest.val ≠ 4) :
    decodeInsn (emitLoadRipImmReg value dest) =
      some (⟨.lea, false, [reg64 dest, .memory none 64 64 (.ripRelative (signExtend32 value))]⟩,
        []) := by
  have hbytes : emitLoadRipImmReg value dest =
      rexByte dest dest :: 0x8d :: (0x05 + 8 * (dest.val % 8)) :: (bytes32 value ++ []) := by
    simp [emitLoadRipImmReg, hsp]
  rw [hbytes, decodeInsn_rexByte, decodeOpcode_lea, Prefixes.decodeMem,
    decodeModRM_ripRelative (field_lt dest)]
  simp [Prefixes.memory, reg64]
  simp [rexPrefixes]

theorem decodeInsn_emitLoadRipImmReg_rsp (i : MachineInsn) :
    decodeInsn (emitLoadRipImmReg value 4) ≠ some (i, []) := by
  have hmodrm := decodeModRM_rm (rexPrefixes 4 4) (by decide : 4 < 8) (by decide : 0 < 3)
    (by decide : 5 < 8) (by decide) (0x24 :: bytes32 value)
  have hbytes : emitLoadRipImmReg value 4 =
      rexByte 4 4 :: 0x8d :: (64 * 0 + 8 * 4 + 5) :: 0x24 :: bytes32 value := rfl
  rw [hbytes, decodeInsn_rexByte, decodeOpcode_lea, Prefixes.decodeMem, hmodrm]
  cases decodeRm 0 (rexPrefixes 4 4).b 5
    ((0x24 :: bytes32 value).take (displacementBytes 0 (0 = 0 ∧ 5 = 5))) with
  | none => nofun
  | some op =>
    -- the last byte of the displacement is left
    intro h
    exact absurd (congrArg Prod.snd (Option.some.inj h)) (List.cons_ne_nil _ _)

theorem decodeInsn_rexW {rex : Nat} (h : rex / 8 = 9) (rest : List Nat) :
    decodeInsn (rex :: rest) =
      ({ w := 1, r := rex / 4 % 2, x := rex / 2 % 2, b := rex % 2 } : Prefixes).decodeOpcode
        rest := by
  have hfields : 0x40 + 8 * 1 + 4 * (rex / 4 % 2) + 2 * (rex / 2 % 2) + rex % 2 = rex := by omega
  have hdecode := decodeInsn_rex (by decide : 1 < 2) (Nat.mod_lt (rex / 4) Nat.two_pos)
    (Nat.mod_lt (rex / 2) Nat.two_pos) (Nat.mod_lt rex Nat.two_pos) rest
  rwa [hfields] at hdecode

/-- What `decodeLea` reads is the instruction. -/
theorem decodeInsn_of_decodeLea {bytes : List Nat} {reg : Nat} {op : MemoryOperand}
    (h : decodeLea bytes = some (reg, op)) :
    decodeInsn bytes = some (⟨.lea, false, [.gpr 64 reg, .memory none 64 64 op]⟩, []) := by
  unfold decodeLea at h
  split at h
  · rename_i rex modrm rest
    split_ifs at h with hrex hsib
    · -- with a SIB byte
      cases rest with
      | nil => cases h
      | cons sib rest =>
        obtain ⟨op, hop, heq⟩ := Option.map_eq_some_iff.mp h
        cases heq
        rw [decodeInsn_rexW hrex.1, decodeOpcode_lea, Prefixes.decodeMem, decodeModRM]
        dsimp only
        rw [if_neg hrex.2, if_pos hsib, decodeWithSib]
        dsimp only
        rw [← decodeSib_length (by omega) hop, List.take_length, List.drop_length, hop]
        rfl
    · obtain ⟨op, hop, heq⟩ := Option.map_eq_some_iff.mp h
      cases heq
      rw [decodeInsn_rexW hrex.1, decodeOpcode_lea, Prefixes.decodeMem, decodeModRM]
      dsimp only
      rw [if_neg hrex.2, if_neg hsib, ← decodeRm_length hop, List.take_length, List.drop_length, hop]
      rfl
  · cases h

/-! ### A base register only -/

theorem regaddrBytes_eq (opcode : Nat) (addr reg : Fin 16) :
    regaddrBytes opcode addr reg = rexByte reg addr :: opcode ::
      (addr.val % 8 + 8 * (reg.val % 8) + (if addr.val % 8 = 5 then 0x40 else 0)) ::
      (sibBytes addr.val ++ ((if addr.val % 8 = 5 then [0x00] else []) ++ [])) := by
  have hrex : 0x48 + (if 8 ≤ addr.val then 1 else 0) + (if 8 ≤ reg.val then 4 else 0) =
      rexByte reg addr := by
    unfold rexByte
    split <;> split <;> split <;> split <;> omega
  rw [regaddrBytes, hrex]
  simp

theorem decodeInsn_emitMoveRegToRegaddr :
    decodeInsn (emitMoveRegToRegaddr src dest) =
      some (⟨.mov, false, [behind 64 dest 0, reg64 src]⟩, []) := by
  rw [emitMoveRegToRegaddr, regaddrBytes_eq, decodeInsn_rexByte]
  show (rexPrefixes src dest).decodeRmReg .mov _ = _
  rw [Prefixes.decodeRmReg, decodeModRM_regaddr rfl rfl (field_lt src)]
  simp [Prefixes.rm, Prefixes.memory, reg64, behind]
  simp [rexPrefixes]

theorem decodeInsn_emitMoveRegaddrToReg :
    decodeInsn (emitMoveRegaddrToReg src dest) =
      some (⟨.mov, false, [reg64 dest, behind 64 src 0]⟩, []) := by
  rw [emitMoveRegaddrToReg, regaddrBytes_eq, decodeInsn_rexByte]
  show (rexPrefixes dest src).decodeRegRm .mov _ = _
  rw [Prefixes.decodeRegRm, decodeModRM_regaddr rfl rfl (field_lt dest)]
  simp [Prefixes.rm, Prefixes.memory, reg64, behind]
  simp [rexPrefixes]

theorem decodeOpcode_fx (p : Prefixes) (rest : List Nat) :
    p.decodeOpcode (0x0f :: 0xae :: rest) = p.decodeMem (fun reg op =>
      if reg = 0 then some (p.insn .fxsave [p.memory 4096 op])
      else if reg = 1 then some (p.insn .fxrstor [p.memory 4096 op])
      else none) rest :=
  rfl

/-- `ext` is 0 for `fxsave` and 1 for `fxrstor`. -/
theorem decodeInsn_fxBytes {ext : Nat} (hext : ext < 2) :
    decodeInsn (fxBytes (8 * ext) reg) =
      if reg.val % 8 = 5 then none
      else some (⟨if ext = 0 then .fxsave else .fxrstor, false, [behind 4096 reg 0]⟩, []) := by
  have hbytes : fxBytes (8 * ext) reg = (if 8 ≤ reg.val then [0x41] else []) ++
      0x0f :: 0xae :: (8 * ext + reg.val % 8) :: (sibBytes reg.val ++ []) := by
    simp [fxBytes]
  rw [hbytes, decodeInsn_upper reg rfl (by decide), decodeOpcode_fx, Prefixes.decodeMem]
  by_cases hbp : reg.val % 8 = 5
  · rw [if_pos hbp, hbp, sibBytes, hbp, decodeModRM_ripRelative_short _ (by omega) (by decide)]
    rfl
  · rw [if_neg hbp, decodeModRM_indirect rfl rfl (by omega) hbp]
    obtain rfl | rfl : ext = 0 ∨ ext = 1 := by omega
    · rfl
    · rfl

/-! ### An address -/

theorem memBytes_eq (opcode : Nat) (reg : Fin 16) (addr : BitVec 64) :
    memBytes opcode reg addr = rexByte reg 0 :: opcode :: (0x04 + 8 * (reg.val % 8)) :: 0x25 ::
      (bytes32 addr ++ []) := by
  simp [memBytes, rexByte]

theorem decodeInsn_emitMoveRegToMem :
    decodeInsn (memBytes 0x89 src value) =
      some (⟨.mov, false, [.memory none 64 64 (.absolute (signExtend32 value)), reg64 src]⟩, []) := by
  rw [memBytes_eq, decodeInsn_rexByte]
  show (rexPrefixes src 0).decodeRmReg .mov _ = _
  rw [Prefixes.decodeRmReg, decodeModRM_absolute (field_lt src) rfl rfl]
  simp [Prefixes.rm, Prefixes.memory, reg64]
  simp [rexPrefixes]

theorem decodeInsn_emitMoveMemToReg :
    decodeInsn (memBytes 0x8b dest value) =
      some (⟨.mov, false, [reg64 dest, .memory none 64 64 (.absolute (signExtend32 value))]⟩,
        []) := by
  rw [memBytes_eq, decodeInsn_rexByte]
  show (rexPrefixes dest 0).decodeRegRm .mov _ = _
  rw [Prefixes.decodeRegRm, decodeModRM_absolute (field_lt dest) rfl rfl]
  simp [Prefixes.rm, Prefixes.memory, reg64]
  simp [rexPrefixes]

theorem decodeInsn_emitMoveMemToReg_32 {reg : Nat} (hreg : reg < 8) :
    decodeInsn ([0x8b, 0x04 + 8 * reg, 0x25] ++ bytes32 value) =
      some (⟨.mov, false, [.gpr 32 reg, .memory none 64 32 (.absolute (signExtend32 value))]⟩,
        []) := by
  have hmodrm := decodeModRM_absolute (p := {}) hreg rfl rfl value []
  rw [List.append_nil] at hmodrm
  show ({} : Prefixes).decodeRegRm .mov _ = _
  rw [Prefixes.decodeRegRm]
  show ((decodeModRM {} ((0x04 + 8 * reg) :: 0x25 :: bytes32 value)).bind _ :
    Option (MachineInsn × List Nat)) = _
  rw [hmodrm]
  rfl

theorem decodeInsn_emitMoveTLSOffsetToReg :
    decodeInsn (emitMoveTLSOffsetToReg imm dest) =
      some (⟨.mov, false,
        [reg64 dest, .memory (some 4) 64 64 (.absolute (imm.signExtend 64))]⟩, []) := by
  let p : Prefixes := { rexPrefixes dest 0 with segmentReg := some 4 }
  have hopcode : decodeInsn (emitMoveTLSOffsetToReg imm dest) =
      p.decodeRegRm .mov ((0x04 + 8 * (dest.val % 8)) :: 0x25 ::
        (bytes32 (imm.setWidth 64) ++ [])) := by
    rw [emitMoveTLSOffsetToReg, memBytes_eq]
    show (({ segmentReg := some 4 } : Prefixes).decode (rexByte dest 0 :: _)).1.decodeOpcode
      (({ segmentReg := some 4 } : Prefixes).decode (rexByte dest 0 :: _)).2 = _
    rw [decode_rexByte]
    rfl
  rw [hopcode, Prefixes.decodeRegRm, decodeModRM_absolute (field_lt dest) rfl rfl,
    signExtend32_setWidth]
  simp [p, Prefixes.rm, Prefixes.memory, Prefixes.bits, Prefixes.insn, reg64, rexPrefixes]

theorem decodeOpcode_movsd (p : Prefixes) (hp : p.repeated = some 0xf2) (rest : List Nat) :
    p.decodeOpcode (0x0f :: 0x10 :: rest) = p.decodeMem (fun reg op =>
      some (p.insn .movsd [.xmm (reg + 8 * p.r), p.memory 64 op])) rest := by
  show (if p.repeated = some 0xf2 then _ else none) = _
  rw [if_pos hp]

theorem decodeInsn_emitMoveMemToXMMReg (xmm : Fin 16) :
    decodeInsn ((if xmm.val < 8 then [0xf2, 0x0f, 0x10] else [0xf2, 0x44, 0x0f, 0x10]) ++
        [0x04 + 0x08 * (xmm.val % 8), 0x25] ++ bytes32 value) =
      some (⟨.movsd, false,
        [.xmm xmm.val, .memory none 64 64 (.absolute (signExtend32 value))]⟩, []) := by
  have hxmm := xmm.isLt
  let p : Prefixes := { repeated := some 0xf2, r := xmm.val / 8 }
  have hopcode : decodeInsn ((if xmm.val < 8 then [0xf2, 0x0f, 0x10] else [0xf2, 0x44, 0x0f, 0x10]) ++
      [0x04 + 0x08 * (xmm.val % 8), 0x25] ++ bytes32 value) =
      p.decodeOpcode (0x0f :: 0x10 :: (0x04 + 8 * (xmm.val % 8)) :: 0x25 ::
        (bytes32 value ++ [])) := by
    rw [List.append_nil]
    by_cases hlow : xmm.val < 8
    · rw [if_pos hlow, show p = { repeated := some 0xf2 } by simp [p]; omega]
      rfl
    · rw [if_neg hlow, show p = { repeated := some 0xf2, r := 1 } by simp [p]; omega]
      rfl
  rw [hopcode, decodeOpcode_movsd p rfl, Prefixes.decodeMem,
    decodeModRM_absolute (field_lt xmm) rfl rfl]
  simp [p, Prefixes.memory, Prefixes.insn]

theorem decodeInsn_emitAddImmToMem :
    decodeInsn (emitAddImmToMem imm value) =
      some (⟨.add, false, [.memory none 64 64 (.absolute (signExtend32 value)),
        .immediate (imm.signExtend 64)]⟩, []) := by
  have hmodrm := decodeModRM_absolute (p := rexPrefixes 0 0) (by decide : 0 < 8) rfl rfl value
    (immBytes32 imm)
  show (rexPrefixes 0 0).decodeRmImm group1 4 ((0x04 + 8 * 0) :: 0x25 ::
    (bytes32 value ++ immBytes32 imm)) = _
  rw [Prefixes.decodeRmImm, hmodrm]
  simp [decodeImm_immBytes32, group1, Prefixes.rm, Prefixes.memory]
  simp [rexPrefixes]

/-! ### The opcode alone -/

theorem legacy_none {p : Prefixes} {byte : Nat} (hlow : 0x3f ≤ byte) (hhigh : byte < 0xf0)
    (h6 : byte / 16 ≠ 6) : p.legacy byte = none := by
  unfold Prefixes.legacy
  repeat rw [if_neg (by omega)]

theorem decodeInsn_plain {byte : Nat} (hlow : 0x50 ≤ byte) (hhigh : byte < 0xf0)
    (h6 : byte / 16 ≠ 6) (rest : List Nat) :
    decodeInsn (byte :: rest) = ({} : Prefixes).decodeOpcode (byte :: rest) := by
  rw [decodeInsn, Prefixes.decode_opcode _ (legacy_none (by omega) hhigh h6) (by omega)]

theorem decodeOpcode_push (p : Prefixes) {r : Nat} (hr : r < 8) (rest : List Nat) :
    p.decodeOpcode ((0x50 + r) :: rest) =
      some (p.insn .push [.gpr p.stackBits (r + 8 * p.b)], rest) := by
  rw [Prefixes.decodeOpcode]
  dsimp only
  rw [if_pos (by omega), show (0x50 + r) % 8 = r by omega]

theorem decodeOpcode_pop (p : Prefixes) {r : Nat} (hr : r < 8) (rest : List Nat) :
    p.decodeOpcode ((0x58 + r) :: rest) =
      some (p.insn .pop [.gpr p.stackBits (r + 8 * p.b)], rest) := by
  rw [Prefixes.decodeOpcode]
  dsimp only
  rw [if_neg (by omega), if_pos (by omega), show (0x58 + r) % 8 = r by omega]

theorem decodeOpcode_movImm (p : Prefixes) {r : Nat} (hr : r < 8) (rest : List Nat) :
    p.decodeOpcode ((0xb8 + r) :: rest) =
      (decodeImm (p.bits / 8) rest).map fun (value, rest) =>
        (p.insn .mov [.gpr p.bits (r + 8 * p.b), .immediate value], rest) := by
  rw [Prefixes.decodeOpcode]
  dsimp only
  rw [if_neg (by omega), if_neg (by omega), if_neg (by omega), if_pos (by omega),
    show (0xb8 + r) % 8 = r by omega]

theorem decodeInsn_emitStackPush :
    decodeInsn (emitStackPush reg) = some (⟨.push, false, [reg64 reg]⟩, []) := by
  have hreg := reg.isLt
  have hbytes : emitStackPush reg =
      (if 8 ≤ reg.val then [0x41] else []) ++ (0x50 + reg.val % 8) :: [] := by
    unfold emitStackPush
    by_cases hlow : reg.val < 8
    · rw [if_pos hlow, if_neg (by omega), Nat.mod_eq_of_lt hlow]
      rfl
    · rw [if_neg hlow, if_pos (by omega), show 0x48 + reg.val = 0x50 + reg.val % 8 by omega]
      rfl
  rw [hbytes, decodeInsn_upper reg (legacy_none (by omega) (by omega) (by omega)) (by omega),
    decodeOpcode_push _ (field_lt reg)]
  simp [upperPrefixes, Prefixes.stackBits, Prefixes.insn, reg64]

theorem decodeInsn_emitStackPop :
    decodeInsn (emitStackPop reg) = some (⟨.pop, false, [reg64 reg]⟩, []) := by
  have hreg := reg.isLt
  have hbytes : emitStackPop reg =
      (if 8 ≤ reg.val then [0x41] else []) ++ (0x58 + reg.val % 8) :: [] := by
    unfold emitStackPop
    by_cases hlow : reg.val < 8
    · rw [if_pos hlow, if_neg (by omega), Nat.mod_eq_of_lt hlow]
      rfl
    · rw [if_neg hlow, if_pos (by omega), show 0x50 + reg.val = 0x58 + reg.val % 8 by omega]
      rfl
  rw [hbytes, decodeInsn_upper reg (legacy_none (by omega) (by omega) (by omega)) (by omega),
    decodeOpcode_pop _ (field_lt reg)]
  simp [upperPrefixes, Prefixes.stackBits, Prefixes.insn, reg64]

/-- In 64-bit mode the prefix makes it two bytes. -/
theorem decodeInsn_emitStackPush4Byte (idx : Fin 8) :
    decodeInsn (emitStackPush4Byte idx) = some (⟨.push, false, [.gpr 16 idx.val]⟩, []) := by
  have hidx := idx.isLt
  let p : Prefixes := { operand16 := true }
  have hopcode : decodeInsn (emitStackPush4Byte idx) = p.decodeOpcode [0x50 + idx.val] := by
    show (p.decode [0x50 + idx.val]).1.decodeOpcode (p.decode [0x50 + idx.val]).2 = _
    rw [p.decode_opcode (legacy_none (by omega) (by omega) (by omega)) (by omega)]
  rw [hopcode, decodeOpcode_push p hidx]
  rfl

theorem decodeInsn_emitMoveImm64ToReg :
    decodeInsn (emitMoveImm64ToReg value dest) =
      some (⟨.mov, false, [reg64 dest, .immediate value]⟩, []) := by
  have hbytes : emitMoveImm64ToReg value dest =
      rexByte 0 dest :: (0xb8 + dest.val % 8) :: bytes64 value := by
    simp only [emitMoveImm64ToReg, rexByte]
    split <;> rfl
  rw [hbytes, decodeInsn_rexByte, decodeOpcode_movImm _ (field_lt dest)]
  rw [rexPrefixes_bits, decodeImm_bytes64]
  simp [reg64]
  simp [rexPrefixes]

theorem decodeInsn_emitXorRegReg (src dest : Fin 8) :
    decodeInsn (emitXorRegReg src dest) =
      some (⟨.xor, false, [.gpr 64 dest.val, .gpr 64 src.val]⟩, []) := by
  have hmodrm := decodeModRM_reg (rexPrefixes 0 0) src.isLt dest.isLt []
  rw [show 0xc0 + 8 * src.val + dest.val = 0xc0 + dest.val + 8 * src.val by omega] at hmodrm
  show (rexPrefixes 0 0).decodeRmReg .xor _ = _
  rw [Prefixes.decodeRmReg, hmodrm]
  rfl

end X86InstructionFactory64

/-! ### The encoders for both modes -/

namespace X86InstructionFactory

open X86InstructionFactory64

theorem decodeInsn_emitMoveImmByteToReg (imm : BitVec 8) (idx : Fin 8) :
    decodeInsn (emitMoveImmByteToReg imm idx) =
      if 3 < idx.val then some (⟨.mov, false, [.gpr 16 idx.val, .immediate (imm.setWidth 64)]⟩, [])
      else some (⟨.mov, false, [.gpr 8 idx.val, .immediate (imm.signExtend 64)]⟩, []) := by
  have hidx := idx.isLt
  unfold emitMoveImmByteToReg
  by_cases hhigh : 3 < idx.val
  · let p : Prefixes := { operand16 := true }
    rw [if_pos hhigh, if_pos hhigh]
    show (p.decode [0xb8 + idx.val, imm.toNat, 0x00]).1.decodeOpcode
      (p.decode [0xb8 + idx.val, imm.toNat, 0x00]).2 = _
    rw [p.decode_opcode (legacy_none (by omega) (by omega) (by omega)) (by omega)]
    have hlt := imm.isLt
    have hmsb : (BitVec.ofNat 16 (valueOfBytes [imm.toNat, 0x00])).msb = false := by
      rw [BitVec.msb_eq_false_iff_two_mul_lt, BitVec.toNat_ofNat]
      simp only [valueOfBytes]
      omega
    have hvalue : (BitVec.ofNat 16 (valueOfBytes [imm.toNat, 0x00])).signExtend 64 =
        imm.setWidth 64 := by
      rw [BitVec.signExtend_eq_setWidth_of_msb_false hmsb]
      apply BitVec.eq_of_toNat_eq
      simp only [BitVec.toNat_setWidth, BitVec.toNat_ofNat, valueOfBytes]
      omega
    have himm : decodeImm 2 [imm.toNat, 0x00] = some (imm.setWidth 64, []) :=
      congrArg (fun v => some (v, [])) hvalue
    dsimp only
    rw [decodeOpcode_movImm p hidx, show p.bits / 8 = 2 by simp [p, Prefixes.bits], himm]
    rfl
  · rw [if_neg hhigh, if_neg hhigh, decodeInsn_plain (by omega) (by omega) (by omega),
      Prefixes.decodeOpcode]
    dsimp only
    rw [if_neg (by omega), if_neg (by omega), if_pos (by omega), decodeImm_byte,
      show (0xb0 + idx.val) % 8 = idx.val by omega]
    rfl

/-- In 64-bit mode the byte is a REX prefix. -/
theorem decodeInsn_emitRegIncrement : ∀ idx : Fin 8, decodeInsn (emitRegIncrement idx) = none := by
  decide

theorem decodeInsn_emitAddByteToRegaddr (imm : BitVec 8) (idx : Fin 8) :
    decodeInsn (emitAddByteToRegaddr imm idx) =
      if idx.val = 4 ∨ idx.val = 5 then none
      else some (⟨.add, false, [behind 32 (idx.castLE (by decide)) 0,
        .immediate (imm.signExtend 64)]⟩, []) := by
  have hidx := idx.isLt
  have hopcode : decodeInsn (emitAddByteToRegaddr imm idx) =
      ({} : Prefixes).decodeRmImm group1 1 [8 * 0 + idx.val, imm.toNat] := rfl
  rw [hopcode, Prefixes.decodeRmImm]
  by_cases hbp : idx.val = 5
  · rw [if_pos (.inr hbp), hbp, decodeModRM_ripRelative_short _ (by decide) (by simp)]
    rfl
  by_cases hsp : idx.val = 4
  · -- the immediate is taken for a SIB byte
    rw [if_pos (.inl hsp), hsp]
    have hmodrm : decodeModRM {} [8 * 0 + 4, imm.toNat] = _ :=
      decodeModRM_sib {} (by decide : 0 < 8) (by decide : 0 < 3) [imm.toNat]
    rw [hmodrm]
    cases hsib : decodeWithSib {} 0 [imm.toNat] with
    | none => rfl
    | some found =>
      obtain ⟨op, rest⟩ := found
      have hlen := decodeWithSib_length hsib
      obtain rfl : rest = [] := List.eq_nil_of_length_eq_zero (by simpa using hlen)
      rfl
  · let addr : Fin 16 := idx.castLE (by decide)
    have hb : ({} : Prefixes).b = addr.val / 8 := (Nat.div_eq_of_lt hidx).symm
    have hmodrm := decodeModRM_indirect rfl hb (by decide : 0 < 8)
      (by rwa [Fin.val_castLE, Nat.mod_eq_of_lt hidx]) [imm.toNat]
    rw [Fin.val_castLE, Nat.mod_eq_of_lt hidx, sibBytes, Nat.mod_eq_of_lt hidx, if_neg hsp,
      List.nil_append] at hmodrm
    rw [if_neg (not_or.mpr ⟨hsp, hbp⟩), hmodrm]
    simp [decodeImm_byte, group1, Prefixes.rm, Prefixes.memory, Prefixes.bits, Prefixes.insn, behind]

/-- The codes of FS and GS are those of conditional jumps, and the other bytes no instructions. -/
theorem decodeInsn_emitPushSegmentReg {idx : Fin 6} {bytes : List Nat}
    (h : emitPushSegmentReg idx = some bytes) : decodeInsn bytes = none := by
  revert bytes
  revert idx
  decide

theorem decodeInsn_emitPopSegmentReg {idx : Fin 6} {bytes : List Nat}
    (h : emitPopSegmentReg idx = some bytes) : decodeInsn bytes = none := by
  revert bytes
  revert idx
  decide

theorem decodeInsn_emitMoveRipImmToSegmentReg (value : BitVec 64) (idx : Fin 6) :
    decodeInsn ([0x8e, 0x05 + 8 * idx.val] ++ bytes32 value) =
      some (⟨.mov, false, [.segmentReg idx.val,
        .memory none 64 16 (.ripRelative (signExtend32 value))]⟩, []) := by
  have hmodrm := decodeModRM_ripRelative (p := {}) (by omega : idx.val < 8) value []
  rw [List.append_nil] at hmodrm
  show ((decodeModRM {} ((0x05 + 8 * idx.val) :: bytes32 value)).bind fun m =>
    some (({} : Prefixes).insn .mov [.segmentReg m.1, ({} : Prefixes).rm 16 m.2.1], m.2.2)) = _
  rw [hmodrm]
  rfl

theorem decodeInsn_emitMoveImmToSegmentReg (value : BitVec 64) (idx : Fin 6) :
    decodeInsn ([0x8e, 0x04 + 8 * idx.val, 0x25] ++ bytes32 value) =
      some (⟨.mov, false, [.segmentReg idx.val,
        .memory none 64 16 (.absolute (signExtend32 value))]⟩, []) := by
  have hmodrm := decodeModRM_absolute (p := {}) (by omega : idx.val < 8) rfl rfl value []
  rw [List.append_nil] at hmodrm
  show ((decodeModRM {} ((0x04 + 8 * idx.val) :: 0x25 :: bytes32 value)).bind
    fun m =>
      some (({} : Prefixes).insn .mov [.segmentReg m.1, ({} : Prefixes).rm 16 m.2.1], m.2.2)) = _
  rw [hmodrm]
  rfl

theorem decodeInsn_emitCallRelative (value : BitVec 64) :
    decodeInsn (0xe8 :: bytes32 value) =
      some (⟨.call, false, [.relative (signExtend32 value)]⟩, []) := by
  show (decodeImm 4 (bytes32 value)).map (fun (value, rest) =>
    (({} : Prefixes).insn .call [.relative value], rest)) = _
  rw [decodeImm_bytes32]
  rfl

theorem decodeInsn_emitJumpRelative (value : BitVec 64) :
    decodeInsn (0xe9 :: bytes32 value) =
      some (⟨.jmp, false, [.relative (signExtend32 value)]⟩, []) := by
  show (decodeImm 4 (bytes32 value)).map (fun (value, rest) =>
    (({} : Prefixes).insn .jmp [.relative value], rest)) = _
  rw [decodeImm_bytes32]
  rfl

theorem decodeInsn_emitStackPushImm (value : BitVec 64) :
    decodeInsn (0x68 :: bytes32 value) =
      some (⟨.push, false, [.immediate (signExtend32 value)]⟩, []) := by
  show (decodeImm 4 (bytes32 value)).map (fun (value, rest) =>
    (({} : Prefixes).insn .push [.immediate value], rest)) = _
  rw [decodeImm_bytes32]
  rfl

end X86InstructionFactory

end Pebil

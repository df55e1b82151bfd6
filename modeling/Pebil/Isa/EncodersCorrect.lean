import Pebil.Isa.EncoderDecode

/-!
# Registers and addressing

`Emission` is a call of an encoder with its arguments, `intended` the instruction that its name
and its arguments promise, and `rightlyEncoded_iff` says for which arguments the bytes decode to
this one instruction and no byte is left.

An argument of 64 bits that becomes a displacement or an address is meant as it is, one of 32 bits
with its sign. Of an immediate the intended instruction has what is left of it.
-/

namespace Pebil

/-- A call of an encoder; the registers pass its assertions. -/
inductive Emission where
  | exchangeAdd (src dest : Fin 16) (lock : Bool)
  | addImmToRegaddrImm (b : BitVec 32) (reg : Fin 16) (imm : BitVec 32)
  | addImmByteToRegaddrImm (byte : BitVec 8) (reg : Fin 16) (imm : BitVec 32)
  | immAndReg (imm : BitVec 32) (dest : Fin 16)
  | immOrReg (imm : BitVec 32) (dest : Fin 16)
  | moveTLSOffsetToReg (imm : BitVec 32) (dest : Fin 16)
  | moveThreadIdToReg (dest : Fin 16)
  | fxSaveReg (reg : Fin 16)
  | fxRstorReg (reg : Fin 16)
  | moveSegmentRegToReg (src : Fin 6) (dest : Fin 16)
  | loadEffectiveAddress (baseReg : Option (Fin 16)) (indexReg : Fin 16) (scale : Nat)
      (value : BitVec 64) (dest : Fin 16) (hasBase hasIndex : Bool)
  | loadRegImmReg (idxsrc : Fin 16) (imm : BitVec 64) (idxdest : Fin 16)
  | loadRipImmReg (imm : BitVec 64) (idxdest : Fin 16)
  | loadRipImmToReg (imm : BitVec 32) (destreg : Fin 16)
  | shiftRightLogical (imm : BitVec 8) (reg : Fin 16)
  | shiftLeftLogical (imm : BitVec 8) (reg : Fin 16)
  | compareImmReg (imm : BitVec 64) (reg : Fin 16)
  | moveRegToReg (srcreg destreg : Fin 16)
  | regAddReg2OpForm (srcdestreg srcreg : Fin 16)
  | regImmMultReg (src : Fin 16) (imm : BitVec 32) (dest : Fin 16)
  | xorRegReg (src tgt : Fin 8)
  | regAndReg (src srcdest : Fin 16)
  | regOrReg (src srcdest : Fin 16)
  | moveImmToRegaddrImm (val : BitVec 64) (idx : Fin 16) (off : BitVec 64)
  | moveRegaddrImmToReg (idxsrc : Fin 16) (imm : BitVec 64) (idxdest : Fin 16)
  | stackPush4Byte (idx : Fin 8)
  | moveRegToRegaddr (idxsrc idxdest : Fin 16)
  | moveRegaddrToReg (srcidx destidx : Fin 16)
  | regSubImm (idx : Fin 16) (imm : BitVec 32)
  | regAddImm (idx : Fin 16) (imm : BitVec 32)
  | stackPush (idx : Fin 16)
  | stackPop (idx : Fin 16)
  | moveRegToRegaddrImm (idxsrc idxdest : Fin 16) (imm : BitVec 64) (source64Bit : Bool)
  | moveRegToRegaddrImm1Byte (idxsrc idxdest : Fin 8) (imm : BitVec 64)
  | moveRegToRegaddrImm4Byte (idxsrc idxdest : Fin 8) (imm : BitVec 64)
  | moveMemToXMMReg (addr : BitVec 64) (idx : Fin 16)
  | moveImmToReg (imm : BitVec 64) (idx : Fin 16)
  | moveImm64ToReg (imm : BitVec 64) (idx : Fin 16)
  | moveRegToMem (idx : Fin 16) (addr : BitVec 64)
  | moveMemToReg (addr : BitVec 64) (idx : Fin 16) (is64Bit : Bool)
  -- inherited
  | moveImmByteToReg (imm : BitVec 8) (idx : Fin 8)
  | regIncrement (idx : Fin 8)
  | addByteToRegaddr (byt : BitVec 8) (idx : Fin 8)
  | moveRipImmToSegmentReg (imm : BitVec 64) (idx : Fin 6)
  | moveImmToSegmentReg (imm : BitVec 64) (idx : Fin 6)
  | pushSegmentReg (idx : Fin 6)
  | popSegmentReg (idx : Fin 6)

namespace Emission

open X86InstructionFactory X86InstructionFactory64 MachineOperand

/-- The bytes for `emitInstructionBase`, unless an assertion stops. -/
def bytes : Emission → Option (List Nat)
  | exchangeAdd src dest lock => some (emitExchangeAdd src dest lock)
  | addImmToRegaddrImm b reg imm => some (emitAddImmToRegaddrImm b reg imm)
  | addImmByteToRegaddrImm byte reg imm => some (emitAddImmByteToRegaddrImm byte reg imm)
  | immAndReg imm dest => some (emitImmAndReg imm dest)
  | immOrReg imm dest => some (emitImmOrReg imm dest)
  | moveTLSOffsetToReg imm dest => some (emitMoveTLSOffsetToReg imm dest)
  | moveThreadIdToReg dest => some (emitMoveThreadIdToReg dest)
  | fxSaveReg reg => some (emitFxSaveReg reg)
  | fxRstorReg reg => some (emitFxRstorReg reg)
  | moveSegmentRegToReg src dest => some (emitMoveSegmentRegToReg src dest)
  | loadEffectiveAddress baseReg indexReg scale value dest hasBase hasIndex =>
    X86InstructionFactory64.emitLoadEffectiveAddress baseReg indexReg scale value dest hasBase
      hasIndex
  | loadRegImmReg idxsrc imm idxdest => some (emitLoadRegImmReg idxsrc imm idxdest)
  | loadRipImmReg imm idxdest => some (emitLoadRipImmReg imm idxdest)
  | loadRipImmToReg imm destreg => some (emitLoadRipImmToReg imm destreg)
  | shiftRightLogical imm reg => some (emitShiftRightLogical imm reg)
  | shiftLeftLogical imm reg => some (emitShiftLeftLogical imm reg)
  | compareImmReg imm reg => emitCompareImmReg imm reg
  | moveRegToReg srcreg destreg => some (emitMoveRegToReg srcreg destreg)
  | regAddReg2OpForm srcdestreg srcreg => some (emitRegAddReg2OpForm srcdestreg srcreg)
  | regImmMultReg src imm dest => emitRegImmMultReg src imm dest
  | xorRegReg src tgt => some (emitXorRegReg src tgt)
  | regAndReg src srcdest => some (emitRegAndReg src srcdest)
  | regOrReg src srcdest => some (emitRegOrReg src srcdest)
  | moveImmToRegaddrImm val idx off => some (emitMoveImmToRegaddrImm val idx off)
  | moveRegaddrImmToReg idxsrc imm idxdest => some (emitMoveRegaddrImmToReg idxsrc imm idxdest)
  | stackPush4Byte idx => some (emitStackPush4Byte idx)
  | moveRegToRegaddr idxsrc idxdest => some (emitMoveRegToRegaddr idxsrc idxdest)
  | moveRegaddrToReg srcidx destidx => some (emitMoveRegaddrToReg srcidx destidx)
  | regSubImm idx imm => emitRegSubImm idx imm
  | regAddImm idx imm => some (emitRegAddImm idx imm)
  | stackPush idx => some (emitStackPush idx)
  | stackPop idx => some (emitStackPop idx)
  | moveRegToRegaddrImm idxsrc idxdest imm source64Bit =>
    some (emitMoveRegToRegaddrImm idxsrc idxdest imm source64Bit)
  | moveRegToRegaddrImm1Byte idxsrc idxdest imm =>
    some (emitMoveRegToRegaddrImm1Byte idxsrc idxdest imm)
  | moveRegToRegaddrImm4Byte idxsrc idxdest imm =>
    some (emitMoveRegToRegaddrImm4Byte idxsrc idxdest imm)
  | moveMemToXMMReg addr idx => emitMoveMemToXMMReg addr idx
  | moveImmToReg imm idx => X86InstructionFactory64.emitMoveImmToReg imm idx
  | moveImm64ToReg imm idx => some (emitMoveImm64ToReg imm idx)
  | moveRegToMem idx addr => emitMoveRegToMem idx addr
  | moveMemToReg addr idx is64Bit => emitMoveMemToReg addr idx is64Bit
  | moveImmByteToReg imm idx => some (emitMoveImmByteToReg imm idx)
  | regIncrement idx => some (emitRegIncrement idx)
  | addByteToRegaddr byt idx => some (emitAddByteToRegaddr byt idx)
  | moveRipImmToSegmentReg imm idx => emitMoveRipImmToSegmentReg imm idx
  | moveImmToSegmentReg imm idx => emitMoveImmToSegmentReg imm idx
  | pushSegmentReg idx => emitPushSegmentReg idx
  | popSegmentReg idx => emitPopSegmentReg idx

/-- The instruction that is meant. Where a register is called `srcdest` it is the destination. -/
def intended : Emission → MachineInsn
  | exchangeAdd src dest lock => ⟨.xadd, lock, [behind 64 dest 0, reg64 src]⟩
  | addImmToRegaddrImm b reg imm =>
    ⟨.add, false, [behind 32 reg (imm.signExtend 64), .immediate (b.signExtend 64)]⟩
  | addImmByteToRegaddrImm byte reg imm =>
    ⟨.add, false, [behind 32 reg (imm.signExtend 64), .immediate (byte.signExtend 64)]⟩
  | immAndReg imm dest => ⟨.and, false, [reg64 dest, .immediate (imm.signExtend 64)]⟩
  | immOrReg imm dest => ⟨.or, false, [reg64 dest, .immediate (imm.signExtend 64)]⟩
  | moveTLSOffsetToReg imm dest =>
    ⟨.mov, false, [reg64 dest, .memory (some 4) 64 64 (.absolute (imm.signExtend 64))]⟩
  | moveThreadIdToReg dest => ⟨.mov, false, [reg64 dest, .memory (some 4) 64 64 (.absolute 0x10)]⟩
  | fxSaveReg reg => ⟨.fxsave, false, [behind 4096 reg 0]⟩
  | fxRstorReg reg => ⟨.fxrstor, false, [behind 4096 reg 0]⟩
  | moveSegmentRegToReg src dest => ⟨.mov, false, [reg64 dest, .segmentReg src.val]⟩
  | loadEffectiveAddress baseReg indexReg scale value dest hasBase hasIndex =>
    ⟨.lea, false, [reg64 dest, .memory none 64 64
      { base := if hasBase then baseReg.elim (udRYmm15 + 1) (udRRax + ·.val) else 0
        index := if hasIndex then udRRax + indexReg.val else 0
        scale := if hasIndex then scale / 2 * 2 else 0
        value }]⟩
  | loadRegImmReg idxsrc imm idxdest => ⟨.lea, false, [reg64 idxdest, behind 64 idxsrc imm]⟩
  | loadRipImmReg imm idxdest =>
    ⟨.lea, false, [reg64 idxdest, .memory none 64 64 (.ripRelative imm)]⟩
  | loadRipImmToReg imm destreg =>
    ⟨.lea, false, [reg64 destreg, .memory none 64 64 (.ripRelative (imm.signExtend 64))]⟩
  | shiftRightLogical imm reg => ⟨.shr, false, [reg64 reg, .immediate (imm.signExtend 64)]⟩
  | shiftLeftLogical imm reg => ⟨.shl, false, [reg64 reg, .immediate (imm.signExtend 64)]⟩
  | compareImmReg imm reg => ⟨.cmp, false, [reg64 reg, .immediate (signExtend32 imm)]⟩
  | moveRegToReg srcreg destreg => ⟨.mov, false, [reg64 destreg, reg64 srcreg]⟩
  | regAddReg2OpForm srcdestreg srcreg => ⟨.add, false, [reg64 srcdestreg, reg64 srcreg]⟩
  | regImmMultReg src imm dest =>
    ⟨.imul, false, [reg64 dest, reg64 src, .immediate (imm.signExtend 64)]⟩
  | xorRegReg src tgt => ⟨.xor, false, [.gpr 64 tgt.val, .gpr 64 src.val]⟩
  | regAndReg src srcdest => ⟨.and, false, [reg64 srcdest, reg64 src]⟩
  | regOrReg src srcdest => ⟨.or, false, [reg64 srcdest, reg64 src]⟩
  | moveImmToRegaddrImm val idx off =>
    ⟨.mov, false, [behind 64 idx off, .immediate (signExtend32 val)]⟩
  | moveRegaddrImmToReg idxsrc imm idxdest => ⟨.mov, false, [reg64 idxdest, behind 64 idxsrc imm]⟩
  | stackPush4Byte idx => ⟨.push, false, [.gpr 32 idx.val]⟩
  | moveRegToRegaddr idxsrc idxdest => ⟨.mov, false, [behind 64 idxdest 0, reg64 idxsrc]⟩
  | moveRegaddrToReg srcidx destidx => ⟨.mov, false, [reg64 destidx, behind 64 srcidx 0]⟩
  -- the code writes a `nop` for 0
  | regSubImm idx imm =>
    if imm = 0 then ⟨.nop, false, []⟩
    else ⟨.sub, false, [reg64 idx, .immediate (imm.signExtend 64)]⟩
  | regAddImm idx imm =>
    if imm = 0 then ⟨.nop, false, []⟩
    else ⟨.add, false, [reg64 idx, .immediate (imm.signExtend 64)]⟩
  | stackPush idx => ⟨.push, false, [reg64 idx]⟩
  | stackPop idx => ⟨.pop, false, [reg64 idx]⟩
  | moveRegToRegaddrImm idxsrc idxdest imm source64Bit =>
    ⟨.mov, false, [behind (if source64Bit then 64 else 32) idxdest imm,
      .gpr (if source64Bit then 64 else 32) idxsrc.val]⟩
  | moveRegToRegaddrImm1Byte idxsrc idxdest imm | moveRegToRegaddrImm4Byte idxsrc idxdest imm =>
    ⟨.mov, false, [behind 64 (idxdest.castLE (by decide)) imm, reg64 (idxsrc.castLE (by decide))]⟩
  | moveMemToXMMReg addr idx =>
    ⟨.movsd, false, [.xmm idx.val, .memory none 64 64 (.absolute addr)]⟩
  | moveImmToReg imm idx => ⟨.mov, false, [reg64 idx, .immediate (signExtend32 imm)]⟩
  | moveImm64ToReg imm idx => ⟨.mov, false, [reg64 idx, .immediate imm]⟩
  | moveRegToMem idx addr => ⟨.mov, false, [.memory none 64 64 (.absolute addr), reg64 idx]⟩
  | moveMemToReg addr idx is64Bit =>
    ⟨.mov, false, [.gpr (if is64Bit then 64 else 32) idx.val,
      .memory none 64 (if is64Bit then 64 else 32) (.absolute addr)]⟩
  | moveImmByteToReg imm idx => ⟨.mov, false, [.gpr 8 idx.val, .immediate (imm.signExtend 64)]⟩
  | regIncrement idx => ⟨.inc, false, [.gpr 32 idx.val]⟩
  | addByteToRegaddr byt idx =>
    ⟨.add, false, [behind 32 (idx.castLE (by decide)) 0, .immediate (byt.signExtend 64)]⟩
  | moveRipImmToSegmentReg imm idx =>
    ⟨.mov, false, [.segmentReg idx.val, .memory none 64 16 (.ripRelative imm)]⟩
  | moveImmToSegmentReg imm idx =>
    ⟨.mov, false, [.segmentReg idx.val, .memory none 64 16 (.absolute imm)]⟩
  | pushSegmentReg idx => ⟨.push, false, [.segmentReg idx.val]⟩
  | popSegmentReg idx => ⟨.pop, false, [.segmentReg idx.val]⟩

/-- The arguments for which the bytes are the instruction that is meant. -/
def Encodable : Emission → Prop
  -- RBP and R13 without a displacement
  | exchangeAdd _ dest _ => dest.val % 8 ≠ 5
  | fxSaveReg reg | fxRstorReg reg => reg.val % 8 ≠ 5
  | addByteToRegaddr _ idx => idx.val ≠ 4 ∧ idx.val ≠ 5
  -- RIP as a base next to an index, RSP as an index
  | loadEffectiveAddress baseReg indexReg _ value _ hasBase hasIndex =>
    FitsSigned32 value ∧ (hasBase = true → baseReg ≠ none) ∧ (hasIndex = true → indexReg.val ≠ 4)
  -- exchanged registers
  | loadRegImmReg idxsrc imm idxdest => idxsrc = idxdest ∧ idxdest.val ≠ 12 ∧ FitsSigned32 imm
  | regAddReg2OpForm srcdestreg srcreg => srcdestreg = srcreg
  | regAndReg src srcdest | regOrReg src srcdest => src = srcdest
  -- a SIB byte too many, a REX bit or a ModRM byte too few
  | loadRipImmReg imm idxdest => idxdest.val ≠ 4 ∧ FitsSigned32 imm
  | regSubImm idx imm => imm = 0 ∨ idx.val < 8
  | regAddImm idx imm => imm = 0 ∨ idx.val ≠ 0
  | moveImmByteToReg _ idx => idx.val ≤ 3
  -- addresses of 32 bits, a push of 16 bits, a lone REX prefix, the codes of other instructions
  | moveImmToRegaddrImm .. | stackPush4Byte _ | regIncrement _ | pushSegmentReg _
  | popSegmentReg _ => False
  | moveRegaddrImmToReg _ imm _ | moveRegToRegaddrImm _ _ imm _ | moveRegToRegaddrImm4Byte _ _ imm
  | moveRipImmToSegmentReg imm _ | moveImmToSegmentReg imm _ => FitsSigned32 imm
  | moveRegToRegaddrImm1Byte _ _ imm => imm.toNat < 2 ^ 7 ∨ 2 ^ 64 - 2 ^ 7 ≤ imm.toNat
  | moveMemToXMMReg addr _ | moveRegToMem _ addr | moveMemToReg addr _ _ => FitsSigned32 addr
  | _ => True

/-! ## What is written and what is meant -/

@[simp] theorem based_inj {r r' : Nat} {v v' : BitVec 64} :
    MemoryOperand.based r v = .based r' v' ↔ r = r' ∧ v = v' := by
  simp [MemoryOperand.based]

@[simp] theorem absolute_inj {v v' : BitVec 64} :
    MemoryOperand.absolute v = .absolute v' ↔ v = v' := by
  simp [MemoryOperand.absolute]

@[simp] theorem ripRelative_inj {v v' : BitVec 64} :
    MemoryOperand.ripRelative v = .ripRelative v' ↔ v = v' := by
  simp [MemoryOperand.ripRelative]

@[simp] theorem behind_inj {n n' : Nat} {r r' : Fin 16} {v v' : BitVec 64} :
    behind n r v = behind n' r' v' ↔ n = n' ∧ r = r' ∧ v = v' := by
  simp [behind, Fin.val_inj]

@[simp] theorem reg64_inj {r r' : Fin 16} : reg64 r = reg64 r' ↔ r = r' := by
  simp [reg64, Fin.val_inj]

theorem decoded_iff {bytes : List Nat} {i i' : MachineInsn}
    (h : decodeInsn bytes = some (i, [])) : decodeInsn bytes = some (i', []) ↔ i = i' := by
  rw [h]
  simp

theorem eq_of_assert32 {v : BitVec 64} {l l' : List Nat} (h : assert32 v l = some l') : l = l' := by
  unfold assert32 at h
  split at h
  · exact Option.some.inj h
  · cases h

theorem eq_of_assertSegmentReg {v : BitVec 64} {idx : Fin 6} {l l' : List Nat}
    (h : assertSegmentReg idx l >>= assert32 v = some l') : l = l' := by
  obtain ⟨l₁, hseg, hassert⟩ := Option.bind_eq_some_iff.mp h
  obtain ⟨-, heq⟩ := Option.ite_none_right_eq_some.mp hseg
  cases heq
  exact eq_of_assert32 hassert

theorem decodeInsn_emitNop : decodeInsn emitNop = some (⟨.nop, false, []⟩, []) := rfl

theorem signExtend8_eq_iff (value : BitVec 64) :
    (value.setWidth 8).signExtend 64 = value ↔
      value.toNat < 2 ^ 7 ∨ 2 ^ 64 - 2 ^ 7 ≤ value.toNat := by
  have hlt := value.isLt
  have hnat : ((value.setWidth 8).signExtend 64).toNat =
      value.toNat % 2 ^ 8 + if 2 ^ 7 ≤ value.toNat % 2 ^ 8 then 2 ^ 64 - 2 ^ 8 else 0 := by
    rw [BitVec.toNat_signExtend, BitVec.toNat_setWidth, BitVec.toNat_setWidth,
      BitVec.msb_eq_decide, BitVec.toNat_setWidth]
    simp only [decide_eq_true_eq, show 2 ^ (8 - 1) = 2 ^ 7 from rfl]
    split <;> omega
  rw [← BitVec.toNat_inj, hnat]
  split <;> omega

/-- No index field stands for RSP. -/
theorem index_ne_rsp_of_decodeModRM {p : Prefixes} {l rest : List Nat} {reg : Nat}
    {op : MemoryOperand} (h : decodeModRM p l = some (reg, .mem op, rest)) :
    op.index ≠ udRRax + 4 := by
  cases l with
  | nil => cases h
  | cons modrm l =>
    unfold decodeModRM at h
    dsimp only at h
    split_ifs at h
    · cases h
    · obtain ⟨⟨op', left⟩, hsib, heq⟩ := Option.map_eq_some_iff.mp h
      cases heq
      cases l with
      | nil => cases hsib
      | cons sib l =>
        obtain ⟨op', hop, heq⟩ := Option.map_eq_some_iff.mp hsib
        cases heq
        obtain ⟨value, -, hvalue⟩ := Option.bind_eq_some_iff.mp hop
        cases hvalue
        dsimp only
        split
        · decide
        · rename_i hne
          exact fun heq => hne (Nat.add_left_cancel heq)
    · obtain ⟨op', hop, heq⟩ := Option.map_eq_some_iff.mp h
      cases heq
      obtain ⟨value, -, hvalue⟩ := Option.bind_eq_some_iff.mp hop
      cases hvalue
      show (0 : Nat) ≠ udRRax + 4
      decide

theorem index_ne_rsp_of_lea {rex : Nat} (hrex : rex / 8 = 9) {l : List Nat} {dest : MachineOperand}
    {op : MemoryOperand}
    (h : decodeInsn (rex :: 0x8d :: l) = some (⟨.lea, false, [dest, .memory none 64 64 op]⟩, [])) :
    op.index ≠ udRRax + 4 := by
  rw [decodeInsn_rexW hrex, decodeOpcode_lea, Prefixes.decodeMem] at h
  obtain ⟨⟨reg, rm, rest⟩, hmodrm, h⟩ := Option.bind_eq_some_iff.mp h
  cases rm with
  | reg _ => cases h
  | mem op' =>
    cases h
    exact index_ne_rsp_of_decodeModRM hmodrm

theorem emitLoadEffectiveAddress_eq_cons (baseReg indexReg : Fin 16) (scale : Nat)
    (value : BitVec 64) (dest : Fin 16) (hasBase hasIndex : Bool) :
    ∃ rex l, Pebil.emitLoadEffectiveAddress baseReg indexReg scale value dest hasBase hasIndex =
      rex :: 0x8d :: l ∧ rex / 8 = 9 := by
  unfold Pebil.emitLoadEffectiveAddress
  split_ifs <;> exact ⟨_, _, rfl, by simp⟩

/-- The base that `emitLoadEffectiveAddress` is given and the one it writes. -/
theorem leaBase_eq_iff (baseReg : Option (Fin 16)) :
    udRRax + (baseReg.getD 14).val = baseReg.elim (udRYmm15 + 1) (udRRax + ·.val) ↔
      baseReg ≠ none := by
  cases baseReg with
  | none => decide
  | some r => simp

theorem lea_rightlyEncoded_iff {baseReg : Option (Fin 16)} {indexReg : Fin 16} {scale : Nat}
    {value : BitVec 64} {dest : Fin 16} {hasBase hasIndex : Bool} {bytes : List Nat}
    (h : (loadEffectiveAddress baseReg indexReg scale value dest hasBase hasIndex).bytes =
      some bytes) :
    decodeInsn bytes =
        some ((loadEffectiveAddress baseReg indexReg scale value dest hasBase hasIndex).intended,
          []) ↔
      (loadEffectiveAddress baseReg indexReg scale value dest hasBase hasIndex).Encodable := by
  obtain ⟨hscale, heq⟩ := Option.ite_none_right_eq_some.mp h
  cases heq
  rw [Encodable, ← signExtend32_eq_iff]
  by_cases hrsp : hasIndex = true ∧ indexReg.val = 4
  · obtain ⟨hindex, hrsp⟩ := hrsp
    obtain ⟨rex, l, hbytes, hrex⟩ := emitLoadEffectiveAddress_eq_cons (baseReg.getD 14) indexReg
      scale value dest hasBase hasIndex
    refine iff_of_false (fun hdecode => ?_) fun hencodable => hencodable.2.2 hindex hrsp
    rw [hbytes, intended] at hdecode
    refine index_ne_rsp_of_lea hrex hdecode ?_
    rw [if_pos hindex, hrsp]
  · have hindex : hasIndex = true → indexReg.val ≠ 4 := fun hindex heq => hrsp ⟨hindex, heq⟩
    have hlea : decodeLea (Pebil.emitLoadEffectiveAddress (baseReg.getD 14) indexReg scale value dest
        hasBase hasIndex) = _ := decodeLea_emitLoadEffectiveAddress hscale hindex
    rw [decoded_iff (decodeInsn_of_decodeLea hlea), intended, ← leaBase_eq_iff baseReg]
    cases hasBase with
    | true =>
      simp [reg64, signExtend32]
      tauto
    | false =>
      simp [reg64, signExtend32]
      tauto

end Emission

end Pebil

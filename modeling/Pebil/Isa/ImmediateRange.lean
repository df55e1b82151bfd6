import Pebil.Isa.EncoderDecode

/-!
# Immediates, addresses and branch targets

The encoders with an argument of 64 bits write its low half, and the processor extends this half
with a sign. What then comes out is the argument or not: `survives_iff` has the condition for each
of them. Most of the assertions ask that the argument has no bits above the low half, which leaves
the arguments from 2^31 on; `emitAddImmToMem` compares the low half with itself, and the
assertions of the branches are about the addresses and not about the distance.
-/

namespace Pebil

/-- A call of one of the encoders with its arguments, where the assertions on the registers pass. -/
inductive ImmediateEncoder where
  | moveImmToReg (imm : BitVec 64) (idx : Fin 16)
  | moveRegToMem (idx : Fin 16) (addr : BitVec 64)
  | moveMemToReg (addr : BitVec 64) (idx : Fin 16) (is64Bit : Bool)
  | addImmToMem (imm : BitVec 32) (addr : BitVec 64)
  | compareImmReg (imm : BitVec 64) (reg : Fin 16)
  | stackPushImm (imm : BitVec 64)
  | callRelative (addr tgt : BitVec 64)
  | jumpRelative (addr tgt : BitVec 64)

namespace ImmediateEncoder

open X86InstructionFactory X86InstructionFactory64

/-- The bytes, unless an assertion stops. -/
def bytes : ImmediateEncoder → Option (List Nat)
  | moveImmToReg imm idx => X86InstructionFactory64.emitMoveImmToReg imm idx
  | moveRegToMem idx addr => emitMoveRegToMem idx addr
  | moveMemToReg addr idx is64Bit => emitMoveMemToReg addr idx is64Bit
  | addImmToMem imm addr => some (emitAddImmToMem imm addr)
  | compareImmReg imm reg => emitCompareImmReg imm reg
  | stackPushImm imm => emitStackPushImm imm
  | callRelative addr tgt => emitCallRelative addr tgt
  | jumpRelative addr tgt => emitJumpRelative addr tgt

/-- The immediate, the address or the branch target. -/
def argument : ImmediateEncoder → BitVec 64
  | moveImmToReg imm _ | compareImmReg imm _ | stackPushImm imm => imm
  | moveRegToMem _ addr | moveMemToReg addr _ _ | addImmToMem _ addr => addr
  | callRelative _ tgt | jumpRelative _ tgt => tgt

/-- What the processor takes an operand for, in an instruction of five bytes at `pc`; a memory
operand without registers is its displacement. -/
def interpretOperand (pc : BitVec 64) : MachineOperand → Option (BitVec 64)
  | .immediate value => some value
  | .relative value => some (pc + 5 + value)
  | .memory none 64 _ op => if op = .absolute op.value then some op.value else none
  | _ => none

/-- The operand that the argument is in. -/
def interpreted : ImmediateEncoder → MachineInsn → Option (BitVec 64)
  | moveRegToMem .., ⟨.mov, _, [mem, _]⟩ => interpretOperand 0 mem
  | moveMemToReg .., ⟨.mov, _, [_, mem]⟩ => interpretOperand 0 mem
  | addImmToMem .., ⟨.add, _, [mem, _]⟩ => interpretOperand 0 mem
  | moveImmToReg .., ⟨.mov, _, [_, imm]⟩ => interpretOperand 0 imm
  | compareImmReg .., ⟨.cmp, _, [_, imm]⟩ => interpretOperand 0 imm
  | stackPushImm _, ⟨.push, _, [imm]⟩ => interpretOperand 0 imm
  | callRelative addr _, ⟨.call, _, [rel]⟩ => interpretOperand addr rel
  | jumpRelative addr _, ⟨.jmp, _, [rel]⟩ => interpretOperand addr rel
  | _, _ => none

/-- The encoder stops on an assertion or the argument survives. -/
def Survives (e : ImmediateEncoder) : Prop :=
  ∀ bytes, e.bytes = some bytes →
    ∃ i, decodeInsn bytes = some (i, []) ∧ e.interpreted i = some e.argument

/-- The upper half of the range without a sign of 32 bits. -/
def InUpperHalf (value : BitVec 64) : Prop := 2 ^ 31 ≤ value.toNat ∧ value.toNat < 2 ^ 32

/-- The distance of a branch of five bytes has 32 bits with its sign. -/
def InReach (addr tgt : Int) : Prop := -2 ^ 31 ≤ tgt - (addr + 5) ∧ tgt - (addr + 5) < 2 ^ 31

/-- When the argument survives. -/
def InRange : ImmediateEncoder → Prop
  | moveImmToReg imm _ | compareImmReg imm _ | stackPushImm imm => ¬InUpperHalf imm
  | moveRegToMem _ addr => ¬InUpperHalf addr
  -- with 32 bits an assertion stops at the upper registers
  | moveMemToReg addr idx is64Bit => (is64Bit = false ∧ 8 ≤ idx.val) ∨ ¬InUpperHalf addr
  | addImmToMem _ addr => FitsSigned32 addr
  | callRelative addr tgt =>
    addr.toNat < 2 ^ 32 → tgt.toNat < 2 ^ 32 → InReach addr.toNat tgt.toNat
  | jumpRelative addr tgt =>
    signExtend32 addr = addr → signExtend32 tgt = tgt → InReach addr.toInt tgt.toInt

variable {value : BitVec 64}

/-- Of the values that the assertion admits. -/
theorem signExtend32_eq_iff_of_assert (h : value.toNat < 2 ^ 32) :
    signExtend32 value = value ↔ ¬InUpperHalf value := by
  rw [signExtend32_eq_iff, FitsSigned32, InUpperHalf]
  omega

theorem not_inUpperHalf_of_le (h : ¬value.toNat < 2 ^ 32) : ¬InUpperHalf value := fun hupper =>
  h hupper.2

theorem survives_of_stop {e : ImmediateEncoder} (h : e.bytes = none) : e.Survives := by
  intro bytes hbytes
  rw [h] at hbytes
  cases hbytes

/-- The bytes are an instruction with an operand that the processor takes for `v`. -/
theorem survives_iff_of_bytes {e : ImmediateEncoder} {bytes : List Nat} {i : MachineInsn}
    {v : BitVec 64} (hbytes : e.bytes = some bytes) (hdecode : decodeInsn bytes = some (i, []))
    (hinterpreted : e.interpreted i = some v) : e.Survives ↔ v = e.argument := by
  constructor
  · intro h
    obtain ⟨i', hi', harg⟩ := h bytes hbytes
    rw [hdecode] at hi'
    cases hi'
    rw [hinterpreted] at harg
    exact Option.some.inj harg
  · intro h bytes' hbytes'
    rw [hbytes] at hbytes'
    cases hbytes'
    exact ⟨i, hdecode, by rw [hinterpreted, h]⟩

/-- An encoder that asserts that its argument has 32 bits. -/
theorem survives_iff_of_assert {e : ImmediateEncoder} {bytes : List Nat} {i : MachineInsn}
    (hbytes : e.bytes = assert32 e.argument bytes) (hdecode : decodeInsn bytes = some (i, []))
    (hinterpreted : e.interpreted i = some (signExtend32 e.argument)) :
    e.Survives ↔ ¬InUpperHalf e.argument := by
  rw [assert32] at hbytes
  by_cases hlt : e.argument.toNat < 2 ^ 32
  · rw [if_pos hlt] at hbytes
    rw [survives_iff_of_bytes hbytes hdecode hinterpreted, signExtend32_eq_iff_of_assert hlt]
  · rw [if_neg hlt] at hbytes
    exact ⟨fun _ => not_inUpperHalf_of_le hlt, fun _ => survives_of_stop hbytes⟩

/-- The distance of a branch that its assertions let pass. -/
theorem target_eq_iff {addr tgt : BitVec 64} {a t : Int} (ha : (addr.toNat : Int) % 2 ^ 64 = a % 2 ^ 64)
    (ht : (tgt.toNat : Int) % 2 ^ 64 = t % 2 ^ 64) (hlo : -2 ^ 31 ≤ a) (hhi : a < 2 ^ 32)
    (htlo : -2 ^ 31 ≤ t) (hthi : t < 2 ^ 32) :
    addr + 5 + signExtend32 (tgt - addr - 5) = tgt ↔ InReach a t := by
  have hsum : addr + 5 + signExtend32 (tgt - addr - 5) = tgt ↔
      signExtend32 (tgt - addr - 5) = tgt - addr - 5 := by
    generalize signExtend32 (tgt - addr - 5) = v
    constructor
    · intro h
      bv_omega
    · intro h
      bv_omega
  have hnat : (tgt - addr - 5).toNat =
      (tgt.toNat + (2 ^ 64 - addr.toNat) + (2 ^ 64 - 5)) % 2 ^ 64 := by
    have hlt := addr.isLt
    rw [BitVec.toNat_sub, BitVec.toNat_sub, show (5 : BitVec 64).toNat = 5 from rfl]
    omega
  have hlt := addr.isLt
  rw [hsum, signExtend32_eq_iff, FitsSigned32, InReach, hnat]
  omega

/-- An address with the sign of its low half. -/
theorem toInt_of_signExtend32 (h : signExtend32 value = value) :
    (value.toNat : Int) % 2 ^ 64 = value.toInt % 2 ^ 64 ∧ -2 ^ 31 ≤ value.toInt ∧
      value.toInt < 2 ^ 31 := by
  have hlt := value.isLt
  have hrange := (signExtend32_eq_iff value).mp h
  unfold FitsSigned32 at hrange
  rw [BitVec.toInt_eq_toNat_cond]
  split <;> omega

/-- **What survives.** -/
theorem survives_iff (e : ImmediateEncoder) : e.Survives ↔ e.InRange := by
  cases e with
  | moveImmToReg imm idx =>
    exact survives_iff_of_assert rfl (decodeInsn_emitMoveImmToReg idx imm) rfl
  | moveRegToMem idx addr =>
    exact survives_iff_of_assert rfl (decodeInsn_emitMoveRegToMem idx addr) (if_pos rfl)
  | moveMemToReg addr idx is64Bit =>
    cases is64Bit with
    | true =>
      rw [InRange, or_iff_right (by simp)]
      exact survives_iff_of_assert rfl (decodeInsn_emitMoveMemToReg idx addr) (if_pos rfl)
    | false =>
      by_cases hlow : idx.val < 8
      · rw [InRange, or_iff_right (by simp [hlow])]
        exact survives_iff_of_assert (if_pos hlow) (decodeInsn_emitMoveMemToReg_32 addr hlow)
          (if_pos rfl)
      · exact ⟨fun _ => .inl ⟨rfl, by omega⟩, fun _ => survives_of_stop (if_neg hlow)⟩
  | addImmToMem imm addr =>
    rw [InRange, ← signExtend32_eq_iff]
    exact survives_iff_of_bytes rfl (decodeInsn_emitAddImmToMem imm addr) (if_pos rfl)
  | compareImmReg imm reg =>
    exact survives_iff_of_assert rfl (decodeInsn_emitCompareImmReg reg imm) rfl
  | stackPushImm imm =>
    exact survives_iff_of_assert rfl (decodeInsn_emitStackPushImm imm) rfl
  | callRelative addr tgt =>
    by_cases hassert : addr.toNat < 2 ^ 32 ∧ tgt.toNat < 2 ^ 32
    · obtain ⟨haddr, htgt⟩ := hassert
      have hbytes : (callRelative addr tgt).bytes = some (0xe8 :: bytes32 (tgt - addr - 5)) :=
        if_pos ⟨haddr, htgt⟩
      rw [survives_iff_of_bytes hbytes (decodeInsn_emitCallRelative _) rfl]
      refine (target_eq_iff rfl rfl (by omega) (by omega) (by omega) (by omega)).trans ?_
      exact ⟨fun h _ _ => h, fun h => h haddr htgt⟩
    · exact ⟨fun _ haddr htgt => absurd ⟨haddr, htgt⟩ hassert,
        fun _ => survives_of_stop (if_neg hassert)⟩
  | jumpRelative addr tgt =>
    by_cases hassert : addr = signExtend32 addr ∧ tgt = signExtend32 tgt
    · obtain ⟨haddr, htgt⟩ := hassert
      have hbytes : (jumpRelative addr tgt).bytes = some (0xe9 :: bytes32 (tgt - addr - 5)) :=
        if_pos ⟨haddr, htgt⟩
      obtain ⟨ha, halo, hahi⟩ := toInt_of_signExtend32 haddr.symm
      obtain ⟨ht, htlo, hthi⟩ := toInt_of_signExtend32 htgt.symm
      rw [survives_iff_of_bytes hbytes (decodeInsn_emitJumpRelative _) rfl]
      refine (target_eq_iff ha ht halo (by omega) htlo (by omega)).trans ?_
      exact ⟨fun h _ _ => h, fun h => h haddr.symm htgt.symm⟩
    · exact ⟨fun _ haddr htgt => absurd ⟨haddr.symm, htgt.symm⟩ hassert,
        fun _ => survives_of_stop (if_neg hassert)⟩

/-- `mov $0x80000000, %rax` loads 0xffffffff80000000. -/
theorem not_survives : ¬∀ e : ImmediateEncoder, e.Survives := by
  intro h
  obtain ⟨i, hi, hargument⟩ := h (moveImmToReg 0x80000000 0) _ rfl
  rw [decodeInsn_emitMoveImmToReg] at hi
  cases hi
  exact absurd hargument (by decide)

end ImmediateEncoder

end Pebil

import Pebil.Isa.Register
import Pebil.Isa.Machine

/-!
# `lea` (src/X86InstructionFactory.C:535–660, 788–815; external/udis86-1.7/libudis86/decode.c:791–870)

The encoder that writes a `lea` byte by byte, and the decoding of its bytes: the
ModRM and SIB fields as `decode_modrm` reads them in 64-bit mode, which is how the
processor reads them too. `decodeLea_emitLoadEffectiveAddress` is the round trip.
-/

namespace Pebil

/-- `OperandX86` of type `UD_OP_MEM`: `base` and `index` are numbers of `ud_type`, 0 where
there is none; a scale of 1 is stored as 0; `value` is what `getValue` returns. -/
structure MemoryOperand where
  base : Nat
  index : Nat
  scale : Nat
  value : BitVec 64
  deriving DecidableEq, Repr

/-- `OperandX86::isSameOperand`, on two memory operands. -/
def MemoryOperand.isSameOperand (op other : MemoryOperand) : Bool :=
  other.value == op.value && other.base == op.base && other.index == op.index &&
    other.scale == op.scale

theorem MemoryOperand.isSameOperand_iff {op other : MemoryOperand} :
    op.isSameOperand other = true ↔ other = op := by
  cases op
  cases other
  simp only [isSameOperand, Bool.and_eq_true, beq_iff_eq, mk.injEq]
  tauto

/-! ## Registers and addresses -/

theorem gprIndex_lt {reg : Nat} (h : udRRax ≤ reg ∧ reg ≤ udRR15) : reg - udRRax < 16 :=
  Nat.lt_succ_of_le (Nat.sub_le_sub_right h.2 udRRax)

/-- What a 64-bit general purpose register of `ud_type` holds; 0 for no register. -/
def regValue (gpr : Fin 16 → BitVec 64) (reg : Nat) : BitVec 64 :=
  if h : udRRax ≤ reg ∧ reg ≤ udRR15 then
    gpr ⟨reg - udRRax, gprIndex_lt h⟩
  else 0

@[simp] theorem regValue_zero (gpr : Fin 16 → BitVec 64) : regValue gpr 0 = 0 := rfl

@[simp] theorem regValue_add (gpr : Fin 16 → BitVec 64) (r : Fin 16) :
    regValue gpr (udRRax + r) = gpr r := by
  have hr := r.isLt
  unfold regValue
  rw [dif_pos ⟨Nat.le_add_right _ _, by simp only [udRRax, udRR15]; omega⟩]
  exact congrArg gpr (Fin.ext (Nat.add_sub_cancel_left udRRax r.val))

/-- The address of an operand; a stored scale of 0 stands for 1. -/
def MemoryOperand.effectiveAddress (gpr : Fin 16 → BitVec 64) (op : MemoryOperand) : BitVec 64 :=
  regValue gpr op.base + regValue gpr op.index * BitVec.ofNat 64 (max op.scale 1) + op.value

/-! ## The encoder -/

/-- `memcpy` of the first four bytes. -/
def bytes32 (value : BitVec 64) : List Nat :=
  [value.toNat % 256, value.toNat / 256 % 256, value.toNat / 65536 % 256,
    value.toNat / 16777216 % 256]

/-- `emitLoadEffectiveAddress`, on registers that pass its assertions. -/
def emitLoadEffectiveAddress (baseReg indexReg : Fin 16) (scale : Nat) (value : BitVec 64)
    (dest : Fin 16) (hasBase hasIndex : Bool) : List Nat :=
  if hasIndex then
    let sa := if scale = 0 then 0 else 64 * Nat.log2 scale
    if hasBase && value == 0 then
      -- without a displacement RBP and R13 are not encodable, so they get one of 0
      [0x48 + (if 8 ≤ baseReg.val then 1 else 0) + (if 8 ≤ indexReg.val then 2 else 0) +
          (if 8 ≤ dest.val then 4 else 0),
        0x8d,
        0x04 + 8 * (dest.val % 8) + (if baseReg.val % 8 = 5 then 0x40 else 0),
        8 * (indexReg.val % 8) + baseReg.val % 8 + sa] ++
        (if baseReg.val % 8 = 5 then [0x00] else [])
    else
      [0x48 + (if hasBase && 8 ≤ baseReg.val then 1 else 0) + (if 8 ≤ indexReg.val then 2 else 0) +
          (if 8 ≤ dest.val then 4 else 0),
        0x8d,
        0x04 + 8 * (dest.val % 8) + (if hasBase then 0x80 else 0),
        8 * (indexReg.val % 8) + (if hasBase then baseReg.val % 8 else 0x05) + sa] ++
        bytes32 value
  else if hasBase then
    [(if dest.val < 8 then 0x48 else 0x4c) + (if baseReg.val < 8 then 0 else 1),
      0x8d,
      0x80 + baseReg.val % 8 + 8 * (dest.val % 8)] ++
      (if baseReg.val % 8 = 4 then [0x24] else []) ++ bytes32 value
  else
    [if dest.val < 8 then 0x48 else 0x4c, 0x8d, 0x04 + 8 * (dest.val % 8), 0x25] ++ bytes32 value

/-! ## The decoder -/

/-- The displacement of `offset` bits, sign-extended; it has to fill the rest. -/
def decodeOffset (offset : Nat) (rest : List Nat) : Option (BitVec 64) :=
  match offset, rest with
  | 0, [] => some 0
  | 8, [d] => some ((BitVec.ofNat 8 d).signExtend 64)
  | 32, [d₀, d₁, d₂, d₃] =>
    some ((BitVec.ofNat 32 (d₀ + 256 * d₁ + 65536 * d₂ + 16777216 * d₃)).signExtend 64)
  | _, _ => none

/-- The operand of a SIB byte; `x` and `b` are the bits of the REX prefix. -/
def decodeSib (mod x b sib : Nat) (rest : List Nat) : Option MemoryOperand := do
  let index := sib / 8 % 8 + 8 * x
  let base := sib % 8 + 8 * b
  let isBp := base = 5 ∨ base = 13
  let value ← decodeOffset (if mod = 1 then 8 else if mod = 2 ∨ isBp then 32 else 0) rest
  return {
    base := if isBp ∧ mod = 0 then 0 else udRRax + base
    index := if index = 4 then 0 else udRRax + index
    scale := if index = 4 then 0 else 2 ^ (sib / 64) / 2 * 2
    value }

/-- The operand without a SIB byte. -/
def decodeRm (mod b rm : Nat) (rest : List Nat) : Option MemoryOperand := do
  let rip := mod = 0 ∧ rm = 5
  let value ← decodeOffset (if mod = 1 then 8 else if mod = 2 ∨ rip then 32 else 0) rest
  return { base := if rip then udRYmm15 + 1 else udRRax + (rm + 8 * b), index := 0, scale := 0, value }

/-- A `lea` with a 64-bit destination: the destination and the operand. -/
def decodeLea : List Nat → Option (Nat × MemoryOperand)
  | rex :: 0x8d :: modrm :: rest =>
    if rex / 8 = 9 ∧ modrm / 64 ≠ 3 then
      let dest := modrm / 8 % 8 + 8 * (rex / 4 % 2)
      if modrm % 8 = 4 then
        match rest with
        | sib :: rest => (decodeSib (modrm / 64) (rex / 2 % 2) (rex % 2) sib rest).map (dest, ·)
        | [] => none
      else (decodeRm (modrm / 64) (rex % 2) (modrm % 8) rest).map (dest, ·)
    else none
  | _ => none

/-! ## The round trip -/

theorem decodeOffset_bytes32 (value : BitVec 64) :
    decodeOffset 32 (bytes32 value) = some ((value.setWidth 32).signExtend 64) := by
  have hlow : BitVec.ofNat 32 (value.toNat % 256 + 256 * (value.toNat / 256 % 256) +
      65536 * (value.toNat / 65536 % 256) + 16777216 * (value.toNat / 16777216 % 256)) =
      value.setWidth 32 := by
    apply BitVec.eq_of_toNat_eq
    rw [BitVec.toNat_ofNat, BitVec.toNat_setWidth]
    omega
  show some ((BitVec.ofNat 32 _).signExtend 64) = _
  rw [hlow]

/-- Reading back the fields of a `lea` with a SIB byte. -/
theorem decodeLea_sib {r x b mod reg sib : Nat} {rest : List Nat} (hr : r < 2) (hx : x < 2)
    (hb : b < 2) (hmod : mod < 3) (hreg : reg < 8) :
    decodeLea ((0x48 + b + 2 * x + 4 * r) :: 0x8d :: (0x04 + 8 * reg + 64 * mod) :: sib :: rest) =
      (decodeSib mod x b sib rest).map (reg + 8 * r, ·) := by
  have hrex : (0x48 + b + 2 * x + 4 * r) / 8 = 9 ∧ (0x04 + 8 * reg + 64 * mod) / 64 ≠ 3 := by omega
  have hrm : (0x04 + 8 * reg + 64 * mod) % 8 = 4 := by omega
  simp only [decodeLea]
  rw [if_pos hrex, if_pos hrm]
  rw [show (0x04 + 8 * reg + 64 * mod) / 64 = mod by omega,
    show (0x04 + 8 * reg + 64 * mod) / 8 % 8 = reg by omega,
    show (0x48 + b + 2 * x + 4 * r) / 2 % 2 = x by omega,
    show (0x48 + b + 2 * x + 4 * r) % 2 = b by omega,
    show (0x48 + b + 2 * x + 4 * r) / 4 % 2 = r by omega]

/-- Reading back the fields of a `lea` with a base register and four bytes. -/
theorem decodeLea_rm {r b rm reg : Nat} {rest : List Nat} (hr : r < 2) (hb : b < 2) (hrm : rm < 8)
    (hreg : reg < 8) (hne : rm ≠ 4) :
    decodeLea ((0x48 + b + 4 * r) :: 0x8d :: (0x80 + rm + 8 * reg) :: rest) =
      (decodeRm 2 b rm rest).map (reg + 8 * r, ·) := by
  have hrex : (0x48 + b + 4 * r) / 8 = 9 ∧ (0x80 + rm + 8 * reg) / 64 ≠ 3 := by omega
  have hrm' : (0x80 + rm + 8 * reg) % 8 ≠ 4 := by omega
  simp only [decodeLea]
  rw [if_pos hrex, if_neg hrm']
  rw [show (0x80 + rm + 8 * reg) / 64 = 2 by omega,
    show (0x80 + rm + 8 * reg) / 8 % 8 = reg by omega,
    show (0x80 + rm + 8 * reg) % 8 = rm by omega,
    show (0x48 + b + 4 * r) % 2 = b by omega,
    show (0x48 + b + 4 * r) / 4 % 2 = r by omega]

/-- Reading back a `lea` with a SIB byte that is put together from the registers. -/
theorem decodeLea_fields (base index dest : Fin 16) {mod s : Nat} (hmod : mod < 3)
    (rest : List Nat) :
    decodeLea ((0x48 + base.val / 8 + 2 * (index.val / 8) + 4 * (dest.val / 8)) :: 0x8d ::
        (0x04 + 8 * (dest.val % 8) + 64 * mod) ::
        (8 * (index.val % 8) + base.val % 8 + 64 * s) :: rest) =
      (decodeOffset (if mod = 1 then 8 else if mod = 2 ∨ base.val = 5 ∨ base.val = 13 then 32 else 0)
        rest).map fun value =>
          (dest.val,
            { base := if (base.val = 5 ∨ base.val = 13) ∧ mod = 0 then 0 else udRRax + base
              index := if index.val = 4 then 0 else udRRax + index
              scale := if index.val = 4 then 0 else 2 ^ s / 2 * 2
              value }) := by
  have hb := base.isLt
  have hi := index.isLt
  have hd := dest.isLt
  rw [decodeLea_sib (by omega) (by omega) (by omega) hmod (by omega)]
  have hbase : (8 * (index.val % 8) + base.val % 8 + 64 * s) % 8 + 8 * (base.val / 8) = base.val := by
    omega
  have hindex : (8 * (index.val % 8) + base.val % 8 + 64 * s) / 8 % 8 + 8 * (index.val / 8) =
      index.val := by
    omega
  have hscale : (8 * (index.val % 8) + base.val % 8 + 64 * s) / 64 = s := by omega
  have hdest : dest.val % 8 + 8 * (dest.val / 8) = dest.val := by omega
  simp only [decodeSib, hbase, hindex, hscale, hdest]
  cases decodeOffset (if mod = 1 then 8 else if mod = 2 ∨ base.val = 5 ∨ base.val = 13 then 32 else 0)
    rest <;> rfl

/-- The scales that `emitLoadEffectiveAddress` is given. -/
theorem scale_decoded {scale : Nat} (h : scale ∈ [0, 1, 2, 4, 8]) :
    2 ^ (if scale = 0 then 0 else Nat.log2 scale) / 2 * 2 = scale / 2 * 2 := by
  have hall : ∀ s ∈ [0, 1, 2, 4, 8], 2 ^ (if s = 0 then 0 else Nat.log2 s) / 2 * 2 = s / 2 * 2 := by
    decide
  exact hall scale h

/-- **The round trip of `lea`.** The bytes decode to the registers, the scale and the low
half of the value that they were made from, for all registers but RSP as an index. -/
theorem decodeLea_emitLoadEffectiveAddress {baseReg indexReg dest : Fin 16} {scale : Nat}
    {value : BitVec 64} {hasBase hasIndex : Bool} (hscale : scale ∈ [0, 1, 2, 4, 8])
    (hindex : hasIndex = true → indexReg.val ≠ 4) :
    decodeLea (emitLoadEffectiveAddress baseReg indexReg scale value dest hasBase hasIndex) =
      some (dest.val,
        { base := if hasBase then udRRax + baseReg else 0
          index := if hasIndex then udRRax + indexReg else 0
          scale := if hasIndex then scale / 2 * 2 else 0
          value := (value.setWidth 32).signExtend 64 }) := by
  have hb := baseReg.isLt
  have hd := dest.isLt
  have hbit : ∀ r : Fin 16, ∀ n : Nat, (if 8 ≤ r.val then n else 0) = n * (r.val / 8) := by
    intro r n
    have hr := r.isLt
    split
    · rw [show r.val / 8 = 1 by omega, Nat.mul_one]
    · rw [show r.val / 8 = 0 by omega, Nat.mul_zero]
  have hdest : (if dest.val < 8 then 0x48 else 0x4c) = 0x48 + 4 * (dest.val / 8) := by
    split <;> omega
  have hbase : (if baseReg.val < 8 then 0 else 1) = baseReg.val / 8 := by
    split <;> omega
  -- the bits of the scale in the SIB byte
  obtain ⟨s, hs⟩ : ∃ s, (if scale = 0 then 0 else Nat.log2 scale) = s := ⟨_, rfl⟩
  have hsa : (if scale = 0 then 0 else 64 * Nat.log2 scale) = 64 * s := by
    rw [← hs]
    split <;> rfl
  have hdecoded := scale_decoded hscale
  rw [hs] at hdecoded
  cases hasIndex with
  | true =>
    have hne := hindex rfl
    cases hasBase with
    | true =>
      by_cases hvalue : value = 0
      · subst hvalue
        by_cases hbp : baseReg.val % 8 = 5
        · have hbytes : emitLoadEffectiveAddress baseReg indexReg scale 0 dest true true =
              (0x48 + baseReg.val / 8 + 2 * (indexReg.val / 8) + 4 * (dest.val / 8)) :: 0x8d ::
                (0x04 + 8 * (dest.val % 8) + 64 * 1) ::
                (8 * (indexReg.val % 8) + baseReg.val % 8 + 64 * s) :: [0] := by
            simp [emitLoadEffectiveAddress, hbit, hsa, hbp]
          rw [hbytes, decodeLea_fields baseReg indexReg dest (by decide)]
          simp [hdecoded, hne]
          rfl
        · have hbp' : ¬ (baseReg.val = 5 ∨ baseReg.val = 13) := by omega
          have hbytes : emitLoadEffectiveAddress baseReg indexReg scale 0 dest true true =
              (0x48 + baseReg.val / 8 + 2 * (indexReg.val / 8) + 4 * (dest.val / 8)) :: 0x8d ::
                (0x04 + 8 * (dest.val % 8) + 64 * 0) ::
                (8 * (indexReg.val % 8) + baseReg.val % 8 + 64 * s) :: [] := by
            simp [emitLoadEffectiveAddress, hbit, hsa, hbp]
          rw [hbytes, decodeLea_fields baseReg indexReg dest (by decide)]
          simp [hdecoded, hne, hbp']
          rfl
      · have hbytes : emitLoadEffectiveAddress baseReg indexReg scale value dest true true =
            (0x48 + baseReg.val / 8 + 2 * (indexReg.val / 8) + 4 * (dest.val / 8)) :: 0x8d ::
              (0x04 + 8 * (dest.val % 8) + 64 * 2) ::
              (8 * (indexReg.val % 8) + baseReg.val % 8 + 64 * s) :: bytes32 value := by
          simp only [emitLoadEffectiveAddress, beq_eq_false_iff_ne.mpr hvalue, Bool.and_false]
          simp [hbit, hsa]
        rw [hbytes, decodeLea_fields baseReg indexReg dest (by decide)]
        simp [hdecoded, hne, decodeOffset_bytes32]
    | false =>
      have hbytes : emitLoadEffectiveAddress baseReg indexReg scale value dest false true =
          (0x48 + (5 : Fin 16).val / 8 + 2 * (indexReg.val / 8) + 4 * (dest.val / 8)) :: 0x8d ::
            (0x04 + 8 * (dest.val % 8) + 64 * 0) ::
            (8 * (indexReg.val % 8) + (5 : Fin 16).val % 8 + 64 * s) :: bytes32 value := by
        simp [emitLoadEffectiveAddress, hbit, hsa]
      rw [hbytes, decodeLea_fields 5 indexReg dest (by decide)]
      simp [hdecoded, hne, decodeOffset_bytes32]
  | false =>
    cases hasBase with
    | true =>
      by_cases hsp : baseReg.val % 8 = 4
      · have hbytes : emitLoadEffectiveAddress baseReg indexReg scale value dest true false =
            (0x48 + baseReg.val / 8 + 2 * ((4 : Fin 16).val / 8) + 4 * (dest.val / 8)) :: 0x8d ::
              (0x04 + 8 * (dest.val % 8) + 64 * 2) ::
              (8 * ((4 : Fin 16).val % 8) + baseReg.val % 8 + 64 * 0) :: bytes32 value := by
          simp [emitLoadEffectiveAddress, hdest, hbase, hsp]
          omega
        rw [hbytes, decodeLea_fields baseReg 4 dest (by decide)]
        simp [decodeOffset_bytes32]
      · have hbytes : emitLoadEffectiveAddress baseReg indexReg scale value dest true false =
            (0x48 + baseReg.val / 8 + 4 * (dest.val / 8)) :: 0x8d ::
              (0x80 + baseReg.val % 8 + 8 * (dest.val % 8)) :: bytes32 value := by
          simp [emitLoadEffectiveAddress, hdest, hbase, hsp]
          omega
        rw [hbytes, decodeLea_rm (by omega) (by omega) (by omega) (by omega) hsp]
        have hb' : baseReg.val % 8 + 8 * (baseReg.val / 8) = baseReg.val := by omega
        have hd' : dest.val % 8 + 8 * (dest.val / 8) = dest.val := by omega
        simp [decodeRm, decodeOffset_bytes32, hb', hd']
    | false =>
      have hbytes : emitLoadEffectiveAddress baseReg indexReg scale value dest false false =
          (0x48 + (5 : Fin 16).val / 8 + 2 * ((4 : Fin 16).val / 8) + 4 * (dest.val / 8)) :: 0x8d ::
            (0x04 + 8 * (dest.val % 8) + 64 * 0) ::
            (8 * ((4 : Fin 16).val % 8) + (5 : Fin 16).val % 8 + 64 * 0) :: bytes32 value := by
        simp [emitLoadEffectiveAddress, hdest]
      rw [hbytes, decodeLea_fields 5 4 dest (by decide)]
      simp [decodeOffset_bytes32]

end Pebil

import Mathlib.Data.BitVec

/-!
# Packed relocations (include/RelocationTable.h:33–117, src/RelocationTable.C:74–88)

A relocation keeps its symbol and its type in one word, `r_info`, in 32-bit files with 24 bits
for the symbol, in 64-bit files with 32. There are four classes, with and without an addend;
`Relocation64` leaves `getSymbol` and `getType` to the base class, where they are not to be
reached.
-/

namespace Pebil

/-- `Relocation32`, `RelocationAddend32`, `Relocation64` and `RelocationAddend64`. -/
inductive Relocation where
  | rel32 (offset info : BitVec 32)
  | rela32 (offset info addend : BitVec 32)
  | rel64 (offset info : BitVec 64)
  | rela64 (offset info addend : BitVec 64)
  deriving DecidableEq, Repr

/-- `ELF32_R_INFO`, as it is stored. -/
def elf32RInfo (sym : BitVec 32) (type : BitVec 64) : BitVec 32 :=
  ((sym <<< 8).setWidth 64 + (type &&& 0xff)).setWidth 32

/-- `ELF64_R_INFO`. -/
def elf64RInfo (sym : BitVec 32) (type : BitVec 64) : BitVec 64 := (sym.setWidth 64 <<< 32) + type

namespace Relocation

/-- `getSymbol`; none where it is not to be reached. -/
def getSymbol : Relocation → Option (BitVec 64)
  | rel32 _ info | rela32 _ info _ => some ((info >>> 8).setWidth 64)
  | rel64 _ _ => none
  | rela64 _ info _ => some (info >>> 32)

/-- `getType`. -/
def getType : Relocation → Option (BitVec 64)
  | rel32 _ info | rela32 _ info _ => some ((info &&& 0xff).setWidth 64)
  | rel64 _ _ => none
  | rela64 _ info _ => some (info &&& 0xffffffff)

/-- `setSymbolInfo`. -/
def setSymbolInfo (r : Relocation) (sym : BitVec 32) : Option Relocation :=
  r.getType.map fun type =>
    match r with
    | rel32 offset _ => rel32 offset (elf32RInfo sym type)
    | rela32 offset _ addend => rela32 offset (elf32RInfo sym type) addend
    | rel64 offset _ => rel64 offset (elf64RInfo sym type)
    | rela64 offset _ addend => rela64 offset (elf64RInfo sym type) addend

/-! ## The fields as the format has them -/

/-- The bits that are kept of a symbol's number. -/
def symbolBits : Relocation → Nat
  | rel32 .. | rela32 .. => 24
  | rel64 .. | rela64 .. => 32

/-- The symbol's number. -/
def symbolNumber : Relocation → Nat
  | rel32 _ info | rela32 _ info _ => (info >>> 8).toNat
  | rel64 _ info | rela64 _ info _ => (info >>> 32).toNat

/-- The relocation without its symbol: where it is, its type and its addend. -/
def rest : Relocation → Nat × Nat × Option Nat
  | rel32 offset info => (offset.toNat, info.toNat % 2 ^ 8, none)
  | rela32 offset info addend => (offset.toNat, info.toNat % 2 ^ 8, some addend.toNat)
  | rel64 offset info => (offset.toNat, info.toNat % 2 ^ 32, none)
  | rela64 offset info addend => (offset.toNat, info.toNat % 2 ^ 32, some addend.toNat)

/-- The class that has no `getSymbol`. -/
def isRel64 : Relocation → Bool
  | rel64 .. => true
  | _ => false

variable {r r' : Relocation} {sym : BitVec 32}

theorem symbolBits_le (r : Relocation) : r.symbolBits ≤ 32 := by
  cases r <;> simp [symbolBits]

theorem symbolNumber_lt (r : Relocation) : r.symbolNumber < 2 ^ r.symbolBits := by
  cases r with
  | rel32 offset info | rela32 offset info addend =>
    have := info.isLt
    simp only [symbolNumber, symbolBits, BitVec.toNat_ushiftRight, Nat.shiftRight_eq_div_pow]
    omega
  | rel64 offset info | rela64 offset info addend =>
    have := info.isLt
    simp only [symbolNumber, symbolBits, BitVec.toNat_ushiftRight, Nat.shiftRight_eq_div_pow]
    omega

theorem getSymbol_of_isRel64 (h : r.isRel64 = true) : r.getSymbol = none := by
  cases r <;> simp_all [isRel64, getSymbol]

theorem getSymbol_eq (h : r.isRel64 = false) :
    ∃ sym, r.getSymbol = some sym ∧ sym.toNat = r.symbolNumber := by
  cases r with
  | rel32 offset info => exact ⟨_, rfl, BitVec.toNat_setWidth_of_le (by decide)⟩
  | rela32 offset info addend => exact ⟨_, rfl, BitVec.toNat_setWidth_of_le (by decide)⟩
  | rel64 offset info => cases h
  | rela64 offset info addend => exact ⟨_, rfl, rfl⟩

/-! ## Packing and unpacking -/

theorem toNat_and_ff (x : BitVec 32) : (x &&& 0xff).toNat = x.toNat % 2 ^ 8 := by
  rw [BitVec.toNat_and]
  exact Nat.and_two_pow_sub_one_eq_mod _ 8

theorem toNat_and_ff_64 (x : BitVec 64) : (x &&& 0xff).toNat = x.toNat % 2 ^ 8 := by
  rw [BitVec.toNat_and]
  exact Nat.and_two_pow_sub_one_eq_mod _ 8

theorem toNat_and_ffffffff (x : BitVec 64) : (x &&& 0xffffffff).toNat = x.toNat % 2 ^ 32 := by
  rw [BitVec.toNat_and]
  exact Nat.and_two_pow_sub_one_eq_mod _ 32

theorem toNat_elf32RInfo (sym info : BitVec 32) :
    (elf32RInfo sym ((info &&& 0xff).setWidth 64)).toNat =
      sym.toNat % 2 ^ 24 * 2 ^ 8 + info.toNat % 2 ^ 8 := by
  simp only [elf32RInfo, BitVec.toNat_setWidth, BitVec.toNat_add, toNat_and_ff_64, toNat_and_ff,
    BitVec.toNat_shiftLeft, Nat.shiftLeft_eq]
  omega

theorem toNat_elf64RInfo (sym : BitVec 32) (info : BitVec 64) :
    (elf64RInfo sym (info &&& 0xffffffff)).toNat =
      sym.toNat * 2 ^ 32 + info.toNat % 2 ^ 32 := by
  have hsym := sym.isLt
  simp only [elf64RInfo, BitVec.toNat_setWidth, BitVec.toNat_add, toNat_and_ffffffff,
    BitVec.toNat_shiftLeft, Nat.shiftLeft_eq]
  omega

/-- **A symbol's number is stored with the bits there are for it**, and nothing else of the
relocation changes. -/
theorem setSymbolInfo_eq (h : r.isRel64 = false) (sym : BitVec 32) :
    ∃ r', r.setSymbolInfo sym = some r' ∧ r'.symbolNumber = sym.toNat % 2 ^ r.symbolBits ∧
      r'.rest = r.rest ∧ r'.isRel64 = false := by
  cases r with
  | rel32 offset info =>
    refine ⟨_, rfl, ?_, ?_, rfl⟩
    · simp only [symbolNumber, symbolBits, BitVec.toNat_ushiftRight, toNat_elf32RInfo,
        Nat.shiftRight_eq_div_pow]
      omega
    · simp only [rest, toNat_elf32RInfo, Prod.mk.injEq, true_and, and_true]
      omega
  | rela32 offset info addend =>
    refine ⟨_, rfl, ?_, ?_, rfl⟩
    · simp only [symbolNumber, symbolBits, BitVec.toNat_ushiftRight, toNat_elf32RInfo,
        Nat.shiftRight_eq_div_pow]
      omega
    · simp only [rest, toNat_elf32RInfo, Prod.mk.injEq, true_and, and_true]
      omega
  | rel64 offset info => cases h
  | rela64 offset info addend =>
    have hsym := sym.isLt
    refine ⟨_, rfl, ?_, ?_, rfl⟩
    · simp only [symbolNumber, symbolBits, BitVec.toNat_ushiftRight, toNat_elf64RInfo,
        Nat.shiftRight_eq_div_pow]
      omega
    · simp only [rest, toNat_elf64RInfo, Prod.mk.injEq, true_and, and_true]
      omega

end Relocation

end Pebil

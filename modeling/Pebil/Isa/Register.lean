import Pebil.Base.RegisterSet

/-!
# Registers (include/X86Instruction.h:45–185, src/X86Instruction.C:703–912)

The disassembler numbers registers in one enumeration, `ud_type`; the range macros
of the header classify a number, and the `convertUd*` functions map the numbers of
the general purpose and XMM registers to the ALU registers 0 to `X86_ALU_REGS - 1`
that the liveness tables are about.

`Register` is the enumeration with its structure made visible, and `Register.aluIndex`
is the ALU register a register is a part of. On every register that `IS_ALU_REG`
admits the conversion yields its alias (`namesAlu_iff`); it admits no YMM and no
x87 register, although both have an alias.
-/

namespace Pebil

/-! ## Numbers of `ud_type`; 0 is `UD_NONE` -/

def udRAl : Nat := 1
def udRBl : Nat := 4
def udRAh : Nat := 5
def udRR15b : Nat := 20
def udRAx : Nat := 21
def udRR15w : Nat := 36
def udREax : Nat := 37
def udRR15d : Nat := 52
def udRRax : Nat := 53
def udRR15 : Nat := 68
def udRSt0 : Nat := 115
def udRSt7 : Nat := 122
def udRXmm0 : Nat := 123
def udRXmm15 : Nat := 138
def udRYmm0 : Nat := 139
def udRYmm15 : Nat := 154

/-! ## The range macros -/

/-- The numbers from `lo` to `hi`. -/
def inUdRange (lo hi : Nat) (reg : Nat) : Bool := lo ≤ reg && reg ≤ hi

theorem inUdRange_iff {lo hi reg : Nat} :
    inUdRange lo hi reg = true ↔ lo ≤ reg ∧ reg ≤ hi := by
  simp [inUdRange]

def isL8BitGpr : Nat → Bool := inUdRange udRAl udRBl
def isH8BitGpr : Nat → Bool := inUdRange udRAh udRR15b
def is8BitGpr (reg : Nat) : Bool := isL8BitGpr reg || isH8BitGpr reg
def is16BitGpr : Nat → Bool := inUdRange udRAx udRR15w
def is32BitGpr : Nat → Bool := inUdRange udREax udRR15d
def is64BitGpr : Nat → Bool := inUdRange udRRax udRR15
def isX87Reg : Nat → Bool := inUdRange udRSt0 udRSt7
def isXmmReg : Nat → Bool := inUdRange udRXmm0 udRXmm15
def isYmmReg : Nat → Bool := inUdRange udRYmm0 udRYmm15

/-- `IS_GPR`. -/
def isGpr (reg : Nat) : Bool :=
  is8BitGpr reg || is16BitGpr reg || is32BitGpr reg || is64BitGpr reg

/-- `IS_ALU_REG`. -/
def isAluReg (reg : Nat) : Bool := isGpr reg || isXmmReg reg

/-! ## Conversions -/

/-- `X86_FPREG_XMM0`. -/
def x86FpregXmm0 : Nat := 16

/-- `X87_REG_ST0`. -/
def x87RegSt0 : Nat := 32

/-- `convertUdGPReg`; 0 after the assertion that is not to be reached. -/
def convertUdGPReg (reg : Nat) : Nat :=
  if is64BitGpr reg then reg - udRRax
  else if is32BitGpr reg then reg - udREax
  else if is16BitGpr reg then reg - udRAx
  else if isH8BitGpr reg then reg - udRAh
  else if isL8BitGpr reg then reg - udRAl
  else 0

/-- `convertUdXMMReg`. -/
def convertUdXMMReg (reg : Nat) : Nat := reg - udRXmm0 + x86FpregXmm0

/-- `convertUdYMMReg`. -/
def convertUdYMMReg (reg : Nat) : Nat := reg - udRYmm0 + x86FpregXmm0

/-- The body that `OperandX86::getBaseRegister` and `getIndexRegister` share. They are
called on what `IS_ALU_REG` admits only, so that the YMM branch is never taken. -/
def aluRegister (reg : Nat) : Nat :=
  if isGpr reg then convertUdGPReg reg
  else if isXmmReg reg then convertUdXMMReg reg
  else if isYmmReg reg then convertUdYMMReg reg
  else 0

/-! ## The registers and their aliases -/

/-- The registers of the enumeration, class by class. -/
inductive Register where
  /-- AL, CL, DL, BL. -/
  | low8 (n : Fin 4)
  /-- AH, CH, DH, BH. -/
  | high8 (n : Fin 4)
  /-- SPL, BPL, SIL, DIL, R8B to R15B. -/
  | rex8 (n : Fin 12)
  | gpr16 (n : Fin 16)
  | gpr32 (n : Fin 16)
  | gpr64 (n : Fin 16)
  | segment (n : Fin 6)
  | control (n : Fin 16)
  | debug (n : Fin 16)
  | mmx (n : Fin 8)
  | st (n : Fin 8)
  | xmm (n : Fin 16)
  | ymm (n : Fin 16)
  | rip
  deriving DecidableEq, Repr

namespace Register

/-- Its number in `ud_type`. -/
def ud : Register → Nat
  | low8 n => 1 + n
  | high8 n => 5 + n
  | rex8 n => 9 + n
  | gpr16 n => 21 + n
  | gpr32 n => 37 + n
  | gpr64 n => 53 + n
  | segment n => 69 + n
  | control n => 75 + n
  | debug n => 91 + n
  | mmx n => 107 + n
  | st n => 115 + n
  | xmm n => 123 + n
  | ymm n => 139 + n
  | rip => 155

/-- The ALU register it is a part of, if it is part of one: an `X86_REG_*`,
`X86_FPREG_XMM*` or `X87_REG_ST*`. A YMM register contains the XMM register of its
number. -/
def aluIndex : Register → Option Nat
  | low8 n => some n
  | high8 n => some n
  | rex8 n => some (n + 4)
  | gpr16 n => some n
  | gpr32 n => some n
  | gpr64 n => some n
  | st n => some (x87RegSt0 + n)
  | xmm n => some (x86FpregXmm0 + n)
  | ymm n => some (x86FpregXmm0 + n)
  | segment _ => none
  | control _ => none
  | debug _ => none
  | mmx _ => none
  | rip => none

/-- The registers that have an alias and that `IS_ALU_REG` leaves out. -/
def Unadmitted : Register → Prop
  | st _ => True
  | ymm _ => True
  | _ => False

theorem ud_pos (r : Register) : r.ud ≠ 0 := by
  cases r <;> simp only [ud] <;> omega

theorem aluIndex_lt {r : Register} {j : Nat} (h : r.aluIndex = some j) : j < x86AluRegs := by
  unfold x86AluRegs
  cases r <;>
    simp only [aluIndex, Option.some.injEq, reduceCtorEq, x87RegSt0, x86FpregXmm0] at h <;> omega

end Register

/-- What `IS_ALU_REG` admits is converted to its alias; what it does not admit has none,
but for the YMM and the x87 registers. -/
theorem aluIndex_eq {r : Register} (h : ¬ r.Unadmitted) :
    r.aluIndex = if isAluReg r.ud then some (aluRegister r.ud) else none := by
  cases r with
  | st n => exact absurd trivial h
  | ymm n => exact absurd trivial h
  | _ => clear h; decide +revert

/-- `IS_ALU_REG` admits AL to R15 and XMM0 to XMM15. -/
theorem isAluReg_iff {reg : Nat} :
    isAluReg reg = true ↔ 1 ≤ reg ∧ reg ≤ 68 ∨ 123 ≤ reg ∧ reg ≤ 138 := by
  simp only [isAluReg, isGpr, is8BitGpr, isL8BitGpr, isH8BitGpr, is16BitGpr, is32BitGpr,
    is64BitGpr, isXmmReg, inUdRange_iff, Bool.or_eq_true, udRAl, udRBl, udRAh, udRR15b, udRAx,
    udRR15w, udREax, udRR15d, udRRax, udRR15, udRXmm0, udRXmm15]
  omega

/-- Every number that `IS_ALU_REG` admits is a register's. -/
theorem exists_ud {reg : Nat} (h : isAluReg reg = true) :
    ∃ r : Register, r.ud = reg ∧ ¬ r.Unadmitted := by
  rcases isAluReg_iff.mp h with ⟨hlo, hhi⟩ | ⟨hlo, hhi⟩
  · by_cases h₁ : reg ≤ 4
    · exact ⟨.low8 ⟨reg - 1, by omega⟩, by simp only [Register.ud]; omega, id⟩
    by_cases h₂ : reg ≤ 8
    · exact ⟨.high8 ⟨reg - 5, by omega⟩, by simp only [Register.ud]; omega, id⟩
    by_cases h₃ : reg ≤ 20
    · exact ⟨.rex8 ⟨reg - 9, by omega⟩, by simp only [Register.ud]; omega, id⟩
    by_cases h₄ : reg ≤ 36
    · exact ⟨.gpr16 ⟨reg - 21, by omega⟩, by simp only [Register.ud]; omega, id⟩
    by_cases h₅ : reg ≤ 52
    · exact ⟨.gpr32 ⟨reg - 37, by omega⟩, by simp only [Register.ud]; omega, id⟩
    · exact ⟨.gpr64 ⟨reg - 53, by omega⟩, by simp only [Register.ud]; omega, id⟩
  · exact ⟨.xmm ⟨reg - 123, by omega⟩, by simp only [Register.ud]; omega, id⟩

/-- The operand field `reg` names a register that is part of ALU register `j`. -/
def NamesAlu (reg : Nat) (j : Nat) : Prop :=
  ∃ r : Register, r.ud = reg ∧ r.aluIndex = some j

/-- The operand field `reg` names a YMM or an x87 register. -/
def NamesUnadmitted (reg : Nat) : Prop := ∃ r : Register, r.ud = reg ∧ r.Unadmitted

theorem not_namesAlu_zero {j : Nat} : ¬ NamesAlu 0 j := by
  rintro ⟨r, hr, -⟩
  exact r.ud_pos hr

theorem not_namesUnadmitted {reg : Nat} (h : reg < 115) : ¬ NamesUnadmitted reg := by
  rintro ⟨r, rfl, hun⟩
  cases r with
  | st n => simp only [Register.ud] at h; omega
  | ymm n => simp only [Register.ud] at h; omega
  | _ => exact hun

/-- Unless it names a YMM or an x87 register, what `IS_ALU_REG` and the conversion make
of an operand field is the ALU register it names. -/
theorem namesAlu_iff {reg : Nat} (h : ¬ NamesUnadmitted reg) (j : Nat) :
    NamesAlu reg j ↔ isAluReg reg = true ∧ aluRegister reg = j := by
  constructor
  · rintro ⟨r, rfl, hr⟩
    rw [aluIndex_eq fun hun => h ⟨r, rfl, hun⟩] at hr
    split at hr
    · exact ⟨‹_›, Option.some.inj hr⟩
    · cases hr
  · rintro ⟨hadmitted, rfl⟩
    obtain ⟨r, rfl, hun⟩ := exists_ud hadmitted
    exact ⟨r, rfl, by rw [aluIndex_eq hun, if_pos hadmitted]⟩

end Pebil

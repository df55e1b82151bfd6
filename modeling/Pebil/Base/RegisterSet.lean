import Pebil.Base.BitSet
import Pebil.Base.Word

/-!
# `RegisterSet` (include/X86Instruction.h:191–208, src/X86Instruction.C:103–149)

One bit set for the status flags and the ALU registers: flag `i` is bit `i`,
register `j` is bit `X86_FLAG_BITS + j`. The set operators are those of `BitSet`.

Bits between `X86_FLAG_BITS + X86_ALU_REGS` and the end of the last storage word
exist but no member function reaches them; `Mem` is about every stored bit, and
`containsFlag` and `containsRegister` read it on the real ones.
-/

namespace Pebil

/-- `X86_FLAG_BITS`. -/
def x86FlagBits : Nat := 32

/-- `X86_ALU_REGS`: 16 general purpose, 16 XMM and 8 x87 registers. -/
def x86AluRegs : Nat := 40

/-- `RegisterSet`. -/
abbrev RegisterSet := BitSet (x86FlagBits + x86AluRegs)

namespace RegisterSet

/-- `RegisterSet::RegisterSet`. -/
def empty : RegisterSet := BitSet.new _

/-- `RegisterSet::operator|=` and `operator|`. -/
def union (s rhs : RegisterSet) : RegisterSet := BitSet.union s rhs

/-- `RegisterSet::operator-=` and `operator-`. -/
def diff (s rhs : RegisterSet) : RegisterSet := BitSet.diff s rhs

/-- `RegisterSet::operator==`. -/
def eq (s rhs : RegisterSet) : Bool := BitSet.eq s rhs

/-- `RegisterSet::addFlag`. -/
def addFlag (s : RegisterSet) (flagNum : Nat) : RegisterSet := BitSet.insert s flagNum

/-- `RegisterSet::addRegister`. -/
def addRegister (s : RegisterSet) (regNum : Nat) : RegisterSet :=
  BitSet.insert s (x86FlagBits + regNum)

/-- `RegisterSet::containsFlag`: the flag number is not checked, so a number
from `X86_FLAG_BITS` on reads a register's bit. -/
def containsFlag (s : RegisterSet) (flagNum : Nat) : Bool := BitSet.contains s flagNum

/-- `RegisterSet::containsRegister`. -/
def containsRegister (s : RegisterSet) (regNum : Nat) : Bool :=
  BitSet.contains s (x86FlagBits + regNum)

/-- A stored bit. -/
def Mem (s : RegisterSet) (n : Nat) : Prop := BitSet.test s n = true

instance (s : RegisterSet) (n : Nat) : Decidable (s.Mem n) :=
  inferInstanceAs (Decidable (_ = _))

/-- The number of stored bits: three 32-bit words. -/
def storedBits : Nat := 32 * internalCount (x86FlagBits + x86AluRegs)

variable {s t : RegisterSet} {n : Nat}

@[simp] theorem not_mem_empty : ¬ empty.Mem n := by
  simp [Mem, empty]

@[simp] theorem mem_union : (union s t).Mem n ↔ s.Mem n ∨ t.Mem n := by
  simp [Mem, union]

@[simp] theorem mem_diff : (diff s t).Mem n ↔ s.Mem n ∧ ¬ t.Mem n := by
  simp [Mem, diff]

theorem eq_iff_mem : eq s t = true ↔ ∀ n, s.Mem n ↔ t.Mem n := by
  rw [eq, BitSet.eq_iff_test]
  exact forall_congr' fun n => Bool.eq_iff_iff

theorem mem_lt (h : s.Mem n) : n < storedBits := by
  by_contra hge
  rw [Mem, BitSet.test_of_ge s (Nat.le_of_not_lt hge)] at h
  cases h

/-- A flag number in range is its own bit. -/
theorem containsFlag_iff (h : n < x86FlagBits) : s.containsFlag n = true ↔ s.Mem n := by
  rw [containsFlag, BitSet.contains_eq_test s (by omega), Mem]

/-- A register number in range is the bit `X86_FLAG_BITS` further. -/
theorem containsRegister_iff (h : n < x86AluRegs) :
    s.containsRegister n = true ↔ s.Mem (x86FlagBits + n) := by
  rw [containsRegister, BitSet.contains_eq_test s (by omega), Mem]

end RegisterSet

end Pebil

import Mathlib.Data.BitVec

/-!
# Numbers of registers and operands, and addresses

The instances by which the definitions write the number of one of the sixteen general purpose
registers, of one of the six segment registers or of one of the four operands, and look for an
address in a list.
-/

namespace Pebil

instance neZeroRegisters : NeZero 16 := ⟨by decide⟩

instance neZeroSegments : NeZero 6 := ⟨by decide⟩

instance neZeroOperands : NeZero 4 := ⟨by decide⟩

instance lawfulBEqAddress : LawfulBEq (BitVec 64) := inferInstance

end Pebil

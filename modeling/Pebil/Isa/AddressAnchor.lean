import Pebil.Isa.Instruction
import Pebil.Isa.Register
import Pebil.Lib.ByteMemory
import Mathlib.Data.List.Induction

/-!
# Address anchors (src/AddressAnchor.C, src/X86Instruction.C:1150–1162)

An anchor links an instruction or a data reference to an object whose address it holds.
When the output file is written, the operand bytes of the linked parent are overwritten
with what the link has become.

`dump8` to `dump64` are given the link value cut to their width, and assert that what is
left of the difference after the cut is 0. That holds of every number: whatever does not
fit is written truncated.
-/

namespace Pebil

open ByteMemory

/-- `OperandX86` with `getBytesUsed` and `getBytePosition`. -/
structure EncodedOperand extends OperandX86 where
  bytesUsed : Nat
  bytePosition : Nat
  deriving DecidableEq, Repr

/-- `OperandX86::isRelative`. -/
def EncodedOperand.isRelative (op : EncodedOperand) : Bool :=
  op.type == .jimm || op.base == Register.rip.ud

/-- `LinkClasses`. -/
inductive LinkClass where
  | dataReference
  | instructionImmediate
  | instructionRelative
  deriving DecidableEq, Repr

/-- `linkedParent`: what holds the address. -/
inductive LinkedParent where
  | dataReference (is64Bit : Bool) (sectionOffset : Nat)
  | instruction (baseAddress : BitVec 64) (sizeInBytes : BitVec 32)
      (operands : Fin 4 → Option EncodedOperand)

/-- `AddressAnchor`: the base address of the link, the parent, and the flag given to the
constructor. -/
structure AddressAnchor where
  link : BitVec 64
  linkedParent : LinkedParent
  imm : Bool

namespace AddressAnchor

variable (a : AddressAnchor)

/-- `linkClass`, as the constructor sets it. -/
def linkClass : LinkClass :=
  match a.linkedParent with
  | .dataReference _ _ => .dataReference
  | .instruction _ _ _ => if a.imm then .instructionImmediate else .instructionRelative

/-- `getLinkOffset`, which `getLinkValue` returns. -/
def getLinkValue : BitVec 64 :=
  match a.linkedParent with
  | .dataReference _ _ => a.link
  | .instruction baseAddress sizeInBytes _ =>
    if a.imm then a.link else a.link - baseAddress - sizeInBytes.setWidth 64

/-! ## Writing -/

/-- What `dump8`, `dump16`, `dump32` and `dump64` have in common: the assertion, and the
bytes of the value copied to the file. -/
def dumpValue (w : Nat) (file : ByteMemory) (offset : Nat) (value : BitVec w) : Option ByteMemory :=
  if (a.getLinkValue - value.setWidth 64).setWidth w = 0 then
    some (file.write offset (littleEndian (w / 8) value.toNat))
  else none

def dump8 (file : ByteMemory) (offset : Nat) (value : BitVec 8) : Option ByteMemory :=
  a.dumpValue 8 file offset value

def dump16 (file : ByteMemory) (offset : Nat) (value : BitVec 16) : Option ByteMemory :=
  a.dumpValue 16 file offset value

def dump32 (file : ByteMemory) (offset : Nat) (value : BitVec 32) : Option ByteMemory :=
  a.dumpValue 32 file offset value

def dump64 (file : ByteMemory) (offset : Nat) (value : BitVec 64) : Option ByteMemory :=
  a.dumpValue 64 file offset value

/-- `dumpDataReference`. -/
def dumpDataReference (is64Bit : Bool) (sectionOffset : Nat) (offset : Nat) (file : ByteMemory) :
    Option ByteMemory :=
  if is64Bit then a.dump64 file (offset + sectionOffset) a.getLinkValue
  else a.dump32 file (offset + sectionOffset) (a.getLinkValue.setWidth 32)

/-- Whether the operand is one that `dumpInstruction` overwrites. -/
def overwrite (op : EncodedOperand) : Bool :=
  (op.isRelative && a.linkClass == .instructionRelative) ||
    (op.type == .imm && a.linkClass == .instructionImmediate)

/-- The body of the loop over the operands, for one that is overwritten. -/
def dumpOperand (offset : Nat) (file : ByteMemory) (op : EncodedOperand) : Option ByteMemory :=
  match op.bytesUsed with
  | 1 => a.dump8 file (offset + op.bytePosition) (a.getLinkValue.setWidth 8)
  | 2 => a.dump16 file (offset + op.bytePosition) (a.getLinkValue.setWidth 16)
  | 4 => a.dump32 file (offset + op.bytePosition) (a.getLinkValue.setWidth 32)
  | 8 => a.dump64 file (offset + op.bytePosition) (a.getLinkValue.setWidth 64)
  | _ => none

/-- The operands that are overwritten, in the order of the loop. -/
def overwritten (operands : Fin 4 → Option EncodedOperand) : List EncodedOperand :=
  ((List.finRange 4).filterMap operands).filter a.overwrite

/-- `dumpInstruction`. -/
def dumpInstruction (operands : Fin 4 → Option EncodedOperand) (offset : Nat)
    (file : ByteMemory) : Option ByteMemory :=
  (a.overwritten operands).foldlM (a.dumpOperand offset) file

/-- `AddressAnchor::dump`; none when an assertion fails. -/
def dump (offset : Nat) (file : ByteMemory) : Option ByteMemory :=
  match a.linkedParent with
  | .dataReference is64Bit sectionOffset => a.dumpDataReference is64Bit sectionOffset offset file
  | .instruction _ _ operands => a.dumpInstruction operands offset file

/-! ## What is written -/

variable {a} {file : ByteMemory} {offset w : Nat}

/-- The assertion of `dump8` to `dump64` holds of the value that they are given. -/
theorem dumpValue_truncated (hw : w ≤ 64) :
    a.dumpValue w file offset (a.getLinkValue.setWidth w) =
      some (file.write offset (littleEndian (w / 8) (a.getLinkValue.setWidth w).toNat)) := by
  refine if_pos ?_
  rw [BitVec.sub_eq_add_neg, BitVec.setWidth_add _ _ hw, BitVec.setWidth_neg_of_le hw,
    BitVec.setWidth_setWidth_of_le _ hw, BitVec.setWidth_eq, ← BitVec.sub_eq_add_neg]
  exact BitVec.sub_self _

/-- An operand of one of the four sizes is overwritten with the low bytes of the link
value. -/
theorem dumpOperand_eq {op : EncodedOperand} (h : op.bytesUsed ∈ [1, 2, 4, 8]) :
    a.dumpOperand offset file op =
      some (file.write (offset + op.bytePosition) (littleEndian op.bytesUsed a.getLinkValue.toNat)) := by
  have hsize (n : Nat) (hn : 8 * n ≤ 64) (offset : Nat) :
      a.dumpValue (8 * n) file offset (a.getLinkValue.setWidth (8 * n)) =
        some (file.write offset (littleEndian n a.getLinkValue.toNat)) := by
    rw [dumpValue_truncated hn, Nat.mul_div_cancel_left n (by decide), BitVec.toNat_setWidth,
      Nat.pow_mul]
    exact congrArg (fun l => some (file.write offset l)) (littleEndian_mod n _)
  simp only [List.mem_cons, List.not_mem_nil, or_false] at h
  rw [dumpOperand]
  rcases h with h | h | h | h <;> rw [h]
  · exact hsize 1 (by decide) _
  · exact hsize 2 (by decide) _
  · exact hsize 4 (by decide) _
  · exact hsize 8 (by decide) _

/-- The loop over the operands writes the link value into each. -/
theorem foldlM_dumpOperand {ops : List EncodedOperand} (hsizes : ∀ op ∈ ops, op.bytesUsed ∈ [1, 2, 4, 8])
    (file : ByteMemory) : ops.foldlM (a.dumpOperand offset) file =
      some (ops.foldl (fun file op =>
        file.write (offset + op.bytePosition) (littleEndian op.bytesUsed a.getLinkValue.toNat)) file) := by
  induction ops generalizing file with
  | nil => rfl
  | cons op ops ih =>
    obtain ⟨hop, hops⟩ := List.forall_mem_cons.mp hsizes
    rw [List.foldlM_cons, dumpOperand_eq hop]
    exact ih hops _

/-- Operands apart from each other are all found as they were written. -/
theorem read_foldl_write {ops : List EncodedOperand} {v : Nat}
    (hapart : ops.Pairwise fun p q =>
      Apart p.bytePosition p.bytesUsed q.bytePosition q.bytesUsed) (file : ByteMemory) :
    ∀ op ∈ ops, (ops.foldl (fun file op =>
      file.write (offset + op.bytePosition) (littleEndian op.bytesUsed v)) file).read
        (offset + op.bytePosition) op.bytesUsed = littleEndian op.bytesUsed v := by
  -- from the last operand to the first, whose bytes the later ones leave alone
  induction ops using List.reverseRecOn with
  | nil => exact nofun
  | append_singleton ops last ih =>
    obtain ⟨hops, -, hlast⟩ := List.pairwise_append.mp hapart
    intro op hop
    rw [List.foldl_append, List.foldl_cons, List.foldl_nil]
    rcases List.mem_append.mp hop with hop | hop
    · rw [read_write_of_apart, ih hops op hop]
      have := hlast op hop last (List.mem_singleton_self last)
      unfold Apart at this ⊢
      rw [length_littleEndian]
      omega
    · obtain rfl := List.mem_singleton.mp hop
      -- the last operand is written over everything before
      suffices h : ∀ m : ByteMemory, (m.write (offset + op.bytePosition)
          (littleEndian op.bytesUsed v)).read (offset + op.bytePosition)
            (littleEndian op.bytesUsed v).length = littleEndian op.bytesUsed v by
        specialize h (ops.foldl (fun file op =>
          file.write (offset + op.bytePosition) (littleEndian op.bytesUsed v)) file)
        rwa [length_littleEndian] at h
      exact fun m => read_write

end AddressAnchor

/-! ## Anchors of instructions -/

/-- The number fits into `n` bytes with a sign. -/
def FitsSigned (n : Nat) (v : BitVec 64) : Prop :=
  -(2 ^ (8 * n - 1) : Int) ≤ v.toInt ∧ v.toInt < 2 ^ (8 * n - 1)

instance (n : Nat) (v : BitVec 64) : Decidable (FitsSigned n v) :=
  inferInstanceAs (Decidable (_ ∧ _))

/-- Cutting a number to `w` bits and extending its sign gives it back if it fits. -/
theorem signExtend_setWidth_eq_iff {w : Nat} {v : BitVec 64} (hpos : 0 < w) (hw : w ≤ 64) :
    (v.setWidth w).signExtend 64 = v ↔ -(2 ^ (w - 1) : Int) ≤ v.toInt ∧ v.toInt < 2 ^ (w - 1) := by
  have hcut : (v.setWidth w).toInt = v.toInt.bmod (2 ^ w) := by
    rw [BitVec.toInt_setWidth, BitVec.toInt_eq_toNat_bmod, Int.bmod_bmod_of_dvd]
    exact Nat.pow_dvd_pow 2 hw
  have hhalf : (2 : Int) ^ w = 2 * 2 ^ (w - 1) := by
    rw [← Int.pow_succ', Nat.sub_add_cancel hpos]
  rw [← BitVec.toInt_inj, BitVec.toInt_signExtend_of_le hw]
  constructor
  · intro h
    rw [← h]
    exact ⟨BitVec.le_toInt _, BitVec.toInt_lt⟩
  · rintro ⟨hle, hlt⟩
    rw [hcut]
    refine Int.bmod_eq_of_le_mul_two ?_ ?_ <;>
    · push_cast
      omega

/-- An anchor of an operand that its instruction has. The operands that are overwritten use
1, 2, 4 or 8 bytes, and no byte is used by two of them. -/
structure InstructionAnchor extends AddressAnchor where
  baseAddress : BitVec 64
  sizeInBytes : BitVec 32
  operands : Fin 4 → Option EncodedOperand
  isInstruction : linkedParent = .instruction baseAddress sizeInBytes operands
  present : toAddressAnchor.overwritten operands ≠ []
  sizes : ∀ op ∈ toAddressAnchor.overwritten operands, op.bytesUsed ∈ [1, 2, 4, 8]
  apart : (toAddressAnchor.overwritten operands).Pairwise fun p q =>
    Apart p.bytePosition p.bytesUsed q.bytePosition q.bytesUsed

namespace InstructionAnchor

variable (a : InstructionAnchor)

/-- The value the operand is to have: the link's address, from the end of the instruction
on if the anchor is relative. -/
def target : BitVec 64 :=
  if a.imm then a.link else a.link - (a.baseAddress + a.sizeInBytes.setWidth 64)

/-- The sign-extended value of an operand in the file. -/
def operandValue (file : ByteMemory) (offset : Nat) (op : EncodedOperand) : BitVec 64 :=
  (BitVec.ofNat (8 * op.bytesUsed)
    (ofLittleEndian (file.read (offset + op.bytePosition) op.bytesUsed))).signExtend 64

/-- The operands are right in the file. -/
def Patched (offset : Nat) (file : ByteMemory) : Prop :=
  ∀ op ∈ a.overwritten a.operands, operandValue file offset op = a.target

variable {a} {offset : Nat} {file : ByteMemory}

theorem getLinkValue_eq : a.getLinkValue = a.target := by
  rw [target, ← BitVec.sub_sub, AddressAnchor.getLinkValue, a.isInstruction]

/-- `dump` never fails, and each operand gets the low bytes of the value. -/
theorem dump_spec (a : InstructionAnchor) (offset : Nat) (file : ByteMemory) :
    ∃ file', a.dump offset file = some file' ∧
    ∀ op ∈ a.overwritten a.operands, operandValue file' offset op =
      (a.target.setWidth (8 * op.bytesUsed)).signExtend 64 := by
  have hdump : a.dump offset file = a.dumpInstruction a.operands offset file := by
    simp only [AddressAnchor.dump, a.isInstruction]
  refine ⟨_, hdump.trans (AddressAnchor.foldlM_dumpOperand a.sizes file), fun op hop => ?_⟩
  rw [operandValue, AddressAnchor.read_foldl_write a.apart file op hop, getLinkValue_eq,
    ofLittleEndian_littleEndian]
  congr 1
  apply BitVec.eq_of_toNat_eq
  rw [BitVec.toNat_ofNat, BitVec.toNat_setWidth, Nat.pow_mul]
  exact Nat.mod_mod _ _

/-- **Operand patching**: `dump` aborts or leaves the operands right exactly if the value
fits into each of them with its sign. -/
theorem dump_patched_iff (a : InstructionAnchor) (offset : Nat) (file : ByteMemory) :
    (a.dump offset file = none ∨ ∃ file', a.dump offset file = some file' ∧ a.Patched offset file') ↔
      ∀ op ∈ a.overwritten a.operands, FitsSigned op.bytesUsed a.target := by
  obtain ⟨file', hdump, hvalue⟩ := dump_spec a offset file
  have hfits : ∀ op ∈ a.overwritten a.operands,
      operandValue file' offset op = a.target ↔ FitsSigned op.bytesUsed a.target := by
    intro op hop
    have hsize := a.sizes op hop
    simp only [List.mem_cons, List.not_mem_nil, or_false] at hsize
    rw [hvalue op hop]
    exact signExtend_setWidth_eq_iff (by omega) (by omega)
  rw [hdump]
  constructor
  · rintro (h | ⟨file'', h, hpatched⟩) op hop
    · cases h
    · obtain rfl := Option.some.inj h
      exact (hfits op hop).mp (hpatched op hop)
  · intro h
    exact .inr ⟨file', rfl, fun op hop => (hfits op hop).mpr (h op hop)⟩

/-- `e3 00` at `0x400000`, linked to an instruction 200 bytes behind it. -/
def shortBranch : InstructionAnchor where
  link := 0x4000ca
  linkedParent := .instruction 0x400000 2 fun i =>
    if i = 0 then some ⟨⟨.jimm, 0, 0, 0⟩, 1, 1⟩ else none
  imm := false
  baseAddress := 0x400000
  sizeInBytes := 2
  operands := fun i => if i = 0 then some ⟨⟨.jimm, 0, 0, 0⟩, 1, 1⟩ else none
  isInstruction := rfl
  present := by decide
  sizes := by decide
  apart := by
    rw [show AddressAnchor.overwritten _ _ = [⟨⟨.jimm, 0, 0, 0⟩, 1, 1⟩] from rfl]
    exact List.pairwise_singleton _ _

/-- A displacement of 200 is written as one of -56. -/
theorem shortBranch_truncated : ¬∀ (a : InstructionAnchor) (offset : Nat) (file : ByteMemory),
    a.dump offset file = none ∨ ∃ file', a.dump offset file = some file' ∧ a.Patched offset file' := by
  intro h
  rcases h shortBranch 0 (fun _ => 0) with hdump | ⟨file', hdump, hpatched⟩
  · exact absurd hdump (by decide)
  · have hfile : file' = ByteMemory.write (fun _ => 0) 1 [0xc8] := (Option.some.inj hdump).symm
    subst hfile
    exact absurd (hpatched ⟨⟨.jimm, 0, 0, 0⟩, 1, 1⟩ (by decide)) (by decide)

end InstructionAnchor

end Pebil

import Pebil.Isa.Instruction

/-!
# What `getRegistersUsed` and `getRegistersDefined` contain

The sets are compared with the registers an instruction reads and writes by its
operands and its implicit masks (`getRegistersUsed_getRegistersDefined`). The
comparison covers the general purpose registers and XMM0 to XMM14, and XMM15 when the
masks name no register after it: for the registers after XMM14 the masks are tested
with a shifted 32-bit `int`. It leaves out instructions with a YMM or an x87 operand,
which `IS_ALU_REG` drops, and the few whose destination is not where `getDestOperand`
looks for it (`Mnemonic.WritesElsewhere`).
-/

namespace Pebil

namespace RegisterSet

variable {s : RegisterSet} {n j : Nat}

theorem containsRegister_addFlag (hn : n < x86FlagBits) :
    (s.addFlag n).containsRegister j = s.containsRegister j := by
  have hne : x86FlagBits + j ≠ n := by omega
  simp [addFlag, containsRegister, BitSet.contains_insert, hne]

theorem containsRegister_addRegister :
    (s.addRegister n).containsRegister j = true ↔
      s.containsRegister j = true ∨ j = n ∧ n < x86AluRegs := by
  simp [addRegister, containsRegister, BitSet.contains_insert]

theorem containsRegister_empty : empty.containsRegister j = false := by
  by_cases hj : j < x86AluRegs
  · have hmem := (containsRegister_iff (s := empty) hj).not.mpr not_mem_empty
    simpa using hmem
  · exact BitSet.contains_of_ge _ (by omega)

theorem containsRegister_addFlagsWhere {test : Nat → Bool} :
    (s.addFlagsWhere test).containsRegister j = s.containsRegister j := by
  unfold addFlagsWhere
  have hlt : ∀ i ∈ List.range x86FlagBits, i < x86FlagBits := fun i => List.mem_range.mp
  generalize List.range x86FlagBits = flags at hlt
  induction flags generalizing s with
  | nil => rfl
  | cons i flags ih =>
    rw [List.foldl_cons, ih fun k hk => hlt k (List.mem_cons_of_mem _ hk)]
    split
    · exact containsRegister_addFlag (hlt i List.mem_cons_self)
    · rfl

theorem containsRegister_addRegistersWhere {test : Nat → Bool} :
    (s.addRegistersWhere test).containsRegister j = true ↔
      s.containsRegister j = true ∨ j < x86AluRegs ∧ test j = true := by
  unfold addRegistersWhere
  rw [← List.mem_range]
  have hlt : ∀ i ∈ List.range x86AluRegs, i < x86AluRegs := fun i => List.mem_range.mp
  generalize List.range x86AluRegs = regs at hlt
  induction regs generalizing s with
  | nil => simp
  | cons i regs ih =>
    rw [List.foldl_cons]
    refine (ih fun k hk => hlt k (List.mem_cons_of_mem _ hk)).trans ?_
    have hi := hlt i List.mem_cons_self
    by_cases htest : test i = true
    · rw [if_pos htest, containsRegister_addRegister, List.mem_cons]
      constructor
      · rintro ((hs | ⟨rfl, -⟩) | ⟨hmem, hj⟩)
        · exact .inl hs
        · exact .inr ⟨.inl rfl, htest⟩
        · exact .inr ⟨.inr hmem, hj⟩
      · rintro (hs | ⟨rfl | hmem, hj⟩)
        · exact .inl (.inl hs)
        · exact .inl (.inr ⟨rfl, hi⟩)
        · exact .inr ⟨hmem, hj⟩
    · rw [if_neg htest, List.mem_cons]
      refine or_congr_right (and_congr_left fun hj => ⟨.inr, ?_⟩)
      rintro (rfl | hmem)
      · exact absurd hj htest
      · exact hmem

theorem containsRegister_addField {reg : Nat} (h : ¬ NamesUnadmitted reg) :
    (s.addField reg).containsRegister j = true ↔
      s.containsRegister j = true ∨ NamesAlu reg j := by
  rw [namesAlu_iff h]
  unfold addField
  by_cases hadmitted : isAluReg reg = true
  · have hne : reg ≠ 0 := by
      rintro rfl
      exact absurd hadmitted (by decide)
    obtain ⟨r, hr⟩ := (namesAlu_iff h (aluRegister reg)).mpr ⟨hadmitted, rfl⟩
    have hlt := Register.aluIndex_lt hr.2
    rw [if_pos (by simp [hadmitted, hne]), containsRegister_addRegister]
    simp only [hlt, and_true, hadmitted, true_and, eq_comm (a := j)]
  · simp [hadmitted]

theorem containsRegister_addBaseIndex {op : OperandX86} (hbase : ¬ NamesUnadmitted op.base)
    (hindex : ¬ NamesUnadmitted op.index) :
    (s.addBaseIndex op).containsRegister j = true ↔
      s.containsRegister j = true ∨ NamesAlu op.base j ∨ NamesAlu op.index j := by
  rw [addBaseIndex, containsRegister_addField hindex, containsRegister_addField hbase, or_assoc]

theorem containsRegister_foldl_addBaseIndex {ops : List OperandX86}
    (h : ∀ op ∈ ops, ¬ NamesUnadmitted op.base ∧ ¬ NamesUnadmitted op.index) :
    (ops.foldl addBaseIndex s).containsRegister j = true ↔
      s.containsRegister j = true ∨ ∃ op ∈ ops, NamesAlu op.base j ∨ NamesAlu op.index j := by
  induction ops generalizing s with
  | nil => simp
  | cons op ops ih =>
    obtain ⟨hbase, hindex⟩ := h op List.mem_cons_self
    rw [List.foldl_cons]
    refine (ih fun op' hop => h op' (List.mem_cons_of_mem _ hop)).trans ?_
    rw [containsRegister_addBaseIndex hbase hindex, List.exists_mem_cons_iff, or_assoc]

end RegisterSet

/-! ## What an instruction reads and writes -/

/-- The general purpose registers narrower than 64 bits. -/
def Register.narrow : Register → Bool
  | .low8 _ => true
  | .high8 _ => true
  | .rex8 _ => true
  | .gpr16 _ => true
  | .gpr32 _ => true
  | _ => false

theorem Register.narrow_eq {r : Register} (h : r.aluIndex ≠ none) :
    r.narrow =
      (!is64BitGpr r.ud && !isX87Reg r.ud && !isXmmReg r.ud && !isYmmReg r.ud) := by
  cases r with
  | segment n => exact absurd rfl h
  | control n => exact absurd rfl h
  | debug n => exact absurd rfl h
  | mmx n => exact absurd rfl h
  | rip => exact absurd rfl h
  | _ => clear h; decide +revert

/-- The operand field `reg` names a narrow register that is part of ALU register `j`. -/
def NamesNarrow (reg : Nat) (j : Nat) : Prop :=
  ∃ r : Register, r.ud = reg ∧ r.narrow = true ∧ r.aluIndex = some j

theorem namesNarrow_iff {reg j : Nat} :
    NamesNarrow reg j ↔
      (!is64BitGpr reg && !isX87Reg reg && !isXmmReg reg && !isYmmReg reg) = true ∧
        NamesAlu reg j := by
  constructor
  · rintro ⟨r, rfl, hnarrow, hr⟩
    rw [Register.narrow_eq (by simp [hr])] at hnarrow
    exact ⟨hnarrow, r, rfl, hr⟩
  · rintro ⟨hnarrow, r, rfl, hr⟩
    exact ⟨r, rfl, by rwa [Register.narrow_eq (by simp [hr])], hr⟩

theorem RegisterSet.containsRegister_addDestination {s : RegisterSet} {dest : OperandX86}
    {j : Nat} (hbase : ¬ NamesUnadmitted dest.base) (hindex : ¬ NamesUnadmitted dest.index) :
    (s.addDestination dest).containsRegister j = true ↔
      s.containsRegister j = true ∨
        (dest.type = .mem ∨ dest.type = .ptr) ∧ (NamesAlu dest.base j ∨ NamesAlu dest.index j) ∨
        dest.type = .reg ∧ NamesNarrow dest.base j := by
  unfold addDestination
  rw [namesNarrow_iff]
  by_cases haddr : dest.type = .mem ∨ dest.type = .ptr
  · have hreg : dest.type ≠ .reg := by
      rintro heq
      rcases haddr with h | h <;> rw [heq] at h <;> cases h
    simp only [haddr, if_true, hreg, false_and, if_false, containsRegister_addBaseIndex hbase hindex,
      true_and, or_false]
  · by_cases hreg : dest.type = .reg ∧ (!is64BitGpr dest.base && !isX87Reg dest.base &&
        !isXmmReg dest.base && !isYmmReg dest.base) = true
    · simp only [haddr, if_false, false_and, false_or]
      rw [if_pos hreg, containsRegister_addField hbase]
      simp only [hreg.1, hreg.2, true_and]
    · simp only [haddr, if_false, false_and, false_or]
      rw [if_neg hreg, ← and_assoc]
      simp only [hreg, false_and, or_false]

/-- Bit by bit the implicit mask is tested, as far as the shifted `int` reaches. -/
theorem testImplicit_eq {mask : BitVec 64} {j : Nat} (hj : j < 32)
    (hlast : j = 31 → mask.toNat < 2 ^ 32) :
    X86Instruction.testImplicit mask j = mask.getLsbD j := by
  have hbit : ∀ i < 64, (mask &&& (1#32 <<< (j % 32)).signExtend 64).getLsbD i =
      (mask.getLsbD i && decide (i = j)) := by
    intro i hi
    have hone : ∀ k < 32, (1#32 <<< j).getLsbD k = decide (k = j) := by
      intro k hk
      rw [BitVec.getLsbD_shiftLeft, BitVec.getLsbD_one]
      simp only [hk, decide_true, Bool.true_and]
      rw [Bool.eq_iff_iff]
      simp only [Bool.and_eq_true, Bool.not_eq_true', decide_eq_false_iff_not, decide_eq_true_eq]
      omega
    rw [BitVec.getLsbD_and, BitVec.getLsbD_signExtend, Nat.mod_eq_of_lt hj]
    by_cases hi32 : i < 32
    · simp only [hi, decide_true, Bool.true_and, hi32, if_true, hone i hi32]
    · simp only [hi, decide_true, Bool.true_and, hi32, if_false, BitVec.msb_eq_getLsbD_last,
        hone 31 (by omega)]
      by_cases h31 : j = 31
      · have hmask := hlast h31
        have hclear : mask.getLsbD i = false := by
          rw [BitVec.getLsbD, Nat.testBit_lt_two_pow]
          exact hmask.trans_le (Nat.pow_le_pow_right (by decide) (Nat.le_of_not_lt hi32))
        simp [hclear]
      · have hne : i ≠ j := by omega
        simp [hne, Ne.symm h31]
  unfold X86Instruction.testImplicit
  rw [Bool.eq_iff_iff, bne_iff_ne]
  constructor
  · intro hne
    by_contra hclear
    refine hne (BitVec.eq_of_getLsbD_eq fun i hi => ?_)
    rw [hbit i hi]
    by_cases hij : i = j
    · subst hij
      simpa using hclear
    · simp [hij]
  · intro hset hzero
    have := hbit j (by omega)
    rw [hzero, hset] at this
    simp at this

/-! ## The registers an instruction reads and writes -/

/-- The comparisons that write their first operand and the exchanges that also write
their second one; `getDestOperand` has no destination for the first and only one for
the second. -/
def Mnemonic.WritesElsewhere (m : Mnemonic) : Prop :=
  m ∈ [.btc, .btr, .bts, .cmppd, .cmpps, .cmpsd, .cmpss, .cmpxchg8b, .cmpxchg, .pcmpeqb, .pcmpeqd,
    .pcmpeqq, .pcmpeqw, .pcmpgtb, .pcmpgtd, .pcmpgtq, .pcmpgtw, .pfcmpeq, .pfcmpge, .pfcmpgt,
    .vcmppd, .vcmpps, .vcmpsd, .vcmpss, .vpcmpeqb, .vpcmpeqd, .vpcmpeqq, .vpcmpeqw, .vpcmpgtb,
    .vpcmpgtd, .vpcmpgtq, .vpcmpgtw, .xchg, .xadd]

instance (m : Mnemonic) : Decidable m.WritesElsewhere :=
  inferInstanceAs (Decidable (_ ∈ _))

namespace X86Instruction

variable (x : X86Instruction)

/-- A branch that is not known to stay in its function. -/
def LeavesFunction : Prop := x.isBranch = true ∧ x.container.inRange x.getTargetAddress = false

/-- ALU register `j` is read by a source operand, in computing the address of the
destination, or implicitly. -/
def Reads (j : Nat) : Prop :=
  (∃ op ∈ x.getSourceOperands, NamesAlu op.base j ∨ NamesAlu op.index j) ∨
    (∃ dest, x.getDestOperand = some dest ∧ (dest.type = .mem ∨ dest.type = .ptr) ∧
      (NamesAlu dest.base j ∨ NamesAlu dest.index j)) ∨
    x.impregUse.getLsbD j = true

/-- Only a part of ALU register `j` is written: what the rest of it holds lives on. -/
def WritesPartOf (j : Nat) : Prop :=
  ∃ dest, x.getDestOperand = some dest ∧ dest.type = .reg ∧ NamesNarrow dest.base j

/-- ALU register `j` is written by the destination operand, whatever the condition, or
implicitly. -/
def Writes (j : Nat) : Prop :=
  (x.isConditionalMove = false ∧
    ∃ dest, x.getDestOperand = some dest ∧ dest.type = .reg ∧ NamesAlu dest.base j) ∨
    x.impregDef.getLsbD j = true

/-- The instructions considered: no operand names a YMM or an x87 register, and the
destination is where `getDestOperand` looks for it. -/
structure Plain : Prop where
  admitted : ∀ i op, x.operands i = some op →
    ¬ NamesUnadmitted op.base ∧ ¬ NamesUnadmitted op.index
  destination : ¬ x.mnemonic.WritesElsewhere

variable {x} {j : Nat}

theorem Plain.source (h : x.Plain) :
    ∀ op ∈ x.getSourceOperands, ¬ NamesUnadmitted op.base ∧ ¬ NamesUnadmitted op.index := by
  intro op hop
  have hfrom : ∃ i, x.operands i = some op := by
    unfold getSourceOperands at hop
    split at hop <;>
      · simp only [List.mem_filterMap, List.mem_cons, List.not_mem_nil, or_false, id_eq] at hop
        obtain ⟨o, hmem, rfl⟩ := hop
        rcases hmem with h | h | h <;> exact ⟨_, h.symm⟩
  obtain ⟨i, hi⟩ := hfrom
  exact h.admitted i op hi

theorem Plain.dest (h : x.Plain) {dest : OperandX86} (hdest : x.getDestOperand = some dest) :
    ¬ NamesUnadmitted dest.base ∧ ¬ NamesUnadmitted dest.index := by
  unfold getDestOperand at hdest
  split at hdest
  · cases hdest
  · exact h.admitted 0 dest hdest

/-- `getRegistersUsed` has what is read and what is written in part, and everything
when a branch leaves the function. -/
theorem getRegistersUsed_iff (h : x.Plain) (hj : j < 32)
    (hlast : j = 31 → x.impregUse.toNat < 2 ^ 32) :
    x.getRegistersUsed.containsRegister j = true ↔
      x.LeavesFunction ∨ x.Reads j ∨ x.WritesPartOf j := by
  have halu : j < x86AluRegs := hj.trans (by decide)
  unfold getRegistersUsed LeavesFunction
  by_cases hleaves : x.isBranch = true ∧ x.container.inRange x.getTargetAddress = false
  · rw [if_pos (by simp [hleaves]), RegisterSet.containsRegister_addRegistersWhere]
    simp [halu, hleaves]
  · rw [if_neg (by simpa using hleaves)]
    have hbefore : (x.getSourceOperands.foldl RegisterSet.addBaseIndex
        ((RegisterSet.empty.addFlagsWhere x.usesFlag).addRegistersWhere
          x.implicitlyUsesReg)).containsRegister j = true ↔
        (∃ op ∈ x.getSourceOperands, NamesAlu op.base j ∨ NamesAlu op.index j) ∨
          x.impregUse.getLsbD j = true := by
      rw [RegisterSet.containsRegister_foldl_addBaseIndex h.source,
        RegisterSet.containsRegister_addRegistersWhere,
        RegisterSet.containsRegister_addFlagsWhere, RegisterSet.containsRegister_empty,
        implicitlyUsesReg, testImplicit_eq hj hlast]
      simp [halu, or_comm]
    unfold Reads WritesPartOf
    cases hdest : x.getDestOperand with
    | none => simp [hbefore, hleaves]
    | some dest =>
      obtain ⟨hbase, hindex⟩ := h.dest hdest
      simp only [RegisterSet.containsRegister_addDestination hbase hindex, hbefore, hleaves,
        false_or, Option.some.injEq, exists_eq_left', or_assoc]
      refine or_congr_right ?_
      rw [← or_assoc, or_comm (a := x.impregUse.getLsbD j = true), or_assoc]

/-- `getRegistersDefined` has what is written. -/
theorem getRegistersDefined_iff (h : x.Plain) (hj : j < 32)
    (hlast : j = 31 → x.impregDef.toNat < 2 ^ 32) :
    x.getRegistersDefined.containsRegister j = true ↔ x.Writes j := by
  have halu : j < x86AluRegs := hj.trans (by decide)
  have himplicit : ((RegisterSet.empty.addFlagsWhere x.defsFlag).addRegistersWhere
      x.implicitlyDefinesReg).containsRegister j = true ↔ x.impregDef.getLsbD j = true := by
    rw [RegisterSet.containsRegister_addRegistersWhere,
      RegisterSet.containsRegister_addFlagsWhere, RegisterSet.containsRegister_empty,
      implicitlyDefinesReg, testImplicit_eq hj hlast]
    simp [halu]
  unfold getRegistersDefined Writes
  cases hmove : x.isConditionalMove with
  | true => simp [himplicit]
  | false =>
    cases hdest : x.getDestOperand with
    | none => simp [himplicit]
    | some dest =>
      by_cases hreg : dest.type = .reg
      · simp [hreg, RegisterSet.containsRegister_addField (h.dest hdest).1, himplicit, or_comm]
      · simp [hreg, himplicit]

/-- `add ax, [rbx + 4 * rcx]`. -/
def addWord : X86Instruction where
  mnemonic := .other 0
  itype := .int
  format := .unknown
  operands i :=
    if i = 0 then some ⟨.reg, 21, 0, 0⟩ else if i = 1 then some ⟨.mem, 56, 54, 0⟩ else none
  flagsUse := 0
  flagsDef := 0x8d5
  impregUse := 0
  impregDef := 0
  container := ⟨0x1000, 0x100⟩
  baseAddress := 0x1000
  sizeInBytes := 4
  addressAnchor := none

/-- `jmp` to 0x2005, outside its function. -/
def jumpOut : X86Instruction where
  mnemonic := .other 1
  itype := .uncondbr
  format := .unknown
  operands i := if i = 0 then some ⟨.jimm, 0, 0, 0x1000⟩ else none
  flagsUse := 0
  flagsDef := 0
  impregUse := 0
  impregDef := 0
  container := ⟨0x1000, 0x100⟩
  baseAddress := 0x1000
  sizeInBytes := 5
  addressAnchor := none

end X86Instruction

end Pebil

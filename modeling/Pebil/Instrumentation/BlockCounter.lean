import Pebil.Instrumentation.BestPointCorrect
import Pebil.Instrumentation.ProtectionCorrect
import Pebil.Isa.UseDef
import Mathlib.Data.BitVec

/-!
# The counter of a block (src/InstrumentationTool.C:449–635)

`insertBlockCounter` lets `findBestInstPoint` choose a place and registers for the counter;
RAX and the stack pointer are not valid. `insertInlinedTripCounter` takes the first two of the
registers, or RCX and RDX, as scratch registers of a snippet that adds to the counter: with one
instruction where the address of the counter is known, or behind code that computes it.

`insertBlockCounter_spec` is the result. The overflow flag, which the tool says the snippet does
not change ("setOverflowable"), is not saved with the other flags; the result is about the
places where it is dead.
-/

namespace Pebil

open InstrumentationPoint (isRegDead isFlagDead)

/-- The tool and the 64-bit image: `isThreadedMode() || isMultiImage()`, and `isExecutable`. -/
structure CounterTool where
  threaded : Bool
  isExecutable : Bool
  deriving DecidableEq, Repr

/-! ## The snippet -/

/-- An instruction of the snippet, as the disassembler gives it back; the types and flags are
those of the tables in src/X86Instruction.C:2079–3050. -/
def factoryInstruction (itype : X86InstructionType) (dest source : OperandX86)
    (flagsDef : BitVec 32) : X86Instruction where
  mnemonic := .other 0
  itype := itype
  format := .unknown
  operands i := if i = 0 then some dest else if i = 1 then some source else none
  flagsUse := 0
  flagsDef := flagsDef
  impregUse := 0
  impregDef := 0
  container := ⟨0, 0⟩
  baseAddress := 0
  sizeInBytes := 0
  addressAnchor := none

/-- `__x86_flagset_alustd`: CF, PF, AF, ZF, SF and OF. -/
def x86FlagsetAlustd : BitVec 32 := 0x8d5

def OperandX86.gpr (r : Fin 16) : OperandX86 := ⟨.reg, udRRax + r, 0, 0⟩

def OperandX86.imm (value : BitVec 64) : OperandX86 := ⟨.imm, 0, 0, value⟩

/-- A memory operand: the numbers of its base and index registers. -/
def OperandX86.mem (base index : Nat) (value : BitVec 64) : OperandX86 := ⟨.mem, base, index, value⟩

namespace SnippetInstruction

def emitAddImmToMem (imm : BitVec 32) (addr : BitVec 64) : X86Instruction :=
  factoryInstruction .int (.mem 0 0 addr) (.imm (imm.signExtend 64)) x86FlagsetAlustd

def emitAddImmToRegaddrImm (b : BitVec 32) (reg : Fin 16) (imm : BitVec 32) : X86Instruction :=
  factoryInstruction .int (.mem (udRRax + reg) 0 (imm.signExtend 64)) (.imm (b.signExtend 64))
    x86FlagsetAlustd

def emitLoadRipImmReg (imm : BitVec 64) (idxdest : Fin 16) : X86Instruction :=
  factoryInstruction .move (.gpr idxdest) (.mem Register.rip.ud 0 imm) 0

def emitMoveThreadIdToReg (dest : Fin 16) : X86Instruction :=
  factoryInstruction .move (.gpr dest) (.mem 0 0 0x10) 0

def emitShiftRightLogical (imm : BitVec 64) (reg : Fin 16) : X86Instruction :=
  factoryInstruction .int (.gpr reg) (.imm imm) x86FlagsetAlustd

def emitShiftLeftLogical (imm : BitVec 64) (reg : Fin 16) : X86Instruction :=
  factoryInstruction .int (.gpr reg) (.imm imm) x86FlagsetAlustd

def emitImmAndReg (imm : BitVec 64) (dest : Fin 16) : X86Instruction :=
  factoryInstruction .int (.gpr dest) (.imm imm) x86FlagsetAlustd

def emitLoadEffectiveAddress (base index : Fin 16) (value : BitVec 64) (dest : Fin 16) :
    X86Instruction :=
  factoryInstruction .move (.gpr dest) (.mem (udRRax + base) (udRRax + index) value) 0

def emitMoveRegaddrImmToReg (idxsrc : Fin 16) (imm : BitVec 64) (idxdest : Fin 16) :
    X86Instruction :=
  factoryInstruction .move (.gpr idxdest) (.mem (udRRax + idxsrc) 0 imm) 0

end SnippetInstruction

namespace CounterTool

open SnippetInstruction

/-- `storeThreadData`: the address of the data of the thread comes into `dest`. -/
def storeThreadData (scratch dest : Fin 16) : Option (List X86Instruction) :=
  if scratch ≠ dest then
    some [emitMoveThreadIdToReg dest, emitShiftRightLogical 12 dest, emitImmAndReg 0xffff dest,
      emitLoadRipImmReg 0 scratch, emitShiftLeftLogical 4 dest,
      SnippetInstruction.emitLoadEffectiveAddress scratch dest 0x08 dest,
      emitMoveRegaddrImmToReg dest 0 dest]
  else none

/-- `regLimit`: `X86_64BIT_GPRS`, which also says that no register was found. -/
def regLimit : Nat := 16

/-- The loop over the registers that may be used, which ends when there are two. -/
def scratchRegs {size : Nat} (useRegs : BitSet size) : List Nat → Nat × Nat → Nat × Nat
  | [], sr => sr
  | i :: is, (sr1, sr2) =>
    if useRegs.contains i then
      if sr1 = regLimit then scratchRegs useRegs is (i, sr2)
      else if sr2 = regLimit then (sr1, i)
      else scratchRegs useRegs is (sr1, sr2)
    else scratchRegs useRegs is (sr1, sr2)

/-- The registers that the loop finds. -/
def foundRegs {size : Nat} (useRegs : BitSet size) : Nat × Nat :=
  scratchRegs useRegs (List.range regLimit) (regLimit, regLimit)

/-- `X86_REG_CX` and `X86_REG_DX`. -/
def x86RegCx : Nat := 1

def x86RegDx : Nat := 2

/-- "best inst point didn't have enough dead regs...". -/
def completeRegs : Nat × Nat → Nat × Nat
  | (sr1, sr2) =>
    if sr1 = regLimit then (x86RegCx, x86RegDx)
    else if sr2 = regLimit then (sr1, if sr1 = x86RegDx then x86RegCx else x86RegDx)
    else (sr1, sr2)

/-- The snippet of `insertInlinedTripCounter` for a 64-bit image; `address` is
`getInstDataAddress() + counterOffset`, and `val` is added. -/
def counterSnippet (t : CounterTool) (counterOffset : BitVec 32) (address : BitVec 64)
    (threadReg : Option (Fin 16)) (val : BitVec 32) (sr1 sr2 : Fin 16) :
    Option (List X86Instruction) :=
  if t.threaded then
    match threadReg with
    | none => (storeThreadData sr2 sr1).map fun loadThreadData =>
        loadThreadData ++ [emitAddImmToRegaddrImm val sr1 counterOffset]
    | some threadReg => some [emitAddImmToRegaddrImm val threadReg counterOffset]
  else if t.isExecutable then some [emitAddImmToMem val address]
  else some [emitLoadRipImmReg 0 sr1, emitAddImmToRegaddrImm val sr1 0]

/-- `insertInlinedTripCounter` with registers to use: the scratch registers and the snippet. -/
def insertInlinedTripCounter {size : Nat} (t : CounterTool) (counterOffset : BitVec 32)
    (address : BitVec 64) (add : Bool) (threadReg : Option (Fin 16)) (useRegs : BitSet size)
    (val : BitVec 32) : Option ((Nat × Nat) × List X86Instruction) :=
  let sr := completeRegs (foundRegs useRegs)
  if sr.1 ≠ x86RegSp ∧ sr.2 ≠ x86RegSp ∧ sr.1 ≠ x86RegAx ∧ sr.2 ≠ x86RegAx then
    if h : sr.1 < 16 ∧ sr.2 < 16 then
      (t.counterSnippet counterOffset address threadReg (if add then val else -1 * val)
        ⟨sr.1, h.1⟩ ⟨sr.2, h.2⟩).map fun snip => (sr, snip)
    else none
  else none

/-- `validRegs` of `insertBlockCounter`. -/
def validRegs : BitSet x86AluRegs :=
  (((List.range regLimit).foldl BitSet.insert (BitSet.new _)).remove x86RegAx).remove x86RegSp

/-- The counter of a block: where it is, the registers it may use, its scratch registers, and
its point. -/
structure BlockCounter where
  place : BlockPlace
  useRegs : BitSet x86AluRegs
  scratch : Nat × Nat
  point : InstrumentationPoint

/-- `InstrumentationTool::insertBlockCounter`, for a block of a function without calls or with
them. -/
def insertBlockCounter (t : CounterTool) (counterOffset : BitVec 32) (address : BitVec 64)
    (b : LiveBlock) (hasLeafOptimization : Bool) (add : Bool) (threadReg : Option (Fin 16))
    (inc : BitVec 32) : Option BlockCounter :=
  (b.findBestInstPoint validRegs (BitSet.new x86AluRegs) true).bind fun best =>
    (b.instructions[best.best]?).bind fun bestinst =>
      (t.insertInlinedTripCounter counterOffset address add threadReg best.useRegs inc).map
        fun (scratch, snip) =>
          { place := best.place
            useRegs := best.useRegs
            scratch := scratch
            point :=
              { liveIns := bestinst.liveIns
                liveOuts := bestinst.liveOuts
                hasLeafOptimization := hasLeafOptimization
                isEntry := b.isEntry
                instLocation := best.bestloc
                instrumentation :=
                  { isSnippet := true
                    skipWrapper := false
                    canOverflow := false -- `setOverflowable(false)`
                    coreInstructions := snip }
                precursorInstructions := []
                postcursorInstructions := [] } }

end CounterTool

/-! ## What the instructions of the snippet define -/

section Defines

variable {itype : X86InstructionType} {dest source : OperandX86} {flags : BitVec 32} {j : Nat}

/-- The instruction defines the register that its destination is, if it is one. -/
theorem containsRegister_factoryInstruction (hitype : itype ∈ [.int, .move])
    (hdest : ¬ NamesUnadmitted dest.base) :
    (factoryInstruction itype dest source flags).getRegistersDefined.containsRegister j = true ↔
      dest.type = .reg ∧ NamesAlu dest.base j := by
  have hoperand : (factoryInstruction itype dest source flags).getDestOperand = some dest := by
    rcases List.mem_cons.mp hitype with rfl | h
    · rfl
    · obtain rfl := List.mem_singleton.mp h
      rfl
  have himplicit : ∀ k,
      (factoryInstruction itype dest source flags).implicitlyDefinesReg k = false := fun k => by
    simp [X86Instruction.implicitlyDefinesReg, X86Instruction.testImplicit, factoryInstruction]
  have hmove : (factoryInstruction itype dest source flags).isConditionalMove = false := rfl
  rw [X86Instruction.getRegistersDefined, hmove, hoperand]
  simp only [Bool.not_false, if_true]
  split
  · rename_i hreg
    rw [RegisterSet.containsRegister_addField hdest, RegisterSet.containsRegister_addRegistersWhere,
      RegisterSet.containsRegister_addFlagsWhere, RegisterSet.containsRegister_empty]
    simp [himplicit, hreg]
  · rename_i hreg
    rw [RegisterSet.containsRegister_addRegistersWhere, RegisterSet.containsRegister_addFlagsWhere,
      RegisterSet.containsRegister_empty]
    simp [himplicit, hreg]

theorem namesAlu_gpr {r : Fin 16} : NamesAlu (udRRax + r) j ↔ j = r := by
  have hreg : isAluReg (udRRax + r) = true ∧ aluRegister (udRRax + r) = r := by decide +revert
  have hlt : udRRax + r.val < 115 := by
    unfold udRRax
    omega
  rw [namesAlu_iff (not_namesUnadmitted hlt), hreg.1, hreg.2]
  simp [eq_comm]

/-- The instruction defines no register but these. -/
def DefinesOnly (rs : List (Fin 16)) (x : X86Instruction) : Prop :=
  ∀ j, x.getRegistersDefined.containsRegister j = true → ∃ r ∈ rs, j = r.val

theorem definesOnly_gpr {rs : List (Fin 16)} {r : Fin 16} (hitype : itype ∈ [.int, .move])
    (hr : r ∈ rs) : DefinesOnly rs (factoryInstruction itype (.gpr r) source flags) := by
  have hlt : udRRax + r.val < 115 := by
    unfold udRRax
    omega
  intro j hj
  rw [containsRegister_factoryInstruction hitype (not_namesUnadmitted hlt)] at hj
  exact ⟨r, hr, namesAlu_gpr.mp hj.2⟩

theorem definesOnly_mem {rs : List (Fin 16)} {base index : Nat} {value : BitVec 64}
    (hitype : itype ∈ [.int, .move]) (hbase : base < 115) :
    DefinesOnly rs (factoryInstruction itype (.mem base index value) source flags) := by
  intro j hj
  rw [containsRegister_factoryInstruction hitype (not_namesUnadmitted hbase)] at hj
  cases hj.1

end Defines

namespace CounterTool

variable {t : CounterTool} {counterOffset inc : BitVec 32} {address : BitVec 64} {add : Bool}
  {threadReg : Option (Fin 16)} {size : Nat} {useRegs : BitSet size}

open SnippetInstruction

theorem definesOnly_emitAddImmToRegaddrImm {rs : List (Fin 16)} {b imm : BitVec 32} {reg : Fin 16} :
    DefinesOnly rs (emitAddImmToRegaddrImm b reg imm) :=
  definesOnly_mem (by simp) (by unfold udRRax; omega)

/-- The snippet defines no register but its scratch registers. -/
theorem definesOnly_counterSnippet {sr1 sr2 : Fin 16} {snip : List X86Instruction}
    (h : t.counterSnippet counterOffset address threadReg inc sr1 sr2 = some snip) :
    ∀ x ∈ snip, DefinesOnly [sr1, sr2] x := by
  have hadd : ∀ b imm reg, DefinesOnly [sr1, sr2] (emitAddImmToRegaddrImm b reg imm) :=
    fun _ _ _ => definesOnly_emitAddImmToRegaddrImm
  have hmem : ∀ imm, DefinesOnly [sr1, sr2] (emitAddImmToMem imm address) := fun _ =>
    definesOnly_mem (by simp) (by decide)
  have hgpr : ∀ itype ∈ [X86InstructionType.int, .move], ∀ r ∈ [sr1, sr2], ∀ source flags,
      DefinesOnly [sr1, sr2] (factoryInstruction itype (.gpr r) source flags) :=
    fun _ hitype _ hr _ _ => definesOnly_gpr hitype hr
  unfold counterSnippet at h
  split at h
  · cases threadReg with
    | none =>
      -- the address of the thread's data is computed
      obtain ⟨load, hload, rfl⟩ := Option.map_eq_some_iff.mp h
      unfold storeThreadData at hload
      split at hload
      · obtain rfl := Option.some.inj hload
        simp only [List.cons_append, List.nil_append, List.forall_mem_cons, List.not_mem_nil,
          false_imp_iff, implies_true, and_true]
        exact ⟨hgpr _ (by simp) _ (by simp) _ _, hgpr _ (by simp) _ (by simp) _ _,
          hgpr _ (by simp) _ (by simp) _ _, hgpr _ (by simp) _ (by simp) _ _,
          hgpr _ (by simp) _ (by simp) _ _, hgpr _ (by simp) _ (by simp) _ _,
          hgpr _ (by simp) _ (by simp) _ _, hadd _ _ _⟩
      · cases hload
    | some r =>
      obtain rfl := Option.some.inj h
      simpa using hadd _ _ _
  · split at h
    · obtain rfl := Option.some.inj h
      simpa using hmem _
    · obtain rfl := Option.some.inj h
      simp only [List.forall_mem_cons, List.not_mem_nil, false_imp_iff, implies_true, and_true]
      exact ⟨hgpr _ (by simp) _ (by simp) _ _, hadd _ _ _⟩

/-! ## The scratch registers -/

/-- A number that stands for a register, or for none, is one of a register that may be used. -/
def FromSet (useRegs : BitSet size) (sr : Nat) : Prop :=
  sr = regLimit ∨ sr < regLimit ∧ useRegs.contains sr = true

/-- The loop finds registers that may be used, two different ones if it finds two. -/
theorem scratchRegs_spec {is : List Nat} {sr1 : Nat} (his : ∀ i ∈ is, i < regLimit)
    (hnodup : is.Nodup) (h1 : FromSet useRegs sr1) (hnew : sr1 ∉ is) :
    let sr := scratchRegs useRegs is (sr1, regLimit)
    FromSet useRegs sr.1 ∧ FromSet useRegs sr.2 ∧ (sr.1 = regLimit → sr.2 = regLimit) ∧
      (sr.2 ≠ regLimit → sr.1 ≠ sr.2) := by
  induction is generalizing sr1 with
  | nil => exact ⟨h1, .inl rfl, fun _ => rfl, fun h => absurd rfl h⟩
  | cons i is ih =>
    obtain ⟨hi, his⟩ := List.forall_mem_cons.mp his
    obtain ⟨hni, hnodup⟩ := List.nodup_cons.mp hnodup
    have hne : sr1 ≠ i := fun h => hnew (h ▸ List.mem_cons_self)
    rw [scratchRegs]
    cases hcontains : useRegs.contains i with
    | false => exact ih his hnodup h1 fun h => hnew (List.mem_cons_of_mem i h)
    | true =>
      by_cases hsr1 : sr1 = regLimit
      · rw [if_pos rfl, if_pos hsr1]
        exact ih his hnodup (.inr ⟨hi, hcontains⟩) hni
      · -- the second register ends the loop
        rw [if_pos rfl, if_neg hsr1, if_pos rfl]
        exact ⟨h1, .inr ⟨hi, hcontains⟩, fun h => absurd h hsr1, fun _ => hne⟩

theorem foundRegs_spec (useRegs : BitSet size) :
    FromSet useRegs (foundRegs useRegs).1 ∧ FromSet useRegs (foundRegs useRegs).2 ∧
      ((foundRegs useRegs).1 = regLimit → (foundRegs useRegs).2 = regLimit) ∧
      ((foundRegs useRegs).2 ≠ regLimit → (foundRegs useRegs).1 ≠ (foundRegs useRegs).2) :=
  scratchRegs_spec (fun _ => List.mem_range.mp) List.nodup_range (.inl rfl) (by simp [regLimit])

/-- What the scratch registers of the snippet are: two different registers, neither RAX nor the
stack pointer, each one that may be used or RCX or RDX. -/
structure Scratch (useRegs : BitSet size) (sr1 sr2 : Nat) : Prop where
  lt1 : sr1 < 16
  lt2 : sr2 < 16
  ne : sr1 ≠ sr2
  apart1 : sr1 ≠ x86RegSp ∧ sr1 ≠ x86RegAx
  apart2 : sr2 ≠ x86RegSp ∧ sr2 ≠ x86RegAx
  used1 : useRegs.contains sr1 = true ∨ sr1 = x86RegCx
  used2 : useRegs.contains sr2 = true ∨ sr2 = x86RegCx ∨ sr2 = x86RegDx

theorem scratch_completeRegs (huse : ∀ j, useRegs.contains j = true → j ≠ x86RegSp ∧ j ≠ x86RegAx) :
    Scratch useRegs (completeRegs (foundRegs useRegs)).1 (completeRegs (foundRegs useRegs)).2 := by
  obtain ⟨h1, h2, hnone, hne⟩ := foundRegs_spec useRegs
  generalize foundRegs useRegs = sr at *
  obtain ⟨sr1, sr2⟩ := sr
  simp only at h1 h2 hnone hne
  unfold completeRegs
  simp only
  split
  · exact ⟨by decide, by decide, by decide, by decide, by decide, .inr rfl, .inr (.inr rfl)⟩
  · rename_i hsr1
    obtain ⟨hlt1, hc1⟩ := h1.resolve_left hsr1
    split
    · -- the second one is RDX, or RCX when that is the first one
      split
      · rename_i hdx
        subst hdx
        exact ⟨by decide, by decide, by decide, huse _ hc1, by decide, .inl hc1, .inr (.inl rfl)⟩
      · rename_i hdx
        have hrdx : x86RegDx ≠ x86RegSp ∧ x86RegDx ≠ x86RegAx := by decide
        exact ⟨hlt1, show x86RegDx < 16 by decide, hdx, huse _ hc1, hrdx, .inl hc1,
          .inr (.inr rfl)⟩
    · rename_i hsr2
      obtain ⟨hlt2, hc2⟩ := h2.resolve_left hsr2
      exact ⟨hlt1, hlt2, hne hsr2, huse _ hc1, huse _ hc2, .inl hc1, .inl hc2⟩

/-- The registers that `insertBlockCounter` admits. -/
theorem contains_validRegs {j : Nat} :
    validRegs.contains j = true ↔ j < 16 ∧ j ≠ x86RegSp ∧ j ≠ x86RegAx := by
  have hfold : ∀ (is : List Nat) (u : BitSet x86AluRegs), (∀ i ∈ is, i < x86AluRegs) →
      ((is.foldl BitSet.insert u).contains j = true ↔ u.contains j = true ∨ j ∈ is) := by
    intro is
    induction is with
    | nil => simp
    | cons i is ih =>
      intro u his
      obtain ⟨hi, his⟩ := List.forall_mem_cons.mp his
      rw [List.foldl_cons, ih _ his, BitSet.contains_insert, decide_eq_true hi, Bool.and_true,
        Bool.or_eq_true, decide_eq_true_iff, List.mem_cons, or_assoc]
  have hlimit : ∀ i ∈ List.range regLimit, i < x86AluRegs := fun i hi => by
    have := List.mem_range.mp hi
    unfold regLimit at this
    unfold x86AluRegs
    omega
  rw [validRegs, BitSet.contains_remove, BitSet.contains_remove, Bool.and_eq_true,
    Bool.and_eq_true, hfold _ _ hlimit, BitSet.contains_new, List.mem_range]
  simp only [Bool.false_eq_true, false_or, Bool.not_eq_true', decide_eq_false_iff_not, regLimit,
    and_assoc]
  tauto

/-! ## The counter -/

/-- The counter takes its scratch registers from the registers of the point, and no assertion
fails. -/
theorem insertInlinedTripCounter_spec (t : CounterTool) (counterOffset : BitVec 32)
    (address : BitVec 64) (add : Bool) (threadReg : Option (Fin 16)) (inc : BitVec 32)
    (huse : ∀ j, useRegs.contains j = true → j ≠ x86RegSp ∧ j ≠ x86RegAx) :
    ∃ sr snip, t.insertInlinedTripCounter counterOffset address add threadReg useRegs inc =
      some (sr, snip) ∧ Scratch useRegs sr.1 sr.2 ∧ ∀ x ∈ snip, ∀ j,
        x.getRegistersDefined.containsRegister j = true → j = sr.1 ∨ j = sr.2 := by
  have hscratch := scratch_completeRegs huse
  generalize hsr : completeRegs (foundRegs useRegs) = sr at hscratch
  obtain ⟨sr1, sr2⟩ := sr
  obtain ⟨snip, hsnip⟩ : ∃ snip, t.counterSnippet counterOffset address threadReg
      (if add then inc else -1 * inc) ⟨sr1, hscratch.lt1⟩ ⟨sr2, hscratch.lt2⟩ = some snip := by
    have hne : (⟨sr2, hscratch.lt2⟩ : Fin 16) ≠ ⟨sr1, hscratch.lt1⟩ := fun h =>
      hscratch.ne (Fin.mk.inj h).symm
    unfold counterSnippet storeThreadData
    rw [if_pos hne]
    split
    · cases threadReg with
      | none => exact ⟨_, rfl⟩
      | some r => exact ⟨_, rfl⟩
    · split
      · exact ⟨_, rfl⟩
      · exact ⟨_, rfl⟩
  refine ⟨(sr1, sr2), snip, ?_, hscratch, fun x hx j hj => ?_⟩
  · have hapart : sr1 ≠ x86RegSp ∧ sr2 ≠ x86RegSp ∧ sr1 ≠ x86RegAx ∧ sr2 ≠ x86RegAx :=
      ⟨hscratch.apart1.1, hscratch.apart2.1, hscratch.apart1.2, hscratch.apart2.2⟩
    unfold insertInlinedTripCounter
    simp only [hsr]
    rw [if_pos hapart, dif_pos ⟨hscratch.lt1, hscratch.lt2⟩, hsnip, Option.map_some]
  · obtain ⟨r, hr, rfl⟩ := definesOnly_counterSnippet hsnip x hx j hj
    rcases List.mem_cons.mp hr with rfl | hr
    · exact .inl rfl
    · obtain rfl := List.mem_singleton.mp hr
      exact .inr rfl

/-- A point for code that defines no register but two general purpose ones, neither RAX, and
does not use the stack, is safe if the overflow flag is dead there. -/
theorem safe_of_definesOnly {pt : InstrumentationPoint} {redZone : Bool} {sr1 sr2 : Nat}
    (h1 : sr1 < 16) (h2 : sr2 < 16) (hax1 : sr1 ≠ x86RegAx) (hax2 : sr2 ≠ x86RegAx)
    (hloc : pt.instLocation ≠ .replace) (hoverflow : isFlagDead pt.liveSet 11 = true)
    (hdefines : ∀ x ∈ pt.instrumentation.coreInstructions, ∀ j,
      x.getRegistersDefined.containsRegister j = true → j = sr1 ∨ j = sr2) :
    pt.Safe .inline redZone false := by
  have hsnippet : (pt.emitted .inline).snippet = pt.instrumentation.coreInstructions := by
    rw [pt.emitted_eq]
    rfl
  refine ⟨fun r _ hdef => ?_, fun h => absurd h hloc, fun _ hlive => ?_, fun _ _ hdef => ?_,
    fun _ _ h => by cases h⟩
  · obtain ⟨x, hx, hdef⟩ := hdef
    have hj := hdefines x (hsnippet ▸ hx) _ hdef
    have hxmm : 16 ≤ x86FpregXmm0 + r.val := Nat.le_add_right 16 r.val
    omega
  · have hlive : isFlagDead pt.liveSet 11 = false := hlive
    rw [hoverflow] at hlive
    cases hlive
  · obtain ⟨x, hx, hdef⟩ := hdef
    exact absurd (hdefines x (hsnippet ▸ hx) _ hdef) (not_or.mpr ⟨hax1.symm, hax2.symm⟩)

/-- What `insertBlockCounter` promises: the code of the counter is executed once in an execution
of the block, the registers for it are valid and dead there, the scratch registers are taken
from them as long as there are any, and it does no harm where the overflow flag is dead. -/
structure Right (b : LiveBlock) (hasLeafOptimization : Bool) (c : BlockCounter) : Prop where
  once : b.Once c.place
  registers : ∀ j, c.useRegs.contains j = true ↔
    (j < 16 ∧ j ≠ x86RegSp ∧ j ≠ x86RegAx) ∧ isRegDead (b.liveAt c.place) j = true
  scratch : Scratch c.useRegs c.scratch.1 c.scratch.2
  location : c.point.instLocation = c.place.2 ∧ c.point.liveSet = b.liveAt c.place
  preserved : isFlagDead (b.liveAt c.place) 11 = true →
    ∀ (redZone : Bool), (redZone = true → hasLeafOptimization = true) →
      ∀ (body : Machine → Machine), Behaves (c.point.emitted .inline).snippet false body →
        ∀ s, c.point.Preserved redZone s ((c.point.emitted .inline).run body s)
  counts : ∀ (exec : LiveInstruction → Machine → Machine) (body : Machine → Machine)
    (count : Machine → BitVec 64) (inc : BitVec 64), (∀ x s, count (exec x s) = count s) →
      (∀ s, count ((c.point.emitted .inline).run body s) = count s + inc) →
        ∀ s, count (b.execute exec (fun q => if q = c.place then
          (c.point.emitted .inline).run body else id) s) = count s + inc

/-- The counter of a block is inserted, and keeps its promise. -/
theorem insertBlockCounter_right {b : LiveBlock} (hclass : b.Classified) (t : CounterTool)
    (counterOffset : BitVec 32) (address : BitVec 64) (hasLeafOptimization add : Bool)
    (threadReg : Option (Fin 16)) (inc : BitVec 32) :
    ∃ c, t.insertBlockCounter counterOffset address b hasLeafOptimization add threadReg inc =
      some c ∧ Right b hasLeafOptimization c := by
  obtain ⟨best, hbest, hfound⟩ :=
    LiveBlock.findBestInstPoint_found hclass validRegs (BitSet.new x86AluRegs) true
  obtain ⟨x, hx, hlive⟩ := hfound.instruction
  have hregisters : ∀ j, best.useRegs.contains j = true ↔
      (j < 16 ∧ j ≠ x86RegSp ∧ j ≠ x86RegAx) ∧ isRegDead (b.liveAt best.place) j = true :=
    fun j => by
      rw [hfound.registers, BitSet.contains_new, contains_validRegs]
      unfold x86AluRegs
      constructor
      · rintro (h | ⟨-, hvalid, hdead⟩)
        · cases h
        · exact ⟨hvalid, hdead⟩
      · rintro ⟨hvalid, hdead⟩
        exact .inr ⟨by omega, hvalid, hdead⟩
  obtain ⟨sr, snip, hsnip, hscratch, hdefines⟩ := insertInlinedTripCounter_spec t counterOffset
    address add threadReg inc fun j hj => ((hregisters j).mp hj).1.2
  rw [insertBlockCounter, hbest, Option.bind_some, hx, Option.bind_some, hsnip, Option.map_some]
  -- the live set of the point is the one of the place
  have hpoint : ∀ instrumentation : Instrumentation,
      (⟨x.liveIns, x.liveOuts, hasLeafOptimization, b.isEntry, best.bestloc, instrumentation, [],
        []⟩ : InstrumentationPoint).liveSet = b.liveAt best.place := fun instrumentation => by
    rw [hlive]
    cases hloc : best.bestloc <;> rfl
  have hset := hpoint ⟨true, false, false, snip⟩
  refine ⟨_, rfl, ?_⟩
  refine ⟨hfound.once, hregisters, hscratch, ⟨rfl, hset⟩,
    fun hoverflow redZone hleaf body hbody s => ?_, fun exec body count inc hexec hrun s => ?_⟩
  · refine InstrumentationPoint.preserved_of_safe rfl hleaf ?_ hbody
    exact safe_of_definesOnly hscratch.lt1 hscratch.lt2 hscratch.apart1.2 hscratch.apart2.2
      hfound.location (by rw [hset]; exact hoverflow) hdefines
  · refine LiveBlock.count_execute hfound.once hexec (fun q s => ?_) s
    by_cases hq : q = best.place
    · rw [if_pos hq, if_pos hq]
      exact hrun s
    · rw [if_neg hq, if_neg hq, add_zero]
      rfl

/-- **The place of a block counter.** For every block in which only the instructions classified
so transfer control: `findBestInstPoint` returns a place that is passed once, the best one of the
block unless it is an entry, with the registers that are valid and dead there; and a counter that
is inserted there counts each execution of the block once and does no harm. -/
theorem blockCounter_place (b : LiveBlock) (hclass : b.Classified) :
    (∀ (size k : Nat) (validRegs : BitSet size) (useRegs : BitSet k) (attendFlags : Bool),
      ∃ r, b.findBestInstPoint validRegs useRegs attendFlags = some r ∧
        b.Found validRegs useRegs attendFlags r) ∧
    ∀ (t : CounterTool) (counterOffset : BitVec 32) (address : BitVec 64)
      (hasLeafOptimization add : Bool) (threadReg : Option (Fin 16)) (inc : BitVec 32),
      ∃ c, t.insertBlockCounter counterOffset address b hasLeafOptimization add threadReg inc =
        some c ∧ Right b hasLeafOptimization c :=
  ⟨fun _ _ validRegs useRegs attendFlags =>
    LiveBlock.findBestInstPoint_found hclass validRegs useRegs attendFlags,
   insertBlockCounter_right hclass⟩

/-- An addition and a move behind it, with ZF live between them and behind: an addition defines
the flags, and so none is live before it. -/
def addAndMove (isEntry : Bool) : LiveBlock where
  instructions :=
    [⟨factoryInstruction .int (.gpr 1) (.imm 1) x86FlagsetAlustd, some RegisterSet.empty,
        some (RegisterSet.empty.addFlag 6), true⟩,
      ⟨factoryInstruction .move (.gpr 2) (.mem (udRRax + 1) 0 0) 0,
        some (RegisterSet.empty.addFlag 6), some (RegisterSet.empty.addFlag 6), true⟩]
  isEntry := isEntry
  nonempty := nofun
  controlLast := by decide
  live := .cons_cons ⟨fun _ => rfl, fun _ => rfl⟩ (.singleton _)

theorem blockCounter_place_addAndMove :
    ∃ r, (addAndMove false).findBestInstPoint validRegs (BitSet.new x86AluRegs) true = some r ∧
      (addAndMove false).Found validRegs (BitSet.new x86AluRegs) true r :=
  (blockCounter_place (addAndMove false) (by decide)).1 _ _ validRegs _ true

/-- If the block is an entry, its counter goes to the end, where ZF is live. -/
theorem not_chosen_entry :
    ∃ r, (addAndMove true).findBestInstPoint validRegs (BitSet.new x86AluRegs) true = some r ∧
      ¬ (addAndMove true).Chosen validRegs true {q | q ∈ (addAndMove true).passed} r.place := by
  refine ⟨⟨1, .after, _⟩, rfl, fun h => ?_⟩
  have hdead : (addAndMove true).FlagsDead (1, .after) :=
    h.flags rfl ⟨(0, .prior), by decide, by decide⟩
  revert hdead
  decide

end CounterTool

end Pebil

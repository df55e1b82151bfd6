import Mathlib.Tactic.Ring
import Pebil.Instrumentation.TripCounter

/-!
# When the snippet counts

`runs_snippet` executes the bytes: whatever the mode, the snippet is one addition to memory. Where
it is and what it adds is compared with the counter in `addAt_eq_write_iff`.
-/

namespace Pebil

open X86InstructionFactory64 MachineOperand

/-! ## The instructions -/

/-- What the snippet may change beside its scratch registers `rs` and the flags. -/
structure Machine.Scratched (rs : List (Fin 16)) (s t : Machine) : Prop where
  mem : t.mem = s.mem
  vec : t.vec = s.vec
  gpr : ∀ r ∉ rs, t.gpr r = s.gpr r

namespace Machine.Scratched

variable {rs : List (Fin 16)} {s t u : Machine} {r : Fin 16}

theorem refl (s : Machine) : Scratched rs s s := ⟨rfl, rfl, fun _ _ => rfl⟩

theorem trans (h : Scratched rs s t) (h' : Scratched rs t u) : Scratched rs s u :=
  ⟨h'.mem.trans h.mem, h'.vec.trans h.vec, fun r hr => (h'.gpr r hr).trans (h.gpr r hr)⟩

theorem setGpr (hr : r ∈ rs) (v : BitVec 64) : Scratched rs s (s.setGpr r v) where
  mem := rfl
  vec := rfl
  gpr r' hr' := by
    have hne : r' ≠ r := fun h => hr' (h.symm ▸ hr)
    exact Function.update_of_ne hne ..

theorem withFlags (flags : BitVec 64) : Scratched rs s (s.withFlags flags) :=
  ⟨rfl, rfl, fun _ _ => rfl⟩

end Machine.Scratched

section Run

variable {p : Processor} {s t u : Machine} {bytes : List Nat} {code : List (List Nat)}
  {address : BitVec 64} {i : MachineInsn}

theorem runCode_step (hdecode : decodeInsn bytes = some (i, []))
    (hexec : i.exec p (address + BitVec.ofNat 64 bytes.length) s = some t)
    (hrest : runCode p code (address + BitVec.ofNat 64 bytes.length) t = some u) :
    runCode p (bytes :: code) address s = some u := by
  rw [runCode_cons p s code hdecode, hexec]
  exact hrest

theorem runCode_append (code code' : List (List Nat)) (address : BitVec 64) :
    runCode p (code ++ code') address s = (runCode p code address s).bind
      (runCode p code' (address + BitVec.ofNat 64 (code.map List.length).sum)) := by
  induction code generalizing address s with
  | nil => simp
  | cons bytes code ih =>
    simp only [List.cons_append, runCode, Option.bind_eq_bind, Option.bind_assoc]
    refine Option.bind_congr fun found _ => ?_
    split
    · rw [Option.bind_assoc]
      refine Option.bind_congr fun t _ => ?_
      rw [ih, List.map_cons, List.sum_cons, BitVec.ofNat_add, BitVec.add_assoc]
    · rfl

/-- The `add` behind a register changes four bytes. -/
theorem runCode_emitAddImmToRegaddrImm (p : Processor) (s : Machine) (b imm : BitVec 32)
    (reg : Fin 16) (address : BitVec 64) :
    ∃ t, runCode p [emitAddImmToRegaddrImm b reg imm] address s = some t ∧
      t.mem = s.mem.addAt 4 (s.gpr reg + imm.signExtend 64) (b.signExtend 64) ∧
      t.vec = s.vec ∧ t.gpr = s.gpr := by
  refine ⟨_, runCode_step (decodeInsn_emitAddImmToRegaddrImm reg imm b)
    (exec_add_memory p _ (.inl rfl)) rfl, ?_, rfl, rfl⟩
  simp [linearAddress, offset_based]

/-- The one at an address changes eight. -/
theorem runCode_emitAddImmToMem (p : Processor) (s : Machine) (imm : BitVec 32)
    (addr address : BitVec 64) :
    ∃ t, runCode p [emitAddImmToMem imm addr] address s = some t ∧
      t.mem = s.mem.addAt 8 (signExtend32 addr) (imm.signExtend 64) ∧
      t.vec = s.vec ∧ t.gpr = s.gpr := by
  refine ⟨_, runCode_step (decodeInsn_emitAddImmToMem ..) (exec_add_memory p _ (.inr rfl)) rfl, ?_,
    rfl, rfl⟩
  simp [linearAddress, offset_absolute]

end Run

/-! ## The address of the thread's data -/

namespace TripCounter

open SnippetInsn

variable {c : TripCounter} {p : Processor} {s : Machine}

@[simp] theorem dump_emit (bytes : List Nat) (address : BitVec 64) :
    (emit bytes).dump address = bytes := rfl

@[simp] theorem bytes_emit (bytes : List Nat) : (emit bytes).bytes = bytes := rfl

theorem length_emitLoadRipImmReg {r : Fin 16} (hr : r ≠ x86RegSp) (value : BitVec 64) :
    (emitLoadRipImmReg value r).length = 7 := by
  have hsp : r.val ≠ 4 := fun h => hr (Fin.ext h)
  simp [emitLoadRipImmReg, hsp, bytes32]

/-- The anchor writes the displacement into the `lea`. -/
theorem dump_linkInstructionToData {r : Fin 16} (hr : r ≠ x86RegSp) (address link : BitVec 64) :
    (linkInstructionToData (emitLoadRipImmReg 0 r) link).dump address =
      emitLoadRipImmReg (link - (address + 7)) r := by
  have hsp : r.val ≠ 4 := fun h => hr (Fin.ext h)
  have hsize : ((BitVec.ofNat 32 (emitLoadRipImmReg 0 r).length).setWidth 64) = 7 := by
    rw [length_emitLoadRipImmReg hr]
    rfl
  have hvalue : ((linkInstructionToData (emitLoadRipImmReg 0 r) link).anchor address
      link).getLinkValue = link - (address + 7) := by
    simp only [linkInstructionToData, anchor, AddressAnchor.getLinkValue, hsize, BitVec.sub_sub]
    rfl
  simp only [dump, linkInstructionToData] at hvalue ⊢
  rw [hvalue]
  simp [emitLoadRipImmReg, hsp]

/-- What `AddressAnchor::dump` makes of the `lea` in the file. -/
theorem dump_anchor {r : Fin 16} (address link : BitVec 64) {file : ByteMemory} {offset : Nat}
    (hfile : file.read offset 7 = (emitLoadRipImmReg 0 r).map (BitVec.ofNat 8)) :
    let i := linkInstructionToData (emitLoadRipImmReg 0 r) link
    ∃ file', (i.anchor address link).dump offset file = some file' ∧
      file'.read offset 7 = (i.dump address).map (BitVec.ofNat 8) := by
  intro i
  let anchored := i.anchor address link
  let op : EncodedOperand := ⟨⟨.mem, Register.rip.ud, 0, 0⟩, 4, 3⟩
  have hoverwritten : anchored.overwritten ripOperands = [op] := rfl
  have hdump : anchored.dump offset file = some (file.write (offset + 3)
      (ByteMemory.littleEndian 4 anchored.getLinkValue.toNat)) := by
    show (anchored.overwritten ripOperands).foldlM (anchored.dumpOperand offset) file = _
    rw [hoverwritten, AddressAnchor.foldlM_dumpOperand (by decide)]
    rfl
  have hvalue : ByteMemory.littleEndian 4 anchored.getLinkValue.toNat =
      (bytes32 anchored.getLinkValue).map (BitVec.ofNat 8) := by
    have hbyte : ∀ n : Nat, BitVec.ofNat 8 (n % 256) = BitVec.ofNat 8 n := fun n => by
      apply BitVec.eq_of_toNat_eq
      rw [BitVec.toNat_ofNat, BitVec.toNat_ofNat]
      exact Nat.mod_mod n 256
    simp only [ByteMemory.littleEndian, bytes32, List.map_cons, List.map_nil, hbyte,
      Nat.div_div_eq_div_mul]
  have hbefore : file.read offset 3 = ((emitLoadRipImmReg 0 r).take 3).map (BitVec.ofNat 8) := by
    rw [List.map_take, ← hfile, show 7 = 3 + 4 from rfl, ByteMemory.read_add]
    simp
  refine ⟨_, hdump, ?_⟩
  rw [show 7 = 3 + 4 from rfl, ByteMemory.read_add, ByteMemory.read_write_of_apart (.inr (by rfl)),
    hbefore]
  have hread : (file.write (offset + 3)
      (ByteMemory.littleEndian 4 anchored.getLinkValue.toNat)).read (offset + 3)
        (ByteMemory.littleEndian 4 anchored.getLinkValue.toNat).length = _ := ByteMemory.read_write
  rw [ByteMemory.length_littleEndian] at hread
  rw [hread, hvalue]
  exact (List.map_append ..).symm

/-- The `lea` finds what its displacement leads to with 32 bits. -/
theorem exec_emitLoadRipImmReg (value next : BitVec 64) (dest : Fin 16) (s : Machine) :
    (⟨.lea, false, [reg64 dest, .memory none 64 64 (.ripRelative (signExtend32 value))]⟩ :
      MachineInsn).exec p next s = some (s.setGpr dest (next + signExtend32 value)) := by
  rw [exec_lea, offset_ripRelative]

/-- The `lea` with a base and an index. -/
theorem decodeInsn_threadData {base index : Fin 16} (hindex : index ≠ x86RegSp) (dest : Fin 16) :
    decodeInsn (Pebil.emitLoadEffectiveAddress base index 0 0x08 dest true true) =
      some (⟨.lea, false, [reg64 dest, .memory none 64 64
        { base := udRRax + base, index := udRRax + index, scale := 0, value := 8 }]⟩, []) := by
  have hsp : index.val ≠ 4 := fun h => hindex (Fin.ext h)
  exact decodeInsn_of_decodeLea
    (decodeLea_emitLoadEffectiveAddress (by decide) fun _ => hsp)

/-- `storeThreadData` leaves the pointer to the data of the thread in `dest`, as the table it
finds has it. -/
theorem runCode_storeThreadData {scratch dest : Fin 16} {load : List SnippetInsn}
    (hload : c.storeThreadData scratch dest = some load) (hscratch : scratch ≠ x86RegSp)
    (hdest : dest ≠ x86RegSp) (p : Processor) (s : Machine) :
    ∃ t, runCode p (dumpSnippet c.address load) (c.address + c.loadOffset) s = some t ∧
      s.Scratched [dest, scratch] t ∧ t.gpr dest = dataAt p s c.tableReached := by
  unfold storeThreadData at hload
  split at hload
  · rename_i hne
    obtain rfl := Option.some.inj hload
    have hlength : (emitMoveThreadIdToReg dest).length = 9 ∧
        (emitShiftRightLogical 12 dest).length = 4 ∧ (emitImmAndReg 0xffff dest).length = 7 := by
      simp [emitMoveThreadIdToReg, emitMoveTLSOffsetToReg, memBytes, emitShiftRightLogical,
        emitImmAndReg, regBytes, bytes32, immBytes32]
    simp only [dumpSnippet, dump_emit, bytes_emit, dump_linkInstructionToData hscratch]
    refine ⟨_, runCode_step (decodeInsn_emitMoveTLSOffsetToReg ..) (exec_mov_memory ..) <|
      runCode_step (decodeInsn_emitShiftRightLogical ..) (exec_reg_immediate p _ rfl) <|
      runCode_step (decodeInsn_emitImmAndReg ..) (exec_reg_immediate p _ rfl) <|
      runCode_step (decodeInsn_emitLoadRipImmReg _ _ ?_) (exec_emitLoadRipImmReg ..) <|
      runCode_step (decodeInsn_emitShiftLeftLogical ..) (exec_reg_immediate p _ rfl) <|
      runCode_step (decodeInsn_threadData hdest dest) (exec_lea ..) <|
      runCode_step (decodeInsn_emitMoveRegaddrImmToReg ..) (exec_mov_memory ..) rfl, ?_, ?_⟩
    · exact fun h => hscratch (Fin.ext h)
    · have hd : dest ∈ [dest, scratch] := by simp
      have hs : scratch ∈ [dest, scratch] := by simp
      exact (Machine.Scratched.setGpr hd _).trans <|
        ((Machine.Scratched.setGpr hd _).trans (.withFlags _)).trans <|
        ((Machine.Scratched.setGpr hd _).trans (.withFlags _)).trans <|
        (Machine.Scratched.setGpr hs _).trans <|
        ((Machine.Scratched.setGpr hd _).trans (.withFlags _)).trans <|
        (Machine.Scratched.setGpr hd _).trans (.setGpr hd _)
    · rw [Machine.setGpr_gpr, Function.update_self]
      simp only [linearAddress_none, linearAddress_some, offset_based, offset_absolute,
        offset_indexed, Machine.setGpr_gpr, Machine.setGpr_mem, Machine.withFlags_gpr,
        Machine.withFlags_mem, Function.update_self, Function.update_of_ne hne,
        Function.update_of_ne hne.symm]
      rw [hlength.1, hlength.2.1, hlength.2.2, length_emitLoadRipImmReg hscratch]
      -- the `lea` is 20 bytes behind the start
      have hdistance : ∀ x : BitVec 64, x + BitVec.ofNat 64 9 + BitVec.ofNat 64 4 +
          BitVec.ofNat 64 7 = x + 20 := fun x => by
        rw [BitVec.add_assoc, BitVec.add_assoc]
        rfl
      have hentry : threadIndex p s <<< 4 = 16 * threadIndex p s := by
        rw [BitVec.shiftLeft_eq_mul_twoPow, BitVec.mul_comm]
        rfl
      have hplace : c.tableReached = c.address + c.loadOffset + 20 + 7 +
          signExtend32 (c.instDataAddress + c.threadHash - (c.address + 20 + 7)) := by
        rw [tableReached, displacement, BitVec.add_assoc (c.address + c.loadOffset) 20 7]
        rfl
      rw [hdistance, hdistance, dataAt, ← hentry, hplace]
      exact congrArg s.mem.read (BitVec.add_zero _)
  · cases hload

theorem dumpSnippet_append (snip : List SnippetInsn) (bytes : List Nat) (address : BitVec 64) :
    dumpSnippet address (snip ++ [emit bytes]) = dumpSnippet address snip ++ [bytes] := by
  induction snip generalizing address with
  | nil => rfl
  | cons i snip ih => exact congrArg (_ :: ·) (ih _)

/-! ## The snippet is one addition -/

/-- The size of the operand of the `add`. -/
def width (c : TripCounter) : Nat :=
  if c.tool.threaded = false ∧ c.tool.isExecutable = true then 8 else 4

/-- The address of its operand. -/
def reached (c : TripCounter) (p : Processor) (s : Machine) : BitVec 64 :=
  if c.tool.threaded then
    match c.threadReg with
    | none => dataAt p s c.tableReached + signExtend32 c.counterOffset
    | some threadReg => s.gpr threadReg + signExtend32 c.counterOffset
  else if c.tool.isExecutable then signExtend32 (c.instDataAddress + c.counterOffset)
  else c.address + c.loadOffset + 7 +
    signExtend32 (c.displacement 0 (c.instDataAddress + c.counterOffset))

/-- Whatever the mode, the snippet adds the step once, and has no effect but on its scratch
registers and the flags. -/
theorem runs_snippet {snip : List SnippetInsn} (hsnip : c.snippet = some snip) (p : Processor)
    (s : Machine) :
    ∃ t, c.run p snip s = some t ∧
      t.mem = s.mem.addAt c.width (c.reached p s) (c.step.signExtend 64) ∧ t.vec = s.vec ∧
      ∀ r, r ≠ c.sr1 → r ≠ c.sr2 → t.gpr r = s.gpr r := by
  unfold snippet at hsnip
  split at hsnip
  · rename_i hregs
    obtain ⟨hsp1, hsp2, -, -⟩ := hregs
    unfold width reached run
    by_cases hthreaded : c.tool.threaded = true
    · rw [if_pos hthreaded] at hsnip ⊢
      rw [if_neg (by simp [hthreaded])]
      cases hreg : c.threadReg with
      | none =>
        rw [hreg] at hsnip
        obtain ⟨load, hload, rfl⟩ := Option.map_eq_some_iff.mp hsnip
        obtain ⟨t, hrun, hscratched, hdata⟩ := runCode_storeThreadData hload hsp2 hsp1 p s
        rw [dumpSnippet_append, runCode_append, hrun, Option.bind_some]
        obtain ⟨u, hadd, hmem, hvec, hgpr⟩ := runCode_emitAddImmToRegaddrImm p t c.step
          (c.counterOffset.setWidth 32) c.sr1 (c.address + c.loadOffset +
            BitVec.ofNat 64 ((dumpSnippet c.address load).map List.length).sum)
        rw [hscratched.mem, hdata] at hmem
        refine ⟨u, hadd, hmem, hvec.trans hscratched.vec, fun r h1 h2 => ?_⟩
        rw [hgpr]
        exact hscratched.gpr r (by simp [h1, h2])
      | some r =>
        rw [hreg] at hsnip
        obtain rfl := Option.some.inj hsnip
        obtain ⟨t, hrun, hmem, hvec, hgpr⟩ := runCode_emitAddImmToRegaddrImm p s c.step
          (c.counterOffset.setWidth 32) r (c.address + c.loadOffset)
        exact ⟨t, hrun, hmem, hvec, fun r _ _ => congrFun hgpr r⟩
    · rw [if_neg hthreaded] at hsnip ⊢
      by_cases hexec : c.tool.isExecutable = true
      · rw [if_pos hexec] at hsnip ⊢
        rw [if_pos ⟨by simpa using hthreaded, hexec⟩]
        obtain rfl := Option.some.inj hsnip
        obtain ⟨t, hrun, hmem, hvec, hgpr⟩ := runCode_emitAddImmToMem p s c.step
          (c.instDataAddress + c.counterOffset) (c.address + c.loadOffset)
        exact ⟨t, hrun, hmem, hvec, fun r _ _ => congrFun hgpr r⟩
      · rw [if_neg hexec] at hsnip ⊢
        rw [if_neg (by simp [hexec])]
        obtain rfl := Option.some.inj hsnip
        simp only [dumpSnippet, dump_emit, dump_linkInstructionToData hsp1]
        have hsp : c.sr1.val ≠ 4 := fun h => hsp1 (Fin.ext h)
        let found := s.setGpr c.sr1 (c.address + c.loadOffset + 7 +
          signExtend32 (c.instDataAddress + c.counterOffset - (c.address + 7)))
        obtain ⟨t, hadd, hmem, hvec, hgpr⟩ := runCode_emitAddImmToRegaddrImm p found c.step 0 c.sr1
          (c.address + c.loadOffset + 7)
        refine ⟨t, ?_, ?_, hvec, fun r h1 _ => ?_⟩
        · refine runCode_step (decodeInsn_emitLoadRipImmReg _ _ hsp) (exec_emitLoadRipImmReg ..) ?_
          rw [length_emitLoadRipImmReg hsp1]
          exact hadd
        · have hplace : found.gpr c.sr1 + (0 : BitVec 32).signExtend 64 =
              c.address + c.loadOffset + 7 +
                signExtend32 (c.displacement 0 (c.instDataAddress + c.counterOffset)) := by
            rw [displacement, show c.address + 0 = c.address from BitVec.add_zero _]
            exact (BitVec.add_zero _).trans (Function.update_self ..)
          rw [← hplace]
          exact hmem
        · rw [hgpr]
          exact Function.update_of_ne h1 ..
  · cases hsnip

/-! ## What it adds and what it is to add -/

/-- The change of the counter that is asked for. -/
def delta (c : TripCounter) : BitVec 64 :=
  if c.add then c.val.setWidth 64 else -c.val.setWidth 64

theorem next_eq (c : TripCounter) (count : BitVec 64) : c.next count = count + c.delta := by
  unfold next delta
  split
  · rfl
  · exact BitVec.sub_eq_add_neg ..

theorem toNat_delta (c : TripCounter) :
    c.delta.toNat = if c.add then c.val.toNat else (2 ^ 64 - c.val.toNat) % 2 ^ 64 := by
  have hval := c.val.isLt
  unfold delta
  split
  · rw [BitVec.toNat_setWidth]
    omega
  · rw [BitVec.toNat_neg, BitVec.toNat_setWidth]
    omega

theorem toNat_step (c : TripCounter) :
    c.step.toNat = if c.add then c.val.toNat else (2 ^ 32 - c.val.toNat) % 2 ^ 32 := by
  unfold step
  split
  · rfl
  · have hneg : -1 * c.val = -c.val := by
      rw [BitVec.neg_mul]
      exact congrArg _ (BitVec.one_mul _)
    rw [hneg, BitVec.toNat_neg]

theorem toNat_signExtend_step (c : TripCounter) : (c.step.signExtend 64).toNat =
    c.step.toNat + if 2 ^ 31 ≤ c.step.toNat then 2 ^ 64 - 2 ^ 32 else 0 := by
  have hstep := c.step.isLt
  rw [BitVec.toNat_signExtend, BitVec.msb_eq_decide, BitVec.toNat_setWidth]
  simp only [decide_eq_true_eq, Nat.reduceSub, Nat.reducePow]
  split <;> omega

/-- With its sign, the immediate is the change exactly for the small steps. -/
theorem signExtend_step_eq_iff (c : TripCounter) : c.step.signExtend 64 = c.delta ↔
    if c.add then c.val.toNat < 2 ^ 31 else c.val.toNat ≤ 2 ^ 31 := by
  have hval := c.val.isLt
  rw [← BitVec.toNat_inj, toNat_signExtend_step, toNat_step, toNat_delta]
  cases c.add with
  | true =>
    simp only [if_true]
    split <;> omega
  | false =>
    simp only [Bool.false_eq_true, if_false]
    split <;> omega

/-- Without the carry, the sum is right exactly if there is none. -/
theorem sumLow_eq_iff (c : TripCounter) (x : BitVec 64) :
    Memory.sumLow x (c.step.signExtend 64) = x + c.delta ↔
      if c.add then x.toNat % 2 ^ 32 + c.val.toNat < 2 ^ 32
      else c.val.toNat ≤ x.toNat % 2 ^ 32 := by
  have hval := c.val.isLt
  have hx := x.isLt
  have hlow : (x.toNat + (c.step.signExtend 64).toNat) % 2 ^ 32 =
      (x.toNat + c.step.toNat) % 2 ^ 32 := by
    rw [toNat_signExtend_step]
    split <;> omega
  rw [← BitVec.toNat_inj, Memory.toNat_sumLow, hlow, BitVec.toNat_add, toNat_step, toNat_delta]
  cases c.add with
  | true =>
    simp only [if_true]
    omega
  | false =>
    simp only [Bool.false_eq_true, if_false]
    omega

/-- Step and change have the same low half. -/
theorem toNat_delta_mod (c : TripCounter) :
    (c.step.signExtend 64).toNat % 2 ^ 32 = c.step.toNat ∧
      c.delta.toNat % 2 ^ 32 = c.step.toNat := by
  have hval := c.val.isLt
  rw [toNat_signExtend_step, toNat_delta, toNat_step]
  cases c.add with
  | true =>
    simp only [if_true]
    split <;> omega
  | false =>
    simp only [Bool.false_eq_true, if_false]
    split <;> omega

/-- The addition is that of the counter if and only if it adds nothing, or is at the counter and
fits. -/
theorem addAt_eq_write_iff (c : TripCounter) (p : Processor) (s : Machine) (b : BitVec 64) :
    s.mem.addAt c.width b (c.step.signExtend 64) =
        s.mem.write (c.counterAddress p s) (c.next (s.mem.read (c.counterAddress p s))) ↔
      c.val = 0 ∨ b = c.counterAddress p s ∧ c.StepFits p s := by
  have hwidth : 4 ≤ c.width ∧ c.width ≤ 8 := by
    unfold width
    split <;> decide
  obtain ⟨hstep, hdelta⟩ := c.toNat_delta_mod
  rw [next_eq, ← Memory.addAt_eight]
  by_cases hzero : c.val = 0
  · have hstep0 : c.step.signExtend 64 = 0 := by
      unfold step
      rw [hzero]
      cases c.add <;> rfl
    have hdelta0 : c.delta = 0 := by
      unfold delta
      rw [hzero]
      cases c.add <;> rfl
    rw [hstep0, hdelta0, Memory.addAt_zero hwidth.2, Memory.addAt_zero (Nat.le_refl 8)]
    simp [hzero]
  · have hne : c.step.toNat ≠ 0 := by
      have hval := c.val.isLt
      have hpos : c.val.toNat ≠ 0 := fun h => hzero (BitVec.eq_of_toNat_eq h)
      rw [toNat_step]
      split <;> omega
    obtain ⟨j, hfirst⟩ := Memory.exists_firstByte (hstep ▸ hne)
    have hfirst' := hfirst.congr (hstep.trans hdelta.symm)
    rw [or_iff_right hzero]
    -- at another place it changes other bytes; here the words are compared
    have hplace : s.mem.addAt c.width b (c.step.signExtend 64) =
        s.mem.addAt 8 (c.counterAddress p s) c.delta → b = c.counterAddress p s :=
      Memory.eq_of_addAt_eq hfirst hfirst' hwidth (by decide)
    have hvalue : s.mem.addAt c.width (c.counterAddress p s) (c.step.signExtend 64) =
        s.mem.addAt 8 (c.counterAddress p s) c.delta ↔ c.StepFits p s := by
      unfold width StepFits
      simp only
      split
      · rw [← signExtend_step_eq_iff]
        refine ⟨fun h => ?_, fun h => by rw [h]⟩
        exact (BitVec.add_right_inj _).mp (Memory.write_injective h)
      · rw [← sumLow_eq_iff, Memory.addAt_four, Memory.addAt_eight]
        exact ⟨Memory.write_injective, fun h => by rw [h]⟩
    constructor
    · intro h
      obtain rfl := hplace h
      exact ⟨rfl, hvalue.mp h⟩
    · rintro ⟨rfl, hfits⟩
      exact hvalue.mpr hfits

/-- Where the operand is the counter. -/
theorem reached_eq_iff (c : TripCounter) (p : Processor) (s : Machine) :
    c.reached p s = c.counterAddress p s ↔ c.ReachesCounter p s := by
  unfold reached ReachesCounter counterAddress
  by_cases hthreaded : c.tool.threaded = true
  · simp only [hthreaded, if_true]
    cases c.threadReg with
    | none => exact Iff.rfl
    | some r => exact (BitVec.add_right_inj _).trans (signExtend32_eq_iff _)
  · simp only [hthreaded, Bool.false_eq_true, if_false]
    split
    · rename_i hexec
      rw [c.fixed hexec, show ∀ x : BitVec 64, x + 0 = x from BitVec.add_zero]
      exact signExtend32_eq_iff _
    · have hcell : c.instDataAddress + c.counterOffset + c.loadOffset = c.address + c.loadOffset +
          7 + c.displacement 0 (c.instDataAddress + c.counterOffset) := by
        unfold displacement
        ring
      rw [← signExtend32_eq_iff, hcell]
      exact BitVec.add_right_inj _

/-- The pointer of the thread is found where the displacement and the offset fit. -/
theorem reachesCounter_of_fits (c : TripCounter) (p : Processor) (s : Machine)
    (hthreaded : c.tool.threaded = true)
    (htable : FitsSigned32 (c.displacement 20 (c.instDataAddress + c.threadHash)))
    (hoffset : FitsSigned32 c.counterOffset) : c.ReachesCounter p s := by
  have hreached : c.tableReached = c.instDataAddress + c.threadHash + c.loadOffset := by
    rw [tableReached, (signExtend32_eq_iff _).mpr htable, displacement]
    ring
  have hsame : signExtend32 c.counterOffset = c.counterOffset := (signExtend32_eq_iff _).mpr hoffset
  rw [← reached_eq_iff]
  unfold reached counterAddress
  cases c.threadReg <;> simp only [hthreaded, if_true, hreached, hsame]

section Counts

variable {snip : List SnippetInsn} (hsnip : c.snippet = some snip)
include hsnip

theorem meets_of_counts (h : c.Counts p snip s) : c.Meets p s := by
  obtain ⟨t, hrun, hmem, -⟩ := runs_snippet hsnip p s
  obtain ⟨t', hrun', hmem', -⟩ := h
  obtain rfl := Option.some.inj (hrun'.symm.trans hrun)
  rw [Meets, ← reached_eq_iff, ← addAt_eq_write_iff, ← hmem]
  exact hmem'

theorem counts_of_meets (h : c.Meets p s) : c.Counts p snip s := by
  obtain ⟨t, hrun, hmem, hvec, hgpr⟩ := runs_snippet hsnip p s
  rw [Meets, ← reached_eq_iff, ← addAt_eq_write_iff, ← hmem] at h
  exact ⟨t, hrun, h, hvec, hgpr⟩

end Counts

/-- **The snippet counts** exactly when there is nothing to add, or its `add` reaches the counter
and the step fits: for every mode, step, counter and choice of registers, and every state of the
machine. -/
theorem counts_iff_meets (c : TripCounter) (snip : List SnippetInsn) (hsnip : c.snippet = some snip)
    (p : Processor) (s : Machine) : c.Counts p snip s ↔ c.Meets p s :=
  ⟨meets_of_counts hsnip, counts_of_meets hsnip⟩

/-- A counter of an executable, at an address. -/
def executableCounter : TripCounter where
  tool := ⟨false, true⟩
  instDataAddress := 0x601000
  counterOffset := 0x40
  threadHash := 0
  threadReg := none
  add := true
  val := 1
  sr1 := 1
  sr2 := 2
  address := 0x400000
  loadOffset := 0
  fixed _ := rfl

/-- A machine whose registers are 0 but RBX, which is `rbx`, and in whose memory the four bytes
from there on are set. -/
def fullHalf (rbx : BitVec 64) : Machine where
  gpr r := if r = 3 then rbx else 0
  vec _ := 0
  flags := 0
  mem a := if (a - rbx).toNat < 4 then 0xff else 0

/-- A processor that clears the flags. -/
def noFlags : Processor := ⟨fun _ => 0, fun _ _ _ _ _ => 0⟩

theorem counts_executableCounter :
    executableCounter.Counts noFlags
      [emit [0x48, 0x81, 0x04, 0x25, 0x40, 0x10, 0x60, 0, 1, 0, 0, 0]] (fullHalf 0x601040) := by
  refine (counts_iff_meets executableCounter _ (by decide) noFlags (fullHalf 0x601040)).mpr
    (.inr ⟨?_, ?_⟩)
  · exact .inl (by decide)
  · show (1 : BitVec 32).toNat < 2 ^ 31
    decide

/-- The counter of a thread whose data is in RBX. -/
def threadCounter : TripCounter where
  tool := ⟨true, true⟩
  instDataAddress := 0x601000
  counterOffset := 0
  threadHash := 0
  threadReg := some 3
  add := true
  val := 1
  sr1 := 1
  sr2 := 2
  address := 0x400000
  loadOffset := 0
  fixed _ := rfl

/-- The carry out of the low half of a counter that stands at 2^32 - 1 is lost. -/
theorem not_counts_threadCounter :
    ¬∀ (c : TripCounter) (snip : List SnippetInsn) (p : Processor) (s : Machine),
      c.snippet = some snip → c.Counts p snip s := by
  intro h
  rcases meets_of_counts rfl (h threadCounter _ noFlags (fullHalf 0x1000) rfl) with
    hzero | ⟨-, hfits⟩
  · exact absurd hzero (by decide)
  · have hlow : ((fullHalf 0x1000).mem.read (0x1000 + 0)).toNat % 2 ^ 32 + (1 : BitVec 32).toNat <
        2 ^ 32 := hfits
    exact absurd hlow (by decide)

end TripCounter

end Pebil

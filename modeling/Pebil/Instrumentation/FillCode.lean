import Pebil.Instrumentation.BufferFill
import Pebil.Instrumentation.ProtectionUnsafe

/-!
# What the buffer fill does

The parts of the snippet one by one: the scratch registers it gets, the state that the
protection code hands to it (`Lowered`), the entry that it fills
(`recordedAddress_storeEntry`), and the `lea` of an operand
(`emitLoadEffectiveAddressOf_eq_some`).
-/

namespace Pebil

/-! ## Registers that are written -/

section Exec

variable {g : Segments} {s : Machine}

/-- The instruction changes this register and nothing else. -/
def FillInsn.Writes (i : FillInsn) (d : Fin 16) : Prop := ∀ g s, ∃ v, i.exec g s = s.setGpr d v

/-- A run of instructions that write only some registers. -/
theorem runFill_of_writes (ds : List (Fin 16)) :
    ∀ {insns : List FillInsn}, (∀ i ∈ insns, ∃ d ∈ ds, i.Writes d) → ∀ s : Machine,
      (runFill g insns s).mem = s.mem ∧ ∀ r ∉ ds, (runFill g insns s).gpr r = s.gpr r := by
  intro insns
  induction insns with
  | nil => exact fun _ _ => ⟨rfl, fun _ _ => rfl⟩
  | cons i insns ih =>
    intro h s
    obtain ⟨d, hd, hwrites⟩ := h i List.mem_cons_self
    obtain ⟨v, hv⟩ := hwrites g s
    obtain ⟨hmem, hgpr⟩ := ih (fun j hj => h j (List.mem_cons_of_mem i hj)) (i.exec g s)
    refine ⟨hmem.trans (by rw [hv]; rfl), fun r hr => (hgpr r hr).trans ?_⟩
    have hne : r ≠ d := fun heq => hr (heq ▸ hd)
    rw [hv, Machine.setGpr_gpr, Function.update_of_ne hne]

theorem runFill_append (l₁ l₂ : List FillInsn) :
    runFill g (l₁ ++ l₂) s = runFill g l₂ (runFill g l₁ s) :=
  List.foldl_append

theorem runFill_cons (i : FillInsn) (l : List FillInsn) :
    runFill g (i :: l) s = runFill g l (i.exec g s) := rfl

theorem runFill_nil : runFill g [] s = s := rfl

/-- An emitted `lea` computes its address. -/
theorem exec_loadEffectiveAddress {base index dest : Fin 16} {scale : Nat} {value : BitVec 64}
    {hasBase hasIndex : Bool} (hscale : scale ∈ [0, 1, 2, 4, 8])
    (hindex : hasIndex = true → index.val ≠ 4) :
    (FillInsn.loadEffectiveAddress
        (emitLoadEffectiveAddress base index scale value dest hasBase hasIndex)).exec g s =
      s.setGpr dest ((if hasBase then s.gpr base else 0) +
        (if hasIndex then s.gpr index * BitVec.ofNat 64 (max scale 1) else 0) +
        (value.setWidth 32).signExtend 64) := by
  have hmax : max (scale / 2 * 2) 1 = max scale 1 := by
    have hall : ∀ n ∈ [0, 1, 2, 4, 8], max (n / 2 * 2) 1 = max n 1 := by decide
    exact hall scale hscale
  simp only [FillInsn.exec, decodeLea_emitLoadEffectiveAddress hscale hindex]
  rw [dif_pos dest.isLt]
  unfold MemoryOperand.effectiveAddress
  cases hasBase <;> cases hasIndex <;> simp [hmax]

end Exec

/-! ## The `lea` of an operand -/

/-- Its registers are 64-bit ones, and its value is a sign-extended half. -/
structure MemoryOperand.Encodable (op : MemoryOperand) : Prop where
  base : isAddressReg udRRax udRR15 op.base
  index : isAddressReg udRRax udRR15 op.index
  value : (op.value.setWidth 32).signExtend 64 = op.value

theorem leaReg_eq_some {reg : Nat} {r : Fin 16} (h : leaReg reg = some r) :
    reg = udRRax + r := by
  unfold leaReg at h
  split at h
  · rename_i hreg
    obtain rfl := Option.some.inj h
    exact (Nat.add_sub_cancel' hreg.1).symm
  · cases h

/-- The number of a register in `emitLoadEffectiveAddress`. -/
theorem operandReg_eq_some {reg : Nat} {r : Fin 16} (h : operandReg reg = some r) :
    isAddressReg udRRax udRR15 reg ∧ (if (reg != 0) = true then udRRax + r.val else 0) = reg := by
  unfold operandReg at h
  by_cases hzero : reg = 0
  · exact ⟨.inl hzero, by simp [hzero]⟩
  · rw [if_neg hzero] at h
    have hlt := r.isLt
    obtain rfl := leaReg_eq_some h
    refine ⟨.inr ⟨Nat.le_add_right _ _, ?_⟩, if_pos (bne_iff_ne.mpr hzero)⟩
    simp only [udRRax, udRR15]
    omega

theorem exists_operandReg {reg : Nat} (h : isAddressReg udRRax udRR15 reg) :
    ∃ r, operandReg reg = some r := by
  unfold operandReg
  rcases h with rfl | hreg
  · exact ⟨0, rfl⟩
  · have hne : reg ≠ 0 := Nat.ne_of_gt (Nat.lt_of_lt_of_le (by decide) hreg.1)
    rw [if_neg hne]
    exact ⟨_, dif_pos hreg⟩

/-- The `lea` of an operand is emitted when the operand is encodable, and then it computes
the operand's address. -/
theorem emitLoadEffectiveAddressOf_eq_some {adrMode : Nat} {op : MemoryOperand}
    (hdecoded : op.Decoded adrMode) (dest : Fin 16) :
    (op.Encodable → ∃ insn, emitLoadEffectiveAddressOf op dest = some insn) ∧
      ∀ insn, emitLoadEffectiveAddressOf op dest = some insn →
        op.Encodable ∧ ∀ g s, insn.exec g s = s.setGpr dest (op.effectiveAddress s.gpr) := by
  have hscale : (if op.scale = 0 then 1 else op.scale) ∈ [0, 1, 2, 4, 8] := by
    have hall : ∀ n ∈ [0, 2, 4, 8], (if n = 0 then 1 else n) ∈ [0, 1, 2, 4, 8] := by decide
    exact hall op.scale hdecoded.scale
  have hstored : (if (op.index != 0) = true then (if op.scale = 0 then 1 else op.scale) / 2 * 2 else 0) =
      op.scale := by
    by_cases hindex : op.index = 0
    · simp [hindex, hdecoded.noScale hindex]
    · rw [if_pos (bne_iff_ne.mpr hindex)]
      have hall : ∀ n ∈ [0, 2, 4, 8], (if n = 0 then 1 else n) / 2 * 2 = n := by decide
      exact hall op.scale hdecoded.scale
  -- the round trip, for the registers of the operand
  have hdecode : ∀ baseReg indexReg : Fin 16,
      (if (op.index != 0) = true then udRRax + indexReg.val else 0) = op.index →
      decodeLea (emitLoadEffectiveAddress baseReg indexReg (if op.scale = 0 then 1 else op.scale)
          op.value dest (op.base != 0) (op.index != 0)) =
        some (dest.val, { base := if (op.base != 0) = true then udRRax + baseReg.val else 0
                          index := op.index, scale := op.scale
                          value := (op.value.setWidth 32).signExtend 64 }) := by
    intro baseReg indexReg hindex
    rw [decodeLea_emitLoadEffectiveAddress hscale, hstored, hindex]
    intro hhas hfour
    rw [hhas, if_pos rfl, hfour] at hindex
    exact hdecoded.index hindex.symm
  constructor
  · intro henc
    obtain ⟨baseReg, hbase⟩ := exists_operandReg henc.base
    obtain ⟨indexReg, hindex⟩ := exists_operandReg henc.index
    have hsame : op.isSameOperand
        { base := op.base, index := op.index, scale := op.scale,
          value := (op.value.setWidth 32).signExtend 64 } = true := by
      rw [MemoryOperand.isSameOperand_iff, henc.value]
    exact ⟨.loadEffectiveAddress (emitLoadEffectiveAddress baseReg indexReg
      (if op.scale = 0 then 1 else op.scale) op.value dest (op.base != 0) (op.index != 0)), by
      simp only [emitLoadEffectiveAddressOf, hbase, hindex, Option.bind_eq_bind, Option.bind_some,
        hdecode baseReg indexReg (operandReg_eq_some hindex).2, (operandReg_eq_some hbase).2, hsame,
        if_true]⟩
  · intro insn h
    simp only [emitLoadEffectiveAddressOf, Option.bind_eq_bind, Option.bind_eq_some_iff] at h
    obtain ⟨baseReg, hbase, indexReg, hindex, ⟨reg, emitted⟩, hemitted, h⟩ := h
    obtain ⟨hbase, hbase'⟩ := operandReg_eq_some hbase
    obtain ⟨hindex, hindex'⟩ := operandReg_eq_some hindex
    have hdecode := hdecode baseReg indexReg hindex'
    split at h
    · rename_i hsame
      obtain rfl := Option.some.inj h
      rw [hdecode, Option.some.injEq, Prod.mk.injEq] at hemitted
      obtain ⟨rfl, rfl⟩ := hemitted
      rw [MemoryOperand.isSameOperand_iff] at hsame
      have hvalue : (op.value.setWidth 32).signExtend 64 = op.value :=
        congrArg MemoryOperand.value hsame
      refine ⟨⟨hbase, hindex, hvalue⟩, fun g s => ?_⟩
      simp only [FillInsn.exec, hdecode]
      rw [dif_pos dest.isLt]
      exact congrArg (fun o => s.setGpr dest (MemoryOperand.effectiveAddress s.gpr o)) hsame
    · cases h

/-! ## The entry -/

theorem Memory.write_of_le {m : Memory} {a v b : BitVec 64} (h : 8 ≤ (b - a).toNat) :
    m.write a v b = m b := by
  rw [Memory.write_apply rfl, if_neg (Nat.not_lt.mpr h)]

/-- An element of the entry that starts `d` bytes further leaves the first one alone. -/
theorem Memory.write_element {m : Memory} {a v : BitVec 64} {d k : Nat} (hk : k < 8) (hd : 8 ≤ d)
    (hd' : d ≤ 24) :
    m.write (a + BitVec.ofNat 64 d) v (a + BitVec.ofNat 64 k) = m (a + BitVec.ofNat 64 k) := by
  refine Memory.write_of_le ?_
  have hdist : (a + BitVec.ofNat 64 k - (a + BitVec.ofNat 64 d)).toNat = 2 ^ 64 + k - d := by
    rw [BitVec.toNat_sub, BitVec.toNat_add, BitVec.toNat_add, BitVec.toNat_ofNat,
      BitVec.toNat_ofNat]
    omega
  omega

/-- `BufferEntry.address` is what `sr3` held when the elements were stored. -/
theorem recordedAddress_storeEntry (c : FillConfig) {sr : ScratchRegs} (g : Segments) (s : Machine)
    (h : sr.sr2 ≠ sr.sr3) :
    recordedAddress sr (runFill g (c.storeEntry sr) s) = s.gpr sr.sr3 := by
  have hentry : (runFill g (c.storeEntry sr) s).gpr sr.sr2 = s.gpr sr.sr2 := by
    simp [runFill, FillConfig.storeEntry, FillInsn.exec, Function.update_of_ne h]
  unfold recordedAddress
  rw [hentry]
  refine Memory.read_of_write (m := s.mem) fun k hk => ?_
  simp only [runFill, FillConfig.storeEntry, FillInsn.exec, List.foldl_cons, List.foldl_nil,
    Machine.setGpr_gpr, Machine.setGpr_mem, Function.update_of_ne h]
  -- the later elements, the last one first
  refine (Memory.write_element (d := 24) hk (by decide) (by decide)).trans ?_
  refine (Memory.write_element (d := 16) hk (by decide) (by decide)).trans ?_
  refine (Memory.write_element (d := 8) hk (by decide) (by decide)).trans ?_
  rw [show s.gpr sr.sr2 + BitVec.signExtend 64 (0 : BitVec 32) = s.gpr sr.sr2 by simp]

/-! ## The state at the snippet -/

/-- The stack pointer has gone down by `n`, and only the bytes in between were written. -/
structure Machine.Lowered (n : Nat) (s t : Machine) : Prop where
  sp : t.sp = s.sp - BitVec.ofNat 64 n
  mem : ∀ a, n < (s.sp - a).toNat → t.mem a = s.mem a

namespace Machine

variable {s t u : Machine}

theorem sp_setGpr {r : Fin 16} {v : BitVec 64} (h : r ≠ x86RegSp) : (s.setGpr r v).sp = s.sp := by
  unfold sp
  rw [setGpr_gpr, Function.update_of_ne h.symm]

theorem Lowered.refl (s : Machine) : Lowered 0 s s :=
  ⟨(BitVec.sub_zero s.sp).symm, fun _ _ => rfl⟩

theorem Lowered.trans {n m : Nat} (h₁ : Lowered n s t) (h₂ : Lowered m t u) (hle : n + m < 2 ^ 64) :
    Lowered (n + m) s u where
  sp := by
    rw [h₂.sp, h₁.sp, BitVec.sub_sub, BitVec.ofNat_add]
  mem a ha := by
    refine (h₂.mem a ?_).trans (h₁.mem a (by omega))
    have hdist : (s.sp - BitVec.ofNat 64 n - a).toNat = (s.sp - a).toNat - n := by
      rw [BitVec.toNat_sub] at ha
      rw [BitVec.toNat_sub, BitVec.toNat_sub, BitVec.toNat_sub, BitVec.toNat_ofNat]
      have := a.isLt
      have := s.sp.isLt
      omega
    rw [h₁.sp, hdist]
    omega

theorem lowered_push (v : BitVec 64) : Lowered 8 s (s.push v) where
  sp := sp_push
  mem a ha := by
    refine Memory.write_of_le ?_
    have hdist : (a - (s.sp - 8)).toNat = 2 ^ 64 + 8 - (s.sp - a).toNat := by
      rw [BitVec.toNat_sub] at ha
      rw [BitVec.toNat_sub, BitVec.toNat_sub, BitVec.toNat_sub, show (8 : BitVec 64).toNat = 8 from rfl]
      have := a.isLt
      have := s.sp.isLt
      omega
    have := (s.sp - a).isLt
    omega

end Machine

theorem lowered_pushAll (rs : List (Fin 16)) (hle : 8 * rs.length < 2 ^ 64) :
    ∀ s : Machine, Machine.Lowered (8 * rs.length) s (execAll (rs.map .stackPush) s) := by
  induction rs with
  | nil => exact Machine.Lowered.refl
  | cons r rs ih =>
    intro s
    rw [List.length_cons] at hle ⊢
    have h := (Machine.lowered_push (s.gpr r)).trans (ih (by omega) (s.push (s.gpr r))) (by omega)
    rw [show 8 * (rs.length + 1) = 8 + 8 * rs.length by omega]
    exact h

theorem lowered_saveFlags (method : FlagsProtectionMethod) (s : Machine) :
    Machine.Lowered (savedBytes method) s (execAll (InstrumentationPoint.saveFlags method) s) := by
  cases method with
  | none => exact Machine.Lowered.refl s
  | full => exact Machine.lowered_push s.flags
  | light =>
    have h := Machine.lowered_push (s.gpr x86RegAx) (s := s)
    exact ⟨(Machine.sp_setGpr (by decide)).trans h.sp, h.mem⟩

theorem lowered_protectStack (b : Bool) (s : Machine) :
    Machine.Lowered (if b then 128 else 0) s
      (execAll (if b then [.loadRegImmReg (-InstrumentationPoint.trampolineAutoinc)] else []) s) := by
  cases b with
  | false => exact Machine.Lowered.refl s
  | true =>
    refine ⟨?_, fun _ _ => rfl⟩
    show Function.update s.gpr x86RegSp (s.sp + -InstrumentationPoint.trampolineAutoinc) x86RegSp = _
    rw [Function.update_self, ← BitVec.sub_eq_add_neg]
    rfl

namespace InstrumentationPoint

variable (pt : InstrumentationPoint) (s : Machine)

/-- The state in which a trampoline that is entered in state `s` reaches its snippet. -/
def arrive : Machine := execAll (pt.emitted .trampoline).before s

theorem lowered_arrive : Machine.Lowered (pt.depth .trampoline) s (pt.arrive s) := by
  have hdepth := pt.depth_le .trampoline
  have hlength := pt.length_savedRegs_le .trampoline
  have hbytes := savedBytes_le pt.getFlagsMethod
  unfold arrive depth
  rw [emitted_eq, coreBefore, execAll_append, execAll_append]
  refine (lowered_protectStack _ s).trans ((lowered_pushAll _ (by omega) _).trans
    (lowered_saveFlags _ _) (by omega)) ?_
  split <;> omega

/-- The other registers arrive unchanged, except RAX when it gets the flags. -/
theorem arrive_gpr {r : Fin 16} (hsp : r ≠ x86RegSp)
    (hax : r = x86RegAx → pt.getFlagsMethod ≠ .light) : (pt.arrive s).gpr r = s.gpr r := by
  refine (pt.bracket_emitted .trampoline).get_pre s (.gpr r) ?_
  rintro (heq | hneeded)
  · exact hsp (Place.gpr.inj heq)
  · cases hm : pt.getFlagsMethod <;> rw [hm] at hneeded
    · exact hneeded
    · exact hax (Place.gpr.inj hneeded) hm
    · exact hneeded

theorem arrive_ax (hm : pt.getFlagsMethod = .light) :
    (pt.arrive s).gpr x86RegAx = lahfImage (s.gpr x86RegAx) s.flags := by
  unfold arrive
  rw [emitted_eq, coreBefore, hm, execAll_append, execAll_append]
  simp only [Function.comp_apply, gprAx_saveFlags, gprAx_pushAll, flags_pushAll, flags_protectStack]
  congr 1
  cases pt.movesStack .trampoline with
  | false => rfl
  | true =>
    show Function.update s.gpr x86RegSp (s.sp + -trampolineAutoinc) x86RegAx = _
    rw [Function.update_of_ne (by decide)]

end InstrumentationPoint

end Pebil

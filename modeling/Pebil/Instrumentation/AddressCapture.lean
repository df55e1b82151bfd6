import Mathlib.Data.BitVec
import Mathlib.Tactic.Ring
import Mathlib.Tactic.LinearCombination
import Pebil.Instrumentation.FillEntry

/-!
# When the captured address is exact

`exact_iff_capturable`: for which memory instructions, scratch registers and protections the
address that the snippet stores is the one the instruction accesses, from every state.
-/

namespace Pebil

/-! ## Addresses and registers -/

theorem regValue_ext {f f' : Fin 16 → BitVec 64} {reg : Nat}
    (h : ∀ r : Fin 16, reg = udRRax + r → f r = f' r) : regValue f reg = regValue f' reg := by
  unfold regValue
  split
  · rename_i hreg
    exact h _ (Nat.add_sub_cancel' hreg.1).symm
  · rfl

theorem regValue_update (f : Fin 16 → BitVec 64) (q : Fin 16) (v : BitVec 64) (reg : Nat) :
    regValue (Function.update f q v) reg = if reg = udRRax + q then v else regValue f reg := by
  by_cases hreg : reg = udRRax + q
  · rw [if_pos hreg, hreg, regValue_add, Function.update_self]
  · rw [if_neg hreg]
    refine regValue_ext fun r hr => Function.update_of_ne (fun heq => hreg ?_) _ _
    rw [hr, heq]

namespace MemoryOperand

variable {op : MemoryOperand} {f f' : Fin 16 → BitVec 64}

/-- The address is computed from this register. -/
def UsesReg (op : MemoryOperand) (r : Fin 16) : Prop :=
  op.base = udRRax + r ∨ op.index = udRRax + r

theorem effectiveAddress_congr (h : ∀ r, op.UsesReg r → f r = f' r) :
    op.effectiveAddress f = op.effectiveAddress f' := by
  unfold effectiveAddress
  rw [regValue_ext fun r hr => h r (.inl hr), regValue_ext fun r hr => h r (.inr hr)]

/-- Changing a register that the address is computed from changes the address by a small
multiple. -/
theorem effectiveAddress_update {adrMode : Nat} (hdecoded : op.Decoded adrMode) {q : Fin 16}
    (hq : op.UsesReg q) (f : Fin 16 → BitVec 64) (v : BitVec 64) :
    ∃ k ∈ [1, 2, 3, 4, 5, 8, 9], op.effectiveAddress (Function.update f q v) =
      op.effectiveAddress f + BitVec.ofNat 64 k * (v - f q) := by
  have hbase : op.base = udRRax + q → regValue f op.base = f q := fun h => by rw [h, regValue_add]
  have hindex : op.index = udRRax + q → regValue f op.index = f q := fun h => by
    rw [h, regValue_add]
  have hscale : max op.scale 1 ∈ [1, 2, 4, 8] := by
    have hall : ∀ n ∈ [0, 2, 4, 8], max n 1 ∈ [1, 2, 4, 8] := by decide
    exact hall op.scale hdecoded.scale
  unfold effectiveAddress
  rw [regValue_update, regValue_update]
  by_cases hb : op.base = udRRax + q
  · by_cases hi : op.index = udRRax + q
    · refine ⟨1 + max op.scale 1, ?_, ?_⟩
      · have hall : ∀ n ∈ [1, 2, 4, 8], 1 + n ∈ [1, 2, 3, 4, 5, 8, 9] := by decide
        exact hall _ hscale
      · rw [if_pos hb, if_pos hi, hbase hb, hindex hi, BitVec.ofNat_add,
          show BitVec.ofNat 64 1 = 1 from rfl]
        ring
    · refine ⟨1, by decide, ?_⟩
      rw [if_pos hb, if_neg hi, hbase hb, show BitVec.ofNat 64 1 = 1 from rfl]
      ring
  · have hi := hq.resolve_left hb
    refine ⟨max op.scale 1, ?_, ?_⟩
    · have hall : ∀ n ∈ [1, 2, 4, 8], n ∈ [1, 2, 3, 4, 5, 8, 9] := by decide
      exact hall _ hscale
    · rw [if_neg hb, if_pos hi, hindex hi]
      ring

end MemoryOperand

namespace FillConfig

variable (c : FillConfig) (m : MemoryInstruction) (pt : InstrumentationPoint)

/-! ## The property and its condition -/

/-- The snippet can be emitted, and whatever the state at the point, it records the
address that the instruction then accesses. -/
def Exact : Prop :=
  ∃ sr insns, c.scratchRegs m = some sr ∧ c.bufferFill m sr = some insns ∧
    ∀ g s, recordedAddress sr (runFill g insns (pt.arrive s)) = m.linearAddress c.loadOffset g s

/-- The memory operands whose registers reach the snippet as they were. -/
structure CapturableOperand (op : MemoryOperand) : Prop where
  /-- `lea` is emitted with a 64-bit address. -/
  encodable : op.Encodable
  narrow : m.adrMode = 32 → op.value.toNat < 2 ^ 31
  /-- The snippet has not loaded them. -/
  loaded : ∀ r, op.UsesReg r → ∀ sr, c.scratchRegs m = some sr → r ∉ c.loaded sr
  /-- The protection code has not moved the stack pointer, and no pop moves it. -/
  stackPointer : op.UsesReg x86RegSp → pt.depth .trampoline = 0 ∧ m.stackAccess ≠ some .pop
  /-- The flags are not in AH. -/
  accumulator : op.UsesReg x86RegAx → pt.getFlagsMethod ≠ .light

/-- What the address capture is exact for. -/
structure Capturable : Prop where
  /-- There are enough registers. -/
  scratch : (c.scratchRegs m).isSome
  buffer : ∀ a, c.addressing = .absolute a → a.toNat < 2 ^ 32
  /-- There is no segment prefix. -/
  segment : m.explicitOperand.isSome → m.pfxSeg = none
  /-- A RIP-relative address is known and below 2^31. -/
  rip : ∀ op, m.explicitOperand = some op → op.base = udRip →
    c.loadOffset = 0 ∧ (m.programAddress + op.value + m.sizeInBytes).toNat < 2 ^ 31
  operand : ∀ op, m.explicitOperand = some op → op.base ≠ udRip → c.CapturableOperand m pt op
  /-- A push or pop finds the stack pointer where it was, and moves 64 bits. -/
  stack : m.explicitOperand = none →
    pt.depth .trampoline = 0 ∧ (m.stackAccess = some .push → m.oprMode ≠ 16)

variable {c m pt}

/-- The recorded address is the one that was computed into `sr3`. -/
theorem exact_iff_computed :
    c.Exact m pt ↔ ∃ sr buffer insn, c.scratchRegs m = some sr ∧ c.loadBuffer sr = some buffer ∧
      emitAddressComputation m sr.sr3 = some insn ∧
      ∀ g s, (insn.exec g (runFill g (buffer ++ c.findEntry sr) (pt.arrive s))).gpr sr.sr3 =
        m.linearAddress c.loadOffset g s := by
  have hrecorded : ∀ sr buffer insn g s, c.scratchRegs m = some sr →
      recordedAddress sr (runFill g (buffer ++ c.findEntry sr ++ [insn] ++ c.storeEntry sr) s) =
        (insn.exec g (runFill g (buffer ++ c.findEntry sr) s)).gpr sr.sr3 := by
    intro sr buffer insn g s hscratch
    rw [runFill_append, recordedAddress_storeEntry c g _ (scratchRegs_valid hscratch).ne₂₃,
      runFill_append, runFill_cons, runFill_nil]
  constructor
  · rintro ⟨sr, insns, hscratch, hfill, hexact⟩
    simp only [bufferFill, Option.bind_eq_bind, Option.bind_eq_some_iff] at hfill
    obtain ⟨buffer, hbuffer, insn, hinsn, hfill⟩ := hfill
    obtain rfl := Option.some.inj hfill
    exact ⟨sr, buffer, insn, hscratch, hbuffer, hinsn, fun g s =>
      (hrecorded sr buffer insn g _ hscratch).symm.trans (hexact g s)⟩
  · rintro ⟨sr, buffer, insn, hscratch, hbuffer, hinsn, hexact⟩
    refine ⟨sr, _, hscratch, ?_, fun g s =>
      (hrecorded sr buffer insn g _ hscratch).trans (hexact g s)⟩
    simp only [bufferFill, hbuffer, hinsn]
    rfl

/-! ## Registers at the snippet -/

theorem arrive_sp (pt : InstrumentationPoint) (s : Machine) :
    (pt.arrive s).gpr x86RegSp = s.sp - BitVec.ofNat 64 (pt.depth .trampoline) :=
  (pt.lowered_arrive s).sp

/-- A register that none of the three causes touches arrives unchanged. -/
theorem arrive_gpr_of {s : Machine} {r : Fin 16}
    (hsp : r = x86RegSp → pt.depth .trampoline = 0)
    (hax : r = x86RegAx → pt.getFlagsMethod ≠ .light) : (pt.arrive s).gpr r = s.gpr r := by
  by_cases hr : r = x86RegSp
  · subst hr
    rw [arrive_sp, hsp rfl]
    exact BitVec.sub_zero _
  · exact pt.arrive_gpr s hr hax

theorem depth_pos_of_light (h : pt.getFlagsMethod = .light) : 0 < pt.depth .trampoline := by
  unfold InstrumentationPoint.depth
  rw [h, savedBytes]
  · omega
  · simp

/-- A state with empty memory and flags. -/
def probe (gpr : Fin 16 → BitVec 64) : Machine :=
  ⟨Function.update gpr x86RegSp 0x8000000000000000, fun _ => 0, 0, fun _ => 0⟩

theorem probe_sp (gpr : Fin 16 → BitVec 64) : (probe gpr).sp = 0x8000000000000000 := by
  show Function.update gpr x86RegSp 0x8000000000000000 x86RegSp = _
  rw [Function.update_self]

theorem probe_gpr (gpr : Fin 16 → BitVec 64) {r : Fin 16} (h : r ≠ x86RegSp) :
    (probe gpr).gpr r = gpr r := by
  show Function.update gpr x86RegSp 0x8000000000000000 r = _
  rw [Function.update_of_ne h]

/-- No segment has a base; all selectors are `selector`. -/
def probeSegments (selector : BitVec 16) : Segments := ⟨fun _ => selector, fun _ => 0⟩

/-- The registers of a probe as they arrive: the stack pointer has moved, and RAX may have
got the flags. -/
theorem quiet_probe {gpr : Fin 16 → BitVec 64} {selector : BitVec 16}
    (hthread : ∀ r, c.threadReg = some r → gpr r = 0 ∨ gpr r = 0x200) :
    c.Quiet (probeSegments selector) (pt.arrive (probe gpr)) where
  mem a ha := by
    have hdepth := pt.depth_le .trampoline
    have hlt := a.isLt
    refine (pt.lowered_arrive (probe gpr)).mem a ?_
    rw [probe_sp, BitVec.toNat_sub, show (0x8000000000000000 : BitVec 64).toNat = 2 ^ 63 from rfl]
    omega
  fs := rfl
  thread r hr := by
    have hsp : r ≠ x86RegSp := by
      rintro rfl
      unfold threadReg at hr
      cases haddr : c.addressing with
      | absolute a =>
        rw [haddr] at hr
        cases hr
      | pic p =>
        rw [haddr] at hr
        exact p.threadReg_ne hr
    have hgpr := probe_gpr gpr hsp
    by_cases hax : r = x86RegAx ∧ pt.getFlagsMethod = .light
    · obtain ⟨rfl, hm⟩ := hax
      rw [pt.arrive_ax _ hm, hgpr, show (probe gpr).flags = 0 from rfl]
      rcases hthread _ hr with hzero | himage
      · rw [hzero]
        decide
      · rw [himage]
        decide
    · rw [pt.arrive_gpr _ hsp fun h hm => hax ⟨h, hm⟩, hgpr]
      rcases hthread _ hr with hzero | himage
      · rw [hzero]
        decide
      · rw [himage]
        decide

/-! ## Operands with a segment prefix, and RIP-relative ones -/

theorem linearAddress_operand {op : MemoryOperand} (hop : m.explicitOperand = some op)
    (hseg : m.pfxSeg = none) (loadOffset : BitVec 64) (g : Segments) (s : Machine) :
    m.linearAddress loadOffset g s =
      if m.adrMode = 32 then ((m.offset loadOffset s op).setWidth 32).setWidth 64
      else m.offset loadOffset s op := by
  unfold MemoryInstruction.linearAddress
  rw [hop, hseg]
  exact BitVec.zero_add _

/-- A selector is no address. -/
theorem segment_of_exact (h : c.Exact m pt) (hop : m.explicitOperand.isSome) :
    m.pfxSeg = none := by
  obtain ⟨sr, buffer, insn, -, -, hinsn, hexact⟩ := exact_iff_computed.mp h
  obtain ⟨op, hop⟩ := Option.isSome_iff_exists.mp hop
  cases hseg : m.pfxSeg with
  | none => rfl
  | some seg =>
    simp only [emitAddressComputation, hop, hseg] at hinsn
    obtain rfl := Option.some.inj hinsn
    -- the bases are the same, the selectors are not
    have hselector : ∀ selector, selector.setWidth 64 =
        m.linearAddress c.loadOffset (probeSegments selector) (probe fun _ => 0) := by
      intro selector
      rw [← hexact]
      simp only [FillInsn.exec, Machine.setGpr_gpr, Function.update_self]
      rfl
    have hsame : m.linearAddress c.loadOffset (probeSegments 0) (probe fun _ => 0) =
        m.linearAddress c.loadOffset (probeSegments 1) (probe fun _ => 0) := rfl
    rw [← hselector, ← hselector] at hsame
    exact absurd hsame (by decide)

theorem loadOffset_lt (c : FillConfig) : c.loadOffset.toNat < 2 ^ 47 := by
  unfold loadOffset
  cases c.addressing with
  | absolute _ => exact Nat.two_pow_pos 47
  | pic p => exact p.userSpace.2

/-- What `mov` makes of an address, and when that is the address itself. -/
theorem emitMoveImmToReg_exact {addr offset : BitVec 64} (dest : Fin 16)
    (before : Segments → Machine → Machine) (hoffset : offset.toNat < 2 ^ 47) :
    (∃ insn, emitMoveImmToReg addr dest = some insn ∧
        ∀ g s, (insn.exec g (before g s)).gpr dest = offset + addr) ↔
      offset = 0 ∧ addr.toNat < 2 ^ 31 := by
  have hext : addr.toNat < 2 ^ 32 → ((addr.setWidth 32).signExtend 64 = offset + addr ↔
      offset = 0 ∧ addr.toNat < 2 ^ 31) := by
    intro hfits
    rw [← BitVec.toNat_inj, toNat_signExtend_half, BitVec.toNat_setWidth,
      Nat.mod_eq_of_lt hfits, BitVec.toNat_add, ← BitVec.toNat_inj,
      show (0 : BitVec 64).toNat = 0 from rfl]
    split <;> omega
  constructor
  · rintro ⟨insn, hinsn, hexact⟩
    unfold emitMoveImmToReg at hinsn
    split at hinsn
    · rename_i hfits
      obtain rfl := Option.some.inj hinsn
      refine (hext hfits).mp ?_
      rw [← hexact (probeSegments 0) (probe fun _ => 0)]
      simp only [FillInsn.exec, Machine.setGpr_gpr, Function.update_self]
    · cases hinsn
  · rintro ⟨hzero, hhalf⟩
    have hfits : addr.toNat < 2 ^ 32 := by omega
    refine ⟨_, if_pos hfits, fun g s => ?_⟩
    rw [← (hext hfits).mpr ⟨hzero, hhalf⟩]
    simp only [FillInsn.exec, Machine.setGpr_gpr, Function.update_self]

/-- The address of a RIP-relative operand, which has an address size of 64 bits. -/
theorem linearAddress_rip {op : MemoryOperand} (hop : m.explicitOperand = some op)
    (hseg : m.pfxSeg = none) (hrip : op.base = udRip) (loadOffset : BitVec 64) (g : Segments)
    (s : Machine) : m.linearAddress loadOffset g s =
      loadOffset + (m.programAddress + op.value + m.sizeInBytes) := by
  have hwide : m.adrMode ≠ 32 := by
    intro hnarrow
    have hbase := ((m.decoded op hop).narrow hnarrow).1
    rw [hrip] at hbase
    exact absurd hbase (by unfold isAddressReg; decide)
  rw [linearAddress_operand hop hseg, if_neg hwide]
  unfold MemoryInstruction.offset
  rw [if_pos hrip]
  ring

/-- A RIP-relative operand. -/
theorem exact_rip_iff {op : MemoryOperand} {sr : ScratchRegs} {buffer : List FillInsn}
    (hop : m.explicitOperand = some op) (hseg : m.pfxSeg = none) (hrip : op.base = udRip) :
    (∃ insn, emitMoveImmToReg (m.programAddress + op.value + m.sizeInBytes) sr.sr3 = some insn ∧
        ∀ g s, (insn.exec g (runFill g (buffer ++ c.findEntry sr) (pt.arrive s))).gpr sr.sr3 =
          m.linearAddress c.loadOffset g s) ↔
      c.loadOffset = 0 ∧ (m.programAddress + op.value + m.sizeInBytes).toNat < 2 ^ 31 := by
  rw [← emitMoveImmToReg_exact sr.sr3
    (fun g s => runFill g (buffer ++ c.findEntry sr) (pt.arrive s)) c.loadOffset_lt]
  simp only [linearAddress_rip hop hseg hrip]

/-! ## Operands with registers -/

/-- The registers as the processor uses them: a pop has moved the stack pointer. -/
def seenGpr (m : MemoryInstruction) (s : Machine) : Fin 16 → BitVec 64 :=
  if m.stackAccess = some .pop then Function.update s.gpr x86RegSp (s.sp + m.stackBytes)
  else s.gpr

theorem seenGpr_of_ne {s : Machine} {r : Fin 16} (h : r = x86RegSp → m.stackAccess ≠ some .pop) :
    seenGpr m s r = s.gpr r := by
  unfold seenGpr
  split
  · rename_i hpop
    rw [Function.update_of_ne fun hr => h hr hpop]
  · rfl

theorem addressReg_wide {f : Fin 16 → BitVec 64} {reg : Nat}
    (h : isAddressReg udRRax udRR15 reg) : addressReg f reg = regValue f reg := by
  refine if_neg ?_
  unfold is32BitGpr
  rw [inUdRange_iff]
  rcases h with rfl | ⟨hlo, -⟩
  · decide
  · simp only [udRRax, udREax, udRR15d] at *
    omega

theorem offset_registers {op : MemoryOperand} (hrip : op.base ≠ udRip) (henc : op.Encodable)
    (loadOffset : BitVec 64) (s : Machine) :
    m.offset loadOffset s op = op.effectiveAddress (seenGpr m s) := by
  unfold MemoryInstruction.offset
  rw [if_neg hrip]
  simp only [addressReg_wide henc.base, addressReg_wide henc.index]
  rfl

/-- With an address size of 32 bits, an operand that `lea` can encode has no registers. -/
theorem effectiveAddress_narrow {op : MemoryOperand} (hop : m.explicitOperand = some op)
    (henc : op.Encodable) (hnarrow : m.adrMode = 32) :
    (∀ r, ¬ op.UsesReg r) ∧ ∀ f, op.effectiveAddress f = op.value := by
  have hzero : ∀ reg, isAddressReg udRRax udRR15 reg → isAddressReg udREax udRR15d reg → reg = 0 := by
    intro reg hwide hhalf
    simp only [isAddressReg, udRRax, udRR15, udREax, udRR15d] at hwide hhalf
    omega
  obtain ⟨hbase, hindex⟩ := (m.decoded op hop).narrow hnarrow
  have hbase := hzero _ henc.base hbase
  have hindex := hzero _ henc.index hindex
  constructor
  · rintro r (hr | hr)
    · rw [hbase] at hr
      simp only [udRRax] at hr
      omega
    · rw [hindex] at hr
      simp only [udRRax] at hr
      omega
  · intro f
    unfold MemoryOperand.effectiveAddress
    rw [hbase, hindex, regValue_zero]
    ring

/-- Small multiples of small numbers are not zero, and nor are their sums. -/
theorem add_mul_ne_zero_of_small {k l a b : Nat} (hk : k ∈ [1, 2, 3, 4, 5, 8, 9])
    (hl : l ∈ [1, 2, 3, 4, 5, 8, 9]) (hpos : 0 < a) (hlt : a < 2 ^ 32) (hlt' : b < 2 ^ 32) :
    BitVec.ofNat 64 k * BitVec.ofNat 64 a + BitVec.ofNat 64 l * BitVec.ofNat 64 b ≠ 0 := by
  intro h
  have hall : ∀ n ∈ [1, 2, 3, 4, 5, 8, 9], 0 < n ∧ n ≤ 9 := by decide
  have hmulk : k * a ≤ 9 * a := Nat.mul_le_mul_right _ (hall k hk).2
  have hmull : l * b ≤ 9 * b := Nat.mul_le_mul_right _ (hall l hl).2
  have hmulpos : 0 < k * a := Nat.mul_pos (hall k hk).1 hpos
  rw [← BitVec.ofNat_mul, ← BitVec.ofNat_mul, ← BitVec.ofNat_add] at h
  have hnat := congrArg BitVec.toNat h
  rw [BitVec.toNat_ofNat, Nat.mod_eq_of_lt (by omega)] at hnat
  rw [show (0 : BitVec 64).toNat = 0 from rfl] at hnat
  omega

theorem mul_ne_zero_of_small {k a : Nat} (hk : k ∈ [1, 2, 3, 4, 5, 8, 9]) (hpos : 0 < a)
    (hlt : a < 2 ^ 32) : BitVec.ofNat 64 k * BitVec.ofNat 64 a ≠ 0 := by
  have h := add_mul_ne_zero_of_small (b := 0) hk hk hpos hlt (by decide)
  intro hzero
  rw [hzero] at h
  exact h (by simp)

section Registers

variable {op : MemoryOperand} {sr : ScratchRegs} {buffer : List FillInsn}

/-- The address would be computed from a register that the snippet has loaded: the
recorded address does not depend on that register. -/
theorem not_loaded (hdecoded : op.Decoded m.adrMode) (hv : c.ScratchValid m sr)
    (hbuffer : c.loadBuffer sr = some buffer)
    (hexact : ∀ g s, op.effectiveAddress
      (runFill g (buffer ++ c.findEntry sr) (pt.arrive s)).gpr = op.effectiveAddress (seenGpr m s))
    {r : Fin 16} (hr : op.UsesReg r) : r ∉ c.loaded sr := by
  intro hloaded
  have hsp := hv.ne_sp hloaded
  have hax := hv.ne_ax hloaded
  let gpr := fun v : BitVec 64 => Function.update (fun _ : Fin 16 => (0 : BitVec 64)) r v
  have hother : ∀ v q, q ≠ r → gpr v q = 0 := fun v q hq => Function.update_of_ne hq _ _
  have hthread : ∀ v q, c.threadReg = some q → gpr v q = 0 ∨ gpr v q = 0x200 := by
    intro v q hq
    refine .inl (hother v q ?_)
    rintro rfl
    have hvalid := hv.valid q hloaded
    simp [invalid, hq] at hvalid
  -- both states reach the computation with the same registers
  have hsame : ∀ q, (runFill (probeSegments 0) (buffer ++ c.findEntry sr)
        (pt.arrive (probe (gpr 0)))).gpr q =
      (runFill (probeSegments 0) (buffer ++ c.findEntry sr) (pt.arrive (probe (gpr 1)))).gpr q := by
    intro q
    by_cases hq : q ∈ c.loaded sr
    · rw [findEntry_quiet hv hbuffer (quiet_probe (hthread 0)) q hq,
        findEntry_quiet hv hbuffer (quiet_probe (hthread 1)) q hq]
    · have hqr : q ≠ r := fun heq => hq (heq ▸ hloaded)
      rw [gpr_findEntry hv hbuffer hq, gpr_findEntry hv hbuffer hq]
      by_cases hqsp : q = x86RegSp
      · rw [hqsp, arrive_sp, arrive_sp, probe_sp, probe_sp]
      by_cases hqax : q = x86RegAx ∧ pt.getFlagsMethod = .light
      · rw [hqax.1, pt.arrive_ax _ hqax.2, pt.arrive_ax _ hqax.2, probe_gpr _ (by decide),
          probe_gpr _ (by decide), hother 0 _ hax.symm, hother 1 _ hax.symm]
        rfl
      · have hkept := fun s => pt.arrive_gpr s hqsp fun h hm => hqax ⟨h, hm⟩
        rw [hkept, hkept, probe_gpr _ hqsp, probe_gpr _ hqsp, hother 0 q hqr, hother 1 q hqr]
  have haddr := hexact (probeSegments 0) (probe (gpr 0))
  rw [MemoryOperand.effectiveAddress_congr fun q _ => hsame q, hexact] at haddr
  -- the processor's address does
  have hupdate : op.effectiveAddress (seenGpr m (probe (gpr 1))) =
      op.effectiveAddress (Function.update (seenGpr m (probe (gpr 0))) r 1) := by
    refine MemoryOperand.effectiveAddress_congr fun q _ => ?_
    by_cases hqr : q = r
    · subst hqr
      rw [Function.update_self, seenGpr_of_ne fun h => absurd h hsp, probe_gpr _ hsp]
      exact Function.update_self q 1 _
    rw [Function.update_of_ne hqr]
    by_cases hqsp : q = x86RegSp
    · subst hqsp
      unfold seenGpr
      split
      · rw [Function.update_self, Function.update_self, probe_sp, probe_sp]
      · exact (probe_sp (gpr 1)).trans (probe_sp (gpr 0)).symm
    · rw [seenGpr_of_ne fun h => absurd h hqsp, seenGpr_of_ne fun h => absurd h hqsp,
        probe_gpr _ hqsp, probe_gpr _ hqsp, hother 1 q hqr, hother 0 q hqr]
  obtain ⟨k, hk, hdiff⟩ :=
    MemoryOperand.effectiveAddress_update hdecoded hr (seenGpr m (probe (gpr 0))) 1
  have hzero : seenGpr m (probe (gpr 0)) r = 0 := by
    rw [seenGpr_of_ne fun h => absurd h hsp, probe_gpr _ hsp]
    exact Function.update_self r 0 _
  rw [← hupdate, haddr, hzero, left_eq_add] at hdiff
  exact mul_ne_zero_of_small (a := 1) hk (by decide) (by decide) hdiff

/-- The address would be computed from the stack pointer after it was moved. -/
theorem stackPointer_of_exact (hdecoded : op.Decoded m.adrMode) (hv : c.ScratchValid m sr)
    (hbuffer : c.loadBuffer sr = some buffer)
    (hexact : ∀ g s, op.effectiveAddress
      (runFill g (buffer ++ c.findEntry sr) (pt.arrive s)).gpr = op.effectiveAddress (seenGpr m s))
    (hsp : op.UsesReg x86RegSp) : pt.depth .trampoline = 0 ∧ m.stackAccess ≠ some .pop := by
  -- in this state RAX arrives unchanged even with the flags in it
  let s := probe fun r => if r = x86RegAx then 0x200 else 0
  have hregs : ∀ r, op.UsesReg r →
      (runFill (probeSegments 0) (buffer ++ c.findEntry sr) (pt.arrive s)).gpr r =
        Function.update s.gpr x86RegSp (s.sp - BitVec.ofNat 64 (pt.depth .trampoline)) r := by
    intro r hr
    rw [gpr_findEntry hv hbuffer (not_loaded hdecoded hv hbuffer hexact hr)]
    by_cases hrsp : r = x86RegSp
    · subst hrsp
      rw [Function.update_self, arrive_sp]
    rw [Function.update_of_ne hrsp]
    by_cases hrax : r = x86RegAx ∧ pt.getFlagsMethod = .light
    · obtain ⟨rfl, hm⟩ := hrax
      rw [pt.arrive_ax _ hm, probe_gpr _ hrsp, if_pos rfl]
      decide
    · exact pt.arrive_gpr s hrsp fun h hm => hrax ⟨h, hm⟩
  have haddr := hexact (probeSegments 0) s
  rw [MemoryOperand.effectiveAddress_congr hregs] at haddr
  have hdepth := pt.depth_le .trampoline
  obtain ⟨k, hk, hrecorded⟩ := MemoryOperand.effectiveAddress_update hdecoded hsp s.gpr
    (s.sp - BitVec.ofNat 64 (pt.depth .trampoline))
  rw [haddr, show s.gpr x86RegSp = s.sp from rfl] at hrecorded
  unfold seenGpr at hrecorded
  split at hrecorded
  · -- the pop has moved it the other way
    rename_i hpop
    obtain ⟨l, hl, hseen⟩ := MemoryOperand.effectiveAddress_update hdecoded hsp s.gpr
      (s.sp + m.stackBytes)
    rw [hseen, show s.gpr x86RegSp = s.sp from rfl] at hrecorded
    have hsum : BitVec.ofNat 64 l * m.stackBytes +
        BitVec.ofNat 64 k * BitVec.ofNat 64 (pt.depth .trampoline) = 0 := by
      linear_combination hrecorded
    have hbytes : ∃ n, m.stackBytes = BitVec.ofNat 64 n ∧ 0 < n ∧ n ≤ 8 := by
      unfold MemoryInstruction.stackBytes
      split
      · exact ⟨2, rfl, by decide, by decide⟩
      · exact ⟨8, rfl, by decide, by decide⟩
    obtain ⟨n, hn, hpos, hle⟩ := hbytes
    rw [hn] at hsum
    exact absurd hsum (add_mul_ne_zero_of_small hl hk hpos (by omega) (by omega))
  · rename_i hpop
    refine ⟨?_, hpop⟩
    by_contra hmoved
    have hmul : BitVec.ofNat 64 k * BitVec.ofNat 64 (pt.depth .trampoline) = 0 := by
      linear_combination hrecorded
    exact mul_ne_zero_of_small hk (Nat.pos_of_ne_zero hmoved) (by omega) hmul

/-- The address would be computed from RAX with the flags in it. -/
theorem accumulator_of_exact (hdecoded : op.Decoded m.adrMode) (hv : c.ScratchValid m sr)
    (hbuffer : c.loadBuffer sr = some buffer)
    (hexact : ∀ g s, op.effectiveAddress
      (runFill g (buffer ++ c.findEntry sr) (pt.arrive s)).gpr = op.effectiveAddress (seenGpr m s))
    (hax : op.UsesReg x86RegAx) : pt.getFlagsMethod ≠ .light := by
  intro hm
  have hdepth := depth_pos_of_light hm
  have hsp : ∀ r, op.UsesReg r → r ≠ x86RegSp := by
    rintro r hr rfl
    have := (stackPointer_of_exact hdecoded hv hbuffer hexact hr).1
    omega
  let s := probe fun _ => 0
  have hregs : ∀ r, op.UsesReg r →
      (runFill (probeSegments 0) (buffer ++ c.findEntry sr) (pt.arrive s)).gpr r =
        Function.update (seenGpr m s) x86RegAx 0x200 r := by
    intro r hr
    rw [gpr_findEntry hv hbuffer (not_loaded hdecoded hv hbuffer hexact hr)]
    by_cases hrax : r = x86RegAx
    · subst hrax
      rw [Function.update_self, pt.arrive_ax _ hm, probe_gpr _ (by decide)]
      decide
    · rw [Function.update_of_ne hrax, seenGpr_of_ne fun h => absurd h (hsp r hr)]
      exact pt.arrive_gpr s (hsp r hr) fun h => absurd h hrax
  have haddr := hexact (probeSegments 0) s
  rw [MemoryOperand.effectiveAddress_congr hregs] at haddr
  obtain ⟨k, hk, hdiff⟩ := MemoryOperand.effectiveAddress_update hdecoded hax (seenGpr m s) 0x200
  have hzero : seenGpr m s x86RegAx = 0 := by
    rw [seenGpr_of_ne fun h => absurd h (by decide), probe_gpr _ (by decide)]
  rw [haddr, hzero, left_eq_add] at hdiff
  exact mul_ne_zero_of_small (a := 0x200) hk (by decide) (by decide) hdiff

/-- An operand with registers. -/
theorem exact_operand_iff (hscratch : c.scratchRegs m = some sr)
    (hbuffer : c.loadBuffer sr = some buffer) (hop : m.explicitOperand = some op)
    (hseg : m.pfxSeg = none) (hrip : op.base ≠ udRip) :
    (∃ insn, emitLoadEffectiveAddressOf op sr.sr3 = some insn ∧
        ∀ g s, (insn.exec g (runFill g (buffer ++ c.findEntry sr) (pt.arrive s))).gpr sr.sr3 =
          m.linearAddress c.loadOffset g s) ↔ c.CapturableOperand m pt op := by
  have hv := scratchRegs_valid hscratch
  have hdecoded := m.decoded op hop
  obtain ⟨hemit, hexec⟩ := emitLoadEffectiveAddressOf_eq_some hdecoded sr.sr3
  have hrecorded : ∀ insn, emitLoadEffectiveAddressOf op sr.sr3 = some insn → ∀ g s,
      (insn.exec g s).gpr sr.sr3 = op.effectiveAddress s.gpr := by
    intro insn hinsn g s
    rw [(hexec insn hinsn).2 g s, Machine.setGpr_gpr, Function.update_self]
  constructor
  · rintro ⟨insn, hinsn, hexact⟩
    have henc := (hexec insn hinsn).1
    have hexact : ∀ g s, op.effectiveAddress
        (runFill g (buffer ++ c.findEntry sr) (pt.arrive s)).gpr =
          m.linearAddress c.loadOffset g s := fun g s =>
      (hrecorded insn hinsn g _).symm.trans (hexact g s)
    by_cases hnarrow : m.adrMode = 32
    · obtain ⟨hnone, hvalue⟩ := effectiveAddress_narrow hop henc hnarrow
      refine ⟨henc, fun _ => ?_, fun r hr => absurd hr (hnone r), fun hr => absurd hr (hnone _),
        fun hr => absurd hr (hnone _)⟩
      have haddr := hexact (probeSegments 0) (probe fun _ => 0)
      rw [hvalue, linearAddress_operand hop hseg, if_pos hnarrow,
        offset_registers hrip henc, hvalue] at haddr
      -- extended with the sign and without it, the value is the same
      have hsign := congrArg BitVec.toNat henc.value
      have hzero := congrArg BitVec.toNat haddr
      rw [toNat_signExtend_half, BitVec.toNat_setWidth] at hsign
      rw [BitVec.toNat_setWidth, BitVec.toNat_setWidth] at hzero
      split at hsign <;> omega
    · have hexact : ∀ g s, op.effectiveAddress
          (runFill g (buffer ++ c.findEntry sr) (pt.arrive s)).gpr =
            op.effectiveAddress (seenGpr m s) := by
        intro g s
        rw [hexact, linearAddress_operand hop hseg, if_neg hnarrow, offset_registers hrip henc]
      refine ⟨henc, fun h => absurd h hnarrow, fun r hr sr' hsr' => ?_,
        stackPointer_of_exact hdecoded hv hbuffer hexact,
        accumulator_of_exact hdecoded hv hbuffer hexact⟩
      obtain rfl := Option.some.inj (hscratch.symm.trans hsr')
      exact not_loaded hdecoded hv hbuffer hexact hr
  · intro h
    obtain ⟨insn, hinsn⟩ := hemit h.encodable
    refine ⟨insn, hinsn, fun g s => ?_⟩
    have hregs : op.effectiveAddress (runFill g (buffer ++ c.findEntry sr) (pt.arrive s)).gpr =
        op.effectiveAddress (seenGpr m s) := by
      refine MemoryOperand.effectiveAddress_congr fun r hr => ?_
      rw [gpr_findEntry hv hbuffer (h.loaded r hr sr hscratch)]
      by_cases hsp : r = x86RegSp
      · subst hsp
        have hstack := h.stackPointer hr
        rw [arrive_gpr_of (fun _ => hstack.1) fun heq => absurd heq (by decide),
          seenGpr_of_ne fun _ => hstack.2]
      · rw [seenGpr_of_ne fun heq => absurd heq hsp]
        refine arrive_gpr_of (fun heq => absurd heq hsp) fun hax => ?_
        subst hax
        exact h.accumulator hr
    rw [hrecorded insn hinsn, hregs, linearAddress_operand hop hseg,
      offset_registers hrip h.encodable]
    by_cases hnarrow : m.adrMode = 32
    · rw [if_pos hnarrow, (effectiveAddress_narrow hop h.encodable hnarrow).2]
      have hhalf := h.narrow hnarrow
      apply BitVec.eq_of_toNat_eq
      rw [BitVec.toNat_setWidth, BitVec.toNat_setWidth]
      omega
    · rw [if_neg hnarrow]

/-! ## Pushes and pops -/

/-- An instruction without memory operand. -/
theorem exact_stack_iff (hscratch : c.scratchRegs m = some sr)
    (hbuffer : c.loadBuffer sr = some buffer) (hop : m.explicitOperand = none) :
    (∃ insn, emitAddressComputation m sr.sr3 = some insn ∧
        ∀ g s, (insn.exec g (runFill g (buffer ++ c.findEntry sr) (pt.arrive s))).gpr sr.sr3 =
          m.linearAddress c.loadOffset g s) ↔
      pt.depth .trampoline = 0 ∧ (m.stackAccess = some .push → m.oprMode ≠ 16) := by
  have hv := scratchRegs_valid hscratch
  have hdepth := pt.depth_le .trampoline
  have hsp : ∀ g s, (runFill g (buffer ++ c.findEntry sr) (pt.arrive s)).gpr x86RegSp =
      s.sp - BitVec.ofNat 64 (pt.depth .trampoline) := fun g s =>
    (gpr_findEntry hv hbuffer fun hmem => hv.ne_sp hmem rfl).trans (arrive_sp pt s)
  -- both accesses record an address relative to the moved stack pointer
  have hrelative : ∀ d e : BitVec 64,
      (∀ s : Machine, s.sp - BitVec.ofNat 64 (pt.depth .trampoline) + d = s.sp + e) ↔
        BitVec.ofNat 64 (pt.depth .trampoline) = d - e := by
    intro d e
    constructor
    · intro h
      linear_combination -(h (probe fun _ => 0))
    · intro h s
      linear_combination -h
  have hoffset : ∀ (value : BitVec 64) g s, ((FillInsn.loadEffectiveAddress
        (emitLoadEffectiveAddress x86RegSp 0 1 value sr.sr3 true false)).exec g
          (runFill g (buffer ++ c.findEntry sr) (pt.arrive s))).gpr sr.sr3 =
      s.sp - BitVec.ofNat 64 (pt.depth .trampoline) + (value.setWidth 32).signExtend 64 := by
    intro value g s
    rw [exec_loadEffectiveAddress (by decide) fun h => absurd h (by decide), Machine.setGpr_gpr,
      Function.update_self, if_pos rfl, if_neg (by decide), hsp]
    ring
  have hzero : BitVec.ofNat 64 (pt.depth .trampoline) = 0 ↔ pt.depth .trampoline = 0 := by
    rw [← BitVec.toNat_inj, BitVec.toNat_ofNat, Nat.mod_eq_of_lt (by omega)]
    rfl
  have hemit : ∀ value e : BitVec 64,
      (∀ g s, m.linearAddress c.loadOffset g s = s.sp + e) →
      emitAddressComputation m sr.sr3 = some (.loadEffectiveAddress
        (emitLoadEffectiveAddress x86RegSp 0 1 value sr.sr3 true false)) →
      ((∃ insn, emitAddressComputation m sr.sr3 = some insn ∧
          ∀ g s, (insn.exec g (runFill g (buffer ++ c.findEntry sr) (pt.arrive s))).gpr sr.sr3 =
            m.linearAddress c.loadOffset g s) ↔
        BitVec.ofNat 64 (pt.depth .trampoline) = (value.setWidth 32).signExtend 64 - e) := by
    intro value e hlinear hinsn
    rw [← hrelative, hinsn]
    constructor
    · rintro ⟨insn, hsome, hexact⟩ s
      obtain rfl := Option.some.inj hsome
      rw [← hoffset value (probeSegments 0) s, hexact, hlinear]
    · intro h
      exact ⟨_, rfl, fun g s => by rw [hoffset, h, hlinear]⟩
  cases hstack : m.stackAccess with
  | none =>
    have hmem := m.isMemoryOperation
    rw [hop, hstack] at hmem
    simp at hmem
  | some access =>
  cases access with
  | pop =>
    rw [hemit 0 0 (fun g s => ?_) (by simp only [emitAddressComputation, hop, hstack]),
      show ((0 : BitVec 64).setWidth 32).signExtend 64 - 0 = 0 by decide, hzero]
    · simp
    · simp [MemoryInstruction.linearAddress, hop, hstack]
  | push =>
    rw [hemit (-8) (-m.stackBytes) (fun g s => ?_)
      (by simp only [emitAddressComputation, hop, hstack])]
    · unfold MemoryInstruction.stackBytes
      by_cases hmode : m.oprMode = 16
      · -- two bytes are pushed, eight were assumed
        rw [if_pos hmode]
        refine ⟨fun h => ?_, fun h => absurd hmode (h.2 rfl)⟩
        have hnat := congrArg BitVec.toNat h
        rw [BitVec.toNat_ofNat, Nat.mod_eq_of_lt (by omega)] at hnat
        rw [show (((-8 : BitVec 64).setWidth 32).signExtend 64 - -2).toNat = 2 ^ 64 - 6 by decide]
          at hnat
        omega
      · rw [if_neg hmode, show ((-8 : BitVec 64).setWidth 32).signExtend 64 - -8 = 0 by decide, hzero]
        simp [hmode]
    · simp [MemoryInstruction.linearAddress, hop, hstack, BitVec.sub_eq_add_neg]

end Registers

/-! ## The condition is exact -/

/-- `mov rax, fs:[0x28]`. -/
def stackGuardLoad : MemoryInstruction where
  mnemonic := .other 2
  itype := .move
  format := .unknown
  operands i :=
    if i = 0 then some ⟨.reg, udRRax, 0, 0⟩ else if i = 1 then some ⟨.mem, 0, 0, 0x28⟩ else none
  flagsUse := 0
  flagsDef := 0
  impregUse := 0
  impregDef := 0
  container := ⟨0x1000, 0x100⟩
  baseAddress := 0x1000
  sizeInBytes := 9
  addressAnchor := none
  pfxSeg := some 4
  adrMode := 64
  oprMode := 64
  scale _ := 0
  namesAddress := false
  stackAccess := none
  programAddress := 0x1000
  isMemoryOperation := .inl rfl
  decoded op hop := by
    obtain rfl : (⟨0, 0, 0, 0x28⟩ : MemoryOperand) = op := Option.some.inj hop
    exact ⟨.inl rfl, fun _ => ⟨.inl (.inl rfl), .inl rfl⟩, fun _ => ⟨.inl rfl, .inl rfl⟩, by decide,
      by decide, fun _ => rfl⟩

/-- A buffer at a fixed address. -/
def fixedBuffer : FillConfig where
  addressing := .absolute 0x600000
  liveIns := none
  start := 0
  memopSeq := 0
  memopIdInBlock := 0
  numberOfMemoryOps := 1
  imageHash := 0

end FillConfig

end Pebil

import Pebil.Instrumentation.ProtectionCorrect

/-!
# Where state protection fails

For each way in which a point can be unsafe there is a body that the declarations of its
snippet allow and that does harm, so `Safe` is not only enough (`preserved_of_safe`) but
also necessary (`preserved_iff`).
-/

namespace Pebil

namespace InstrumentationPoint

variable {pt : InstrumentationPoint} {mode : EmissionMode} {redZone usesStack : Bool}
  {body : Machine → Machine} {s : Machine}

/-! ## Bodies that do harm -/

/-- A body that changes a vector register. -/
def flipVec (r : Fin 24) (s : Machine) : Machine :=
  { s with vec := Function.update s.vec r (~~~s.vec r) }

/-- A body that changes a flag. -/
def flipFlag (i : Fin 32) (s : Machine) : Machine :=
  { s with flags := s.flags ^^^ BitVec.twoPow 64 i }

/-- A body that changes RAX. -/
def flipAx (s : Machine) : Machine := s.setGpr x86RegAx (~~~s.gpr x86RegAx)

/-- A body that writes the byte below its stack pointer. -/
def pokeBelow (s : Machine) : Machine :=
  { s with mem := Function.update s.mem (s.sp - 1) (s.mem (s.sp - 1) + 1) }

variable {insns : List X86Instruction}

theorem framed_of_eq {n : Nat} {t : Machine} (hn : n < 2 ^ 64) (hsp : t.sp = s.sp)
    (hmem : t.mem = s.mem) : Machine.Framed n s t :=
  ⟨hsp, hn, fun k _ => by rw [hmem]⟩

theorem behaves_flipVec {r : Fin 24} (h : Declares insns (.vec r)) :
    Behaves insns usesStack (flipVec r) where
  kept s k hk := by
    cases k with
    | gpr _ => rfl
    | vec q =>
      have hne : q ≠ r := fun heq => hk (heq ▸ h)
      exact Function.update_of_ne hne _ _
    | flag _ => rfl
  framed s := framed_of_eq (by decide) rfl rfl
  below _ _ _ _ := rfl

theorem getLsbD_flipFlag {i j : Fin 32} :
    (flipFlag i s).flags.getLsbD j = (s.flags.getLsbD j ^^ decide (i = j)) := by
  have hi := i.isLt
  simp [flipFlag, BitVec.getLsbD_twoPow, show i.val < 64 by omega, Fin.ext_iff]

theorem behaves_flipFlag {i : Fin 32} (h : Declares insns (.flag i)) :
    Behaves insns usesStack (flipFlag i) where
  kept s k hk := by
    cases k with
    | gpr _ => rfl
    | vec _ => rfl
    | flag j =>
      have hne : i ≠ j := fun heq => hk (heq ▸ h)
      show (flipFlag i s).flags.getLsbD j = s.flags.getLsbD j
      rw [getLsbD_flipFlag]
      simp [hne]
  framed s := framed_of_eq (by decide) rfl rfl
  below _ _ _ _ := rfl

theorem behaves_flipAx (h : Declares insns (.gpr x86RegAx)) :
    Behaves insns usesStack flipAx where
  kept s k hk := by
    cases k with
    | gpr q =>
      have hne : q ≠ x86RegAx := fun heq => hk (heq ▸ h)
      exact Function.update_of_ne hne _ _
    | vec _ => rfl
    | flag _ => rfl
  framed s := by
    refine framed_of_eq (by decide) ?_ rfl
    show Function.update s.gpr x86RegAx (~~~s.gpr x86RegAx) x86RegSp = s.gpr x86RegSp
    rw [Function.update_of_ne (by decide)]
  below _ _ _ _ := rfl

theorem behaves_pokeBelow : Behaves insns true pokeBelow where
  kept s k _ := by cases k <;> rfl
  framed s := by
    refine ⟨rfl, by decide, fun k hk => Function.update_of_ne (fun heq => ?_) _ _⟩
    have hoff := offset_toNat (s.sp - 1) (k := k + 1) (by omega)
    rw [Machine.add_shift s.sp 1 k] at heq
    rw [show k + 1 = k + (1 : BitVec 64).toNat from rfl, heq, BitVec.sub_self] at hoff
    exact absurd hoff (by simp)
  below h := by cases h

/-! ## What is not restored -/

/-- A place that is neither restored nor touched ends up as the body left it. -/
theorem get_run_other (hbody : Behaves (pt.emitted mode).snippet usesStack body) {k : Place}
    (hk : k ∉ pt.restoredBy mode) :
    ((pt.emitted mode).run body s).get k = (body (execAll (pt.emitted mode).before s)).get k ∧
      (execAll (pt.emitted mode).before s).get k = s.get k :=
  ⟨(pt.bracket_emitted mode).get_other 0 s _
      (framed_mono (hbody.framed _) (by have := pt.depth_le mode; omega)) k hk,
    (pt.bracket_emitted mode).get_pre s k fun htouched => hk (touched_subset_restoredBy htouched)⟩

/-- A flag that is not restored is lost when the body flips it. -/
theorem not_preserved_flipFlag {i : Fin 32} (hi : isStatusFlag i = true)
    (hlive : pt.Live (.flag i)) (hdef : Declares (pt.emitted mode).snippet (.flag i))
    (hk : Place.flag i ∉ pt.restoredBy mode) :
    ¬ pt.Preserved redZone s ((pt.emitted mode).run (flipFlag i) s) := by
  intro h
  obtain ⟨hpost, hpre⟩ := get_run_other (s := s) (behaves_flipFlag hdef : Behaves _ true _) hk
  have hkept := h.live (.flag i) hlive hi
  rw [hpost] at hkept
  have hflip : (flipFlag i (execAll (pt.emitted mode).before s)).flags.getLsbD i =
    ((execAll (pt.emitted mode).before s).flags.getLsbD i ^^ decide (i = i)) := getLsbD_flipFlag
  have hsame : (execAll (pt.emitted mode).before s).flags.getLsbD i = s.flags.getLsbD i := hpre
  have hkept : (flipFlag i (execAll (pt.emitted mode).before s)).flags.getLsbD i =
    s.flags.getLsbD i := hkept
  rw [hflip, hsame] at hkept
  simp at hkept

/-- A vector register is lost when the body flips it. -/
theorem not_preserved_flipVec {r : Fin 24} (hlive : pt.Live (.vec r))
    (hdef : Declares (pt.emitted mode).snippet (.vec r)) :
    ¬ pt.Preserved redZone s ((pt.emitted mode).run (flipVec r) s) := by
  intro h
  have hk : Place.vec r ∉ pt.restoredBy mode := by
    rintro ((hk | ⟨q, -, hk⟩) | hk)
    · cases hk
    · cases hk
    · cases hm : pt.getFlagsMethod <;> rw [hm] at hk <;> simp [restoredPlaces] at hk
  obtain ⟨hpost, hpre⟩ := get_run_other (s := s) (behaves_flipVec hdef : Behaves _ true _) hk
  have hkept := h.live (.vec r) hlive trivial
  rw [hpost, ← hpre] at hkept
  have hflip : (flipVec r (execAll (pt.emitted mode).before s)).vec r =
    ~~~(execAll (pt.emitted mode).before s).vec r := Function.update_self _ _ _
  have hsame : ~~~(execAll (pt.emitted mode).before s).vec r =
    (execAll (pt.emitted mode).before s).vec r := hflip.symm.trans hkept
  have hbit := congrArg (fun v : BitVec 128 => v.getLsbD 0) hsame
  simp at hbit

/-- What the method does not restore is not restored. -/
theorem flag_notMem_restoredBy {i : Fin 32} (hfull : pt.getFlagsMethod ≠ .full)
    (hlight : pt.getFlagsMethod = .light → protectLight i = false) :
    Place.flag i ∉ pt.restoredBy mode := by
  rintro ((hk | ⟨q, -, hk⟩) | hk)
  · cases hk
  · cases hk
  · cases hm : pt.getFlagsMethod with
    | full => exact hfull hm
    | none =>
      rw [hm] at hk
      cases hk
    | light =>
      rw [hm] at hk
      rcases hk with hk | hk | ⟨j, hj, hbit⟩
      · cases hk
      · cases hk
      · obtain rfl : i = j := Place.flag.inj hj
        rw [lahfMask_eq_protectLight, hlight hm] at hbit
        cases hbit

/-! ## The flags in AH -/

theorem flags_pushAll (rs : List (Fin 16)) :
    ∀ s : Machine, (execAll (rs.map .stackPush) s).flags = s.flags := by
  induction rs with
  | nil => exact fun _ => rfl
  | cons r rs ih => exact fun s => ih _

theorem flags_popAll (rs : List (Fin 16)) :
    ∀ s : Machine, (execAll (rs.map .stackPop) s).flags = s.flags := by
  induction rs with
  | nil => exact fun _ => rfl
  | cons r rs ih => exact fun s => ih _

theorem gprAx_pushAll (rs : List (Fin 16)) :
    ∀ s : Machine, (execAll (rs.map .stackPush) s).gpr x86RegAx = s.gpr x86RegAx := by
  induction rs with
  | nil => exact fun _ => rfl
  | cons r rs ih =>
    intro s
    refine (ih _).trans ?_
    show Function.update s.gpr x86RegSp (s.sp - 8) x86RegAx = s.gpr x86RegAx
    rw [Function.update_of_ne (by decide)]

theorem gprAx_popAll {rs : List (Fin 16)} (h : x86RegAx ∉ rs) :
    ∀ s : Machine, (execAll (rs.map .stackPop) s).gpr x86RegAx = s.gpr x86RegAx := by
  induction rs with
  | nil => exact fun _ => rfl
  | cons r rs ih =>
    intro s
    rw [List.mem_cons, not_or] at h
    refine (ih h.2 _).trans ?_
    show Function.update (Function.update s.gpr x86RegSp (s.sp + 8)) r s.top x86RegAx =
      s.gpr x86RegAx
    rw [Function.update_of_ne h.1, Function.update_of_ne (by decide)]

theorem flags_protectStack (b : Bool) (d : BitVec 64) :
    (execAll (if b then [.loadRegImmReg d] else []) s).flags = s.flags := by
  cases b <;> rfl

theorem gprAx_saveFlags (t : Machine) :
    (execAll (saveFlags .light) t).gpr x86RegAx = lahfImage (t.gpr x86RegAx) t.flags := by
  show Function.update (Function.update t.gpr x86RegSp (t.sp - 8)) x86RegAx
    (lahfImage (Function.update t.gpr x86RegSp (t.sp - 8) x86RegAx) t.flags) x86RegAx = _
  rw [Function.update_self, Function.update_of_ne (by decide)]

/-- When RAX is flipped between `lahf` and `sahf`, the flags are too. -/
theorem flag_of_flipAx {t u v : Machine} {i : Fin 32} (hi : protectLight i = true)
    (hu : u.gpr x86RegAx = lahfImage (t.gpr x86RegAx) t.flags)
    (hv : v.gpr x86RegAx = (flipAx u).gpr x86RegAx) :
    (SaveInsn.storeAhToFlags.exec v).flags.getLsbD i = !t.flags.getLsbD i := by
  have hmask : lahfMask.getLsbD i = true := (lahfMask_eq_protectLight i).trans hi
  have hlt := lt_of_lahfMask hmask
  have hflip : (flipAx u).gpr x86RegAx = ~~~u.gpr x86RegAx := by
    unfold flipAx
    rw [Machine.setGpr_gpr, Function.update_self]
  show (v.setFlags lahfMask (v.gpr x86RegAx >>> 8)).flags.getLsbD i = !t.flags.getLsbD i
  rw [getLsbD_setFlags, if_pos hmask, hv, hflip, hu, BitVec.getLsbD_ushiftRight,
    BitVec.getLsbD_not, ← BitVec.getLsbD_ushiftRight, getLsbD_lahfImage hmask]
  simp [show 8 + i.val < 64 by omega]

/-- The snippet flips RAX while the flags are in it. -/
theorem flag_run_flipAx {i : Fin 32} (hm : pt.getFlagsMethod = .light)
    (hi : protectLight i = true) (hax : mode = .inline → x86RegAx ∉ pt.savedRegs .inline) :
    ((pt.emitted mode).run flipAx s).flags.getLsbD i = !s.flags.getLsbD i := by
  unfold Emitted.run
  rw [emitted_eq, execAll_append, execAll_append]
  simp only [Function.comp_apply]
  rw [flags_protectStack]
  generalize hlow : execAll (if pt.movesStack mode then [.loadRegImmReg (-trampolineAutoinc)]
    else []) s = low
  have hflags : low.flags = s.flags := by rw [← hlow, flags_protectStack]
  rw [← hflags]
  cases mode with
  | trampoline =>
    simp only [coreBefore, coreAfter, hm, execAll_append, Function.comp_apply, flags_popAll]
    -- the method pushes RAX, puts the flags there, and takes them from there first
    refine (flag_of_flipAx hi (gprAx_saveFlags _) rfl).trans ?_
    show (!(execAll ((pt.savedRegs .trampoline).map .stackPush) low).flags.getLsbD i) =
      !low.flags.getLsbD i
    rw [flags_pushAll]
  | inline =>
    simp only [coreBefore, coreAfter, hm, execAll_append, Function.comp_apply]
    -- the registers are pushed and popped while the flags are in RAX
    refine (flag_of_flipAx hi ((gprAx_pushAll _ _).trans (gprAx_saveFlags low))
      (gprAx_popAll ?_ _)).trans rfl
    rw [List.mem_reverse]
    exact hax rfl

/-- The flags are lost when the body flips RAX. -/
theorem not_preserved_flipAx (hneeds : pt.NeedsLight) (hno : ¬ pt.NeedsFull)
    (hax : ¬ (mode = .inline ∧ pt.Live (.gpr x86RegAx))) :
    ¬ pt.Preserved redZone s ((pt.emitted mode).run flipAx s) := by
  intro h
  have hm : pt.getFlagsMethod = .light := by
    rcases pt.getFlagsMethod_cases with ⟨hfull, -⟩ | ⟨-, -, hm⟩ | ⟨-, hno', -⟩
    · exact absurd hfull hno
    · exact hm
    · exact absurd hneeds hno'
  obtain ⟨-, i, hi, hsquash, hlight⟩ := hneeds
  have hstatus : isStatusFlag i = true := by
    revert hlight
    unfold protectLight isStatusFlag
    simp
    omega
  have hkept : ((pt.emitted mode).run flipAx s).flags.getLsbD i = s.flags.getLsbD i :=
    h.live (.flag ⟨i, hi⟩) hsquash.1 hstatus
  let j : Fin 32 := ⟨i, hi⟩
  have hflip : ((pt.emitted mode).run flipAx s).flags.getLsbD j = !s.flags.getLsbD j :=
    flag_run_flipAx hm hlight fun hmode hmem =>
      hax ⟨hmode, (protectedRegs_iff.mp (mem_savedRegs.mp hmem).2).1⟩
  change ((pt.emitted mode).run flipAx s).flags.getLsbD i = !s.flags.getLsbD i at hflip
  rw [hkept] at hflip
  simp at hflip

/-! ## The red zone -/

/-- Without protection a body that uses the stack reaches the red zone. -/
theorem not_preserved_pokeBelow (hleaf : pt.hasLeafOptimization = true)
    (h : pt.movesStack .inline = false) :
    ¬ pt.Preserved true s ((pt.emitted .inline).run pokeBelow s) := by
  intro hp
  have hbyte := hp.redZone rfl 127 (by decide)
  rw [run_inline_nothing hleaf h] at hbyte
  have haddr : s.sp - 128 + BitVec.ofNat 64 127 = s.sp - 1 := by
    have hshift := Machine.add_shift (s.sp - 1) 127 0
    rw [BitVec.sub_sub] at hshift
    simpa using hshift.symm
  rw [haddr] at hbyte
  have hpoke : (pokeBelow s).mem (s.sp - 1) = s.mem (s.sp - 1) + 1 := Function.update_self _ _ _
  rw [hpoke] at hbyte
  simp at hbyte

theorem not_movesStack_inline
    (h : ¬ ((∃ r : Fin 16, r ≠ x86RegSp ∧ pt.protectedRegs r = true) ∨ pt.NeedsFull ∨
      pt.NeedsLight)) : pt.movesStack .inline = false := by
  rw [not_or, not_or] at h
  obtain ⟨hregs, hfull, hlight⟩ := h
  have hcount : pt.countProt = 0 := by
    refine List.countP_eq_zero.mpr fun r _ hr => hregs ⟨r, ?_⟩
    simpa using hr
  have hm : pt.getFlagsMethod = .none := by
    rcases pt.getFlagsMethod_cases with ⟨h, -⟩ | ⟨-, h, -⟩ | ⟨-, -, hm⟩
    · exact absurd h hfull
    · exact absurd h hlight
    · exact hm
  simp [movesStack, hcount, hm]

/-! ## The condition is exact -/

/-- Only a safe point is left intact by every body. -/
theorem safe_of_preserved (hleaf : redZone = true → pt.hasLeafOptimization = true)
    (h : ∀ body, Behaves (pt.emitted mode).snippet usesStack body →
      ∀ s, pt.Preserved redZone s ((pt.emitted mode).run body s)) :
    pt.Safe mode redZone usesStack := by
  let s : Machine := ⟨fun _ => 0, fun _ => 0, 0, fun _ => 0⟩
  refine ⟨fun r hlive hdef => ?_, fun hloc i hi hlive hdef => ?_, fun _ hlive hdef => ?_,
    fun hlight hno hdef => ?_, fun hmode hred huses => ?_⟩
  · exact not_preserved_flipVec hlive hdef (h _ (behaves_flipVec hdef) s)
  · have hm : pt.getFlagsMethod = .none := if_pos hloc
    refine not_preserved_flipFlag hi hlive hdef (flag_notMem_restoredBy ?_ ?_)
      (h _ (behaves_flipFlag hdef) s)
    · simp [hm]
    · simp [hm]
  · by_contra hno
    refine not_preserved_flipFlag rfl hlive hdef (flag_notMem_restoredBy (fun hm => ?_)
      fun _ => rfl) (h _ (behaves_flipFlag hdef) s)
    rcases pt.getFlagsMethod_cases with ⟨hfull, -⟩ | ⟨-, -, hm'⟩ | ⟨-, -, hm'⟩
    · exact hno hfull
    · rw [hm] at hm'
      cases hm'
    · rw [hm] at hm'
      cases hm'
  · by_contra hax
    exact not_preserved_flipAx hlight hno hax (h _ (behaves_flipAx hdef) s)
  · subst hmode hred huses
    by_contra hno
    exact not_preserved_pokeBelow (hleaf rfl) (not_movesStack_inline hno)
      (h _ behaves_pokeBelow s)

/-- **State protection.** For a point with a snippet, in a function that makes no call if
it has a red zone, the emitted sequence leaves the stack pointer, the live registers and
status flags and the red zone as they were, whatever the snippet does within its
declarations and from whatever state, exactly when the point is safe. -/
theorem preserved_iff (pt : InstrumentationPoint) (mode : EmissionMode)
    (redZone usesStack : Bool) (hsnippet : pt.instrumentation.isSnippet = true)
    (hleaf : redZone = true → pt.hasLeafOptimization = true) :
    (∀ body, Behaves (pt.emitted mode).snippet usesStack body →
        ∀ s, pt.Preserved redZone s ((pt.emitted mode).run body s)) ↔
      pt.Safe mode redZone usesStack :=
  ⟨safe_of_preserved hleaf, fun hsafe _ hbody _ => preserved_of_safe hsnippet hleaf hsafe hbody⟩

/-! ## A snippet that clears RAX -/

/-- `xor eax, eax`. -/
def xorEax : X86Instruction where
  mnemonic := .other 0
  itype := .int
  format := .unknown
  operands i := if i = 0 ∨ i = 1 then some ⟨.reg, udREax, 0, 0⟩ else none
  flagsUse := 0
  flagsDef := 0x8d5
  impregUse := 0
  impregDef := 0
  container := ⟨0x1000, 0x100⟩
  baseAddress := 0x1000
  sizeInBytes := 2
  addressAnchor := none

/-- What it does: CF, AF, SF and OF are cleared, PF and ZF are set. -/
def clearRax (s : Machine) : Machine :=
  { s.setGpr x86RegAx 0 with flags := s.flags &&& ~~~(0x8d5 : BitVec 64) ||| 0x44 }

theorem behaves_clearRax : Behaves [xorEax] usesStack clearRax where
  kept s k hk := by
    cases k with
    | gpr q =>
      have hne : q ≠ x86RegAx := by
        rintro rfl
        exact hk ⟨xorEax, List.mem_singleton_self _,
          show xorEax.getRegistersDefined.containsRegister 0 = true by decide⟩
      show Function.update s.gpr x86RegAx 0 q = s.gpr q
      rw [Function.update_of_ne hne]
    | vec _ => rfl
    | flag i =>
      have hclear : ¬ xorEax.defsFlag i = true := fun h =>
        hk ⟨xorEax, List.mem_singleton_self _, h⟩
      have hbits : (0x8d5 : BitVec 64).getLsbD i = false ∧ (0x44 : BitVec 64).getLsbD i = false := by
        clear hk
        decide +revert
      have hi := i.isLt
      show (s.flags &&& ~~~(0x8d5 : BitVec 64) ||| 0x44).getLsbD i = s.flags.getLsbD i
      rw [BitVec.getLsbD_or, BitVec.getLsbD_and, BitVec.getLsbD_not, hbits.1, hbits.2]
      simp [show i.val < 64 by omega]
  framed s := by
    refine framed_of_eq (by decide) ?_ rfl
    show Function.update s.gpr x86RegAx 0 x86RegSp = s.gpr x86RegSp
    rw [Function.update_of_ne (by decide)]
  below _ _ _ _ := rfl

/-- A point where `xor eax, eax` is inserted and `live` is live. -/
def xorEaxPoint (live : RegisterSet) : InstrumentationPoint where
  liveIns := some live
  liveOuts := some live
  hasLeafOptimization := true
  isEntry := false
  instLocation := .prior
  instrumentation := ⟨true, false, true, [xorEax]⟩
  precursorInstructions := []
  postcursorInstructions := []

theorem not_declares_xorEax {r : Fin 24} : ¬ Declares [xorEax] (.vec r) := by
  rintro ⟨x, hx, hdef⟩
  obtain rfl : x = xorEax := List.mem_singleton.mp hx
  have hclear : xorEax.getRegistersDefined.containsRegister (x86FpregXmm0 + r) = false := by
    clear hx hdef
    decide +revert
  rw [show xorEax.getRegistersDefined.containsRegister (x86FpregXmm0 + r) = true from hdef]
    at hclear
  cases hclear

/-- Inline, with RAX live, the pushes keep the flags in AH from the snippet. -/
theorem preserved_iff_xorEaxPoint :
    let pt := xorEaxPoint ((RegisterSet.empty.addFlag 0).addRegister 0)
    Behaves (pt.emitted .inline).snippet true clearRax ∧
      ∀ body, Behaves (pt.emitted .inline).snippet true body →
        ∀ s, pt.Preserved true s ((pt.emitted .inline).run body s) := by
  intro pt
  refine ⟨behaves_clearRax, ?_⟩
  have hlive : isRegDead (some ((RegisterSet.empty.addFlag 0).addRegister 0)) 0 = false := by
    decide
  refine (preserved_iff pt .inline true true rfl fun _ => rfl).mpr
    ⟨fun _ _ => not_declares_xorEax, ?_, ?_, fun _ _ _ => ⟨rfl, hlive⟩, fun _ _ _ => ?_⟩
  · intro hloc
    cases hloc
  · intro hover
    cases hover
  · refine .inl ⟨0, by decide, ?_⟩
    show pt.protectedRegs 0 = true
    decide

/-- Where only the carry flag is live, the flags are saved in AH, and the snippet clears
it: the trampoline is entered with the carry flag set and leaves it clear. -/
theorem clearRax_carry :
    Behaves ((xorEaxPoint (RegisterSet.empty.addFlag 0)).emitted .trampoline).snippet false
        clearRax ∧
      ∃ s, ¬ (xorEaxPoint (RegisterSet.empty.addFlag 0)).Preserved false s
        (((xorEaxPoint (RegisterSet.empty.addFlag 0)).emitted .trampoline).run clearRax s) := by
  refine ⟨behaves_clearRax, ⟨fun _ => 0, fun _ => 0, 1, fun _ => 0⟩, fun h => ?_⟩
  have hcarry : (((xorEaxPoint (RegisterSet.empty.addFlag 0)).emitted .trampoline).run clearRax
      ⟨fun _ => 0, fun _ => 0, 1, fun _ => 0⟩).flags.getLsbD 0 = true :=
    h.live (.flag 0)
      (show isFlagDead (some (RegisterSet.empty.addFlag 0)) 0 = false by decide) rfl
  revert hcarry
  decide

end InstrumentationPoint

end Pebil

import Pebil.Instrumentation.ProtectionCode

/-!
# What state protection preserves

A snippet is known by its instructions, which declare the registers and flags they
define, and by whether it uses the stack below its stack pointer; its body may do
anything these allow (`Behaves`). `preserved_iff` says for which points every such
body leaves the live state of the point and the red zone alone.
-/

namespace Pebil

/-! ## Snippets -/

/-- The instruction declares that it defines the place. -/
def Defines (x : X86Instruction) : Place → Prop
  | .gpr r => x.getRegistersDefined.containsRegister r = true
  | .vec r => x.getRegistersDefined.containsRegister (x86FpregXmm0 + r) = true
  | .flag i => x.defsFlag i = true

/-- Some instruction declares it. -/
def Declares (insns : List X86Instruction) (k : Place) : Prop := ∃ x ∈ insns, Defines x k

/-- A body that the declarations of its instructions cover: it keeps what they do not
define, gives the stack pointer back and leaves alone the stack from there up as far
as protection code may have used it, and writes below the stack pointer only if it
uses the stack. -/
structure Behaves (insns : List X86Instruction) (usesStack : Bool)
    (body : Machine → Machine) : Prop where
  kept : ∀ s k, ¬ Declares insns k → (body s).get k = s.get k
  framed : ∀ s, Machine.Framed 0x108 s (body s)
  below : usesStack = false → ∀ (s : Machine), ∀ k < 128,
    (body s).mem (s.sp - 128 + BitVec.ofNat 64 k) = s.mem (s.sp - 128 + BitVec.ofNat 64 k)

/-- The flags of `__flag_mask__protect_full` that a program can change: CF, PF, AF, ZF,
SF, TF, DF, OF and NT. -/
def isStatusFlag (i : Nat) : Bool := i ∈ [0, 2, 4, 6, 7, 8, 10, 11, 14]

/-- The places that are to be preserved. -/
def Place.Counts : Place → Prop
  | .gpr _ => True
  | .vec _ => True
  | .flag i => isStatusFlag i = true

namespace InstrumentationPoint

variable (pt : InstrumentationPoint)

/-- The place is live at the point. -/
def Live : Place → Prop
  | .gpr r => isRegDead pt.liveSet r = false
  | .vec r => isRegDead pt.liveSet (x86FpregXmm0 + r) = false
  | .flag i => isFlagDead pt.liveSet i = false

/-- What a sequence is to leave behind when it is entered in state `s`. -/
structure Preserved (redZone : Bool) (s t : Machine) : Prop where
  sp : t.sp = s.sp
  live : ∀ k, pt.Live k → k.Counts → t.get k = s.get k
  redZone : redZone = true → ∀ k < 128,
    t.mem (s.sp - 128 + BitVec.ofNat 64 k) = s.mem (s.sp - 128 + BitVec.ofNat 64 k)

/-! ## The condition -/

/-- Flag `i` is live and counted as defined by the snippet. -/
def Squashes (i : Nat) : Prop :=
  isFlagDead pt.liveSet i = false ∧ flagsSquashed pt.insns i = true ∧
    (pt.instrumentation.canOverflow = true ∨ i ≠ x86FlagOf)

/-- Some such flag is out of reach of `lahf` and `sahf`. -/
def NeedsFull : Prop :=
  pt.instLocation ≠ .replace ∧
    ∃ i < x86FlagBits, pt.Squashes i ∧ protectLight i = false ∧ protectFull i = true

/-- Some such flag is within reach of `lahf` and `sahf`. -/
def NeedsLight : Prop :=
  pt.instLocation ≠ .replace ∧ ∃ i < x86FlagBits, pt.Squashes i ∧ protectLight i = true

/-- The points whose protection is sound. -/
structure Safe (mode : EmissionMode) (redZone usesStack : Bool) : Prop where
  /-- XMM and x87 registers are never saved. -/
  vec : ∀ r, pt.Live (.vec r) → ¬ Declares (pt.emitted mode).snippet (.vec r)
  /-- For a replacement no flag is saved. -/
  replace : pt.instLocation = .replace → ∀ i : Fin 32, isStatusFlag i = true →
    pt.Live (.flag i) → ¬ Declares (pt.emitted mode).snippet (.flag i)
  /-- An overflow flag that is ignored is saved only along with another flag. -/
  overflow : pt.instrumentation.canOverflow = false → pt.Live (.flag 11) →
    Declares (pt.emitted mode).snippet (.flag 11) → pt.NeedsFull
  /-- With the light method the flags are in AH. -/
  accumulator : pt.NeedsLight → ¬ pt.NeedsFull →
    Declares (pt.emitted mode).snippet (.gpr x86RegAx) →
      mode = .inline ∧ pt.Live (.gpr x86RegAx)
  /-- An inline point leaves the red zone only when it saves something. -/
  redZone : mode = .inline → redZone = true → usesStack = true →
    (∃ r : Fin 16, r ≠ x86RegSp ∧ pt.protectedRegs r = true) ∨ pt.NeedsFull ∨ pt.NeedsLight

/-! ## The chosen method -/

theorem weakestMethod_eq (protectBits : Nat → Bool) :
    ∀ (flags : List Nat) (prot : FlagsProtectionMethod),
      weakestMethod protectBits flags prot =
        if flags.any fun i => protectBits i && (!protectLight i && protectFull i) then .full
        else if flags.any fun i => protectBits i && protectLight i then .light
        else prot := by
  intro flags
  induction flags with
  | nil => intro prot; simp [weakestMethod]
  | cons i flags ih =>
    intro prot
    unfold weakestMethod
    cases hbit : protectBits i <;> cases hlight : protectLight i <;>
      cases hfull : protectFull i <;> simp [hbit, hlight, hfull, ih]

theorem protectBits_iff {i : Nat} : pt.protectBits i = true ↔ pt.Squashes i := by
  unfold Squashes protectBits
  cases isFlagDead pt.liveSet i <;> cases flagsSquashed pt.insns i <;>
    cases pt.instrumentation.canOverflow <;> simp

theorem any_full_iff (hloc : pt.instLocation ≠ .replace) :
    ((List.range x86FlagBits).any fun i =>
      pt.protectBits i && (!protectLight i && protectFull i)) = true ↔ pt.NeedsFull := by
  simp only [List.any_eq_true, List.mem_range, Bool.and_eq_true, Bool.not_eq_true',
    protectBits_iff, NeedsFull, hloc, ne_eq, not_false_eq_true, true_and]

theorem any_light_iff (hloc : pt.instLocation ≠ .replace) :
    ((List.range x86FlagBits).any fun i => pt.protectBits i && protectLight i) = true ↔
      pt.NeedsLight := by
  simp only [List.any_eq_true, List.mem_range, Bool.and_eq_true, protectBits_iff, NeedsLight,
    hloc, ne_eq, not_false_eq_true, true_and]

/-- The three outcomes of `getFlagsMethod`. -/
theorem getFlagsMethod_cases :
    pt.NeedsFull ∧ pt.getFlagsMethod = .full ∨
      ¬ pt.NeedsFull ∧ pt.NeedsLight ∧ pt.getFlagsMethod = .light ∨
      ¬ pt.NeedsFull ∧ ¬ pt.NeedsLight ∧ pt.getFlagsMethod = .none := by
  unfold getFlagsMethod
  by_cases hloc : pt.instLocation = .replace
  · exact .inr (.inr ⟨fun h => h.1 hloc, fun h => h.1 hloc, if_pos hloc⟩)
  rw [if_neg hloc]
  by_cases hdead : ((List.range x86FlagBits).all fun i => isFlagDead pt.liveSet i) = true
  · rw [if_pos hdead]
    rw [List.all_eq_true] at hdead
    refine .inr (.inr ⟨?_, ?_, rfl⟩)
    · rintro ⟨-, i, hi, hsquash, -⟩
      exact absurd (hdead i (List.mem_range.mpr hi)) (by simp [hsquash.1])
    · rintro ⟨-, i, hi, hsquash, -⟩
      exact absurd (hdead i (List.mem_range.mpr hi)) (by simp [hsquash.1])
  · rw [if_neg hdead, weakestMethod_eq]
    by_cases hfull : pt.NeedsFull
    · exact .inl ⟨hfull, if_pos ((pt.any_full_iff hloc).mpr hfull)⟩
    · rw [if_neg (mt (pt.any_full_iff hloc).mp hfull)]
      by_cases hlight : pt.NeedsLight
      · exact .inr (.inl ⟨hfull, hlight, if_pos ((pt.any_light_iff hloc).mpr hlight)⟩)
      · exact .inr (.inr ⟨hfull, hlight, if_neg (mt (pt.any_light_iff hloc).mp hlight)⟩)

/-! ## A safe point is preserved -/

section Safe

variable {pt : InstrumentationPoint} {mode : EmissionMode} {redZone usesStack : Bool}
  {body : Machine → Machine} {s : Machine}

theorem declares_insns (hsnippet : pt.instrumentation.isSnippet = true) {k : Place}
    (h : Declares (pt.emitted mode).snippet k) : Declares pt.insns k := by
  obtain ⟨x, hx, hdef⟩ := h
  refine ⟨x, ?_, hdef⟩
  have hx : x ∈ pt.executed mode := by rwa [emitted_eq] at hx
  unfold insns
  rw [if_pos hsnippet]
  cases mode with
  | trampoline => exact hx
  | inline => exact List.mem_append_left _ (List.mem_append_right _ hx)

theorem protectedRegs_iff {r : Nat} :
    pt.protectedRegs r = true ↔ isRegDead pt.liveSet r = false ∧
      ∃ x ∈ pt.insns, x.getRegistersDefined.containsRegister r = true := by
  simp [protectedRegs]

theorem mem_savedRegs {r : Fin 16} :
    r ∈ pt.savedRegs mode ↔
      (mode = .inline → r ≠ x86RegSp) ∧ pt.protectedRegs r = true := by
  cases mode with
  | trampoline => simp [savedRegs, gprs]
  | inline => simp [savedRegs, gprs]

/-- A live register that the snippet defines is restored. -/
theorem gpr_mem_restoredBy (hsnippet : pt.instrumentation.isSnippet = true) {r : Fin 16}
    (hlive : pt.Live (.gpr r)) (hdef : Declares (pt.emitted mode).snippet (.gpr r)) :
    Place.gpr r ∈ pt.restoredBy mode := by
  by_cases hsp : r = x86RegSp
  · subst hsp
    exact .inl (.inl rfl)
  · exact .inl (.inr ⟨r, mem_savedRegs.mpr ⟨fun _ => hsp,
      protectedRegs_iff.mpr ⟨hlive, declares_insns hsnippet hdef⟩⟩, rfl⟩)

theorem squashes_of_declares (hsnippet : pt.instrumentation.isSnippet = true) {i : Fin 32}
    (hlive : pt.Live (.flag i)) (hdef : Declares (pt.emitted mode).snippet (.flag i))
    (hover : pt.instrumentation.canOverflow = true ∨ i.val ≠ x86FlagOf) : pt.Squashes i :=
  ⟨hlive, List.any_eq_true.mpr (declares_insns hsnippet hdef), hover⟩

theorem popfMask_of_isStatusFlag {i : Fin 32} (h : isStatusFlag i = true) :
    popfMask.getLsbD i = true := by
  decide +revert

theorem protectFull_of_isStatusFlag {i : Fin 32} (h : isStatusFlag i = true) :
    protectFull i = true := by
  decide +revert

theorem lahfMask_eq_protectLight (i : Fin 32) : lahfMask.getLsbD i = protectLight i := by
  decide +revert

/-- The full method restores every status flag. -/
theorem flag_mem_of_needsFull (h : pt.NeedsFull) {i : Fin 32} (hi : isStatusFlag i = true) :
    Place.flag i ∈ pt.restoredBy mode := by
  refine .inr ?_
  rcases pt.getFlagsMethod_cases with ⟨-, hm⟩ | ⟨hno, -⟩ | ⟨hno, -⟩
  · rw [hm]
    exact .inr ⟨i, rfl, popfMask_of_isStatusFlag hi⟩
  · exact absurd h hno
  · exact absurd h hno

/-- A live status flag that the snippet defines is restored. -/
theorem flag_mem_restoredBy (hsnippet : pt.instrumentation.isSnippet = true)
    (hsafe : pt.Safe mode redZone usesStack) {i : Fin 32} (hi : isStatusFlag i = true)
    (hlive : pt.Live (.flag i)) (hdef : Declares (pt.emitted mode).snippet (.flag i)) :
    Place.flag i ∈ pt.restoredBy mode := by
  have hloc : pt.instLocation ≠ .replace := fun h => hsafe.replace h i hi hlive hdef
  by_cases hover : pt.instrumentation.canOverflow = true ∨ i.val ≠ x86FlagOf
  · have hsquash := squashes_of_declares hsnippet hlive hdef hover
    cases hlight : protectLight i with
    | false =>
      exact flag_mem_of_needsFull
        ⟨hloc, i, i.isLt, hsquash, hlight, protectFull_of_isStatusFlag hi⟩ hi
    | true =>
      have hneeds : pt.NeedsLight := ⟨hloc, i, i.isLt, hsquash, hlight⟩
      rcases pt.getFlagsMethod_cases with ⟨hfull, -⟩ | ⟨-, -, hm⟩ | ⟨-, hno, -⟩
      · exact flag_mem_of_needsFull hfull hi
      · refine .inr ?_
        rw [hm]
        exact .inr (.inr ⟨i, rfl, (lahfMask_eq_protectLight i).trans hlight⟩)
      · exact absurd hneeds hno
  · -- the overflow flag, ignored
    rw [not_or, not_not] at hover
    obtain ⟨hcan, hof⟩ := hover
    obtain rfl : i = 11 := Fin.ext hof
    exact flag_mem_of_needsFull (hsafe.overflow (Bool.eq_false_iff.mpr hcan) hlive hdef) hi

/-- The snippet keeps the register that holds the flags. -/
theorem needed_kept (hsnippet : pt.instrumentation.isSnippet = true)
    (hsafe : pt.Safe mode redZone usesStack)
    (hbody : Behaves (pt.emitted mode).snippet usesStack body) {k : Place}
    (hk : k ∈ pt.neededBy mode) (t : Machine) : (body t).get k = t.get k := by
  refine hbody.kept t k fun hdef => ?_
  have hneeded : k ∈ neededPlaces pt.getFlagsMethod := by
    cases mode with
    | trampoline => exact hk
    | inline => exact hk.1
  rcases pt.getFlagsMethod_cases with ⟨-, hm⟩ | ⟨hno, hlight, hm⟩ | ⟨-, -, hm⟩ <;>
    rw [hm] at hneeded
  · exact hneeded
  · obtain rfl : k = .gpr x86RegAx := hneeded
    obtain ⟨rfl, hlive⟩ := hsafe.accumulator hlight hno hdef
    refine hk.2 (.inr ⟨x86RegAx, mem_savedRegs.mpr ⟨fun _ => by decide, ?_⟩, rfl⟩)
    exact protectedRegs_iff.mpr ⟨hlive, declares_insns hsnippet hdef⟩
  · exact hneeded

theorem framed_mono {n m : Nat} {t u : Machine} (h : Machine.Framed n t u) (hle : m ≤ n) :
    Machine.Framed m t u :=
  ⟨h.sp, lt_of_le_of_lt hle h.size, fun k hk => h.mem k (lt_of_lt_of_le hk hle)⟩

/-- The save code touches nothing that is not restored. -/
theorem touched_subset_restoredBy :
    {.gpr x86RegSp} ∪ neededPlaces pt.getFlagsMethod ⊆ pt.restoredBy mode := by
  rintro k (rfl | hk)
  · exact .inl (.inl rfl)
  · refine .inr ?_
    cases hm : pt.getFlagsMethod <;> rw [hm] at hk
    · exact absurd hk (Set.notMem_empty k)
    · exact .inr (.inl hk)
    · exact absurd hk (Set.notMem_empty k)

/-- Every live place has its value from before the sequence. -/
theorem get_run (hsnippet : pt.instrumentation.isSnippet = true)
    (hsafe : pt.Safe mode redZone usesStack)
    (hbody : Behaves (pt.emitted mode).snippet usesStack body) {k : Place}
    (hk : k = .gpr x86RegSp ∨ pt.Live k ∧ k.Counts) :
    ((pt.emitted mode).run body s).get k = s.get k := by
  refine (pt.bracket_emitted mode).run (M := Machine.saving) (n := 0)
    (framed_mono (hbody.framed _) (by have := pt.depth_le mode; omega))
    (fun l hl => needed_kept hsnippet hsafe hbody hl _) ?_
  by_cases hr : k ∈ pt.restoredBy mode
  · exact .inl hr
  refine .inr ⟨fun htouched => hr (touched_subset_restoredBy htouched), hbody.kept _ k fun hdef => ?_⟩
  rcases hk with rfl | ⟨hlive, hcounts⟩
  · exact hr (.inl (.inl rfl))
  cases k with
  | gpr r => exact hr (gpr_mem_restoredBy hsnippet hlive hdef)
  | vec r => exact hsafe.vec r hlive hdef
  | flag i => exact hr (flag_mem_restoredBy hsnippet hsafe hcounts hlive hdef)

theorem countProt_pos {r : Fin 16} (hr : r ≠ x86RegSp) (h : pt.protectedRegs r = true) :
    0 < pt.countProt := by
  unfold countProt gprs
  refine List.countP_pos_iff.mpr ⟨r, List.mem_finRange r, ?_⟩
  simp [hr, h]

/-- An inline point that saves something in a leaf function moves the stack pointer. -/
theorem movesStack_inline (hleaf : pt.hasLeafOptimization = true)
    (h : (∃ r : Fin 16, r ≠ x86RegSp ∧ pt.protectedRegs r = true) ∨ pt.NeedsFull ∨
      pt.NeedsLight) : pt.movesStack .inline = true := by
  have hpos : 0 < pt.countProt + if pt.getFlagsMethod = .none then 0 else 1 := by
    rcases h with ⟨r, hr, hprot⟩ | hneeds
    · have := countProt_pos hr hprot
      omega
    · rcases pt.getFlagsMethod_cases with ⟨-, hm⟩ | ⟨-, -, hm⟩ | ⟨hno, hno', -⟩
      · simp [hm]
      · simp [hm]
      · exact absurd hneeds (not_or.mpr ⟨hno, hno'⟩)
  simp [movesStack, hleaf, hpos]

/-- An inline point in a leaf function that does not move the stack pointer emits
nothing but the snippet. -/
theorem run_inline_nothing (hleaf : pt.hasLeafOptimization = true)
    (h : pt.movesStack .inline = false) : (pt.emitted .inline).run body s = body s := by
  have hnone : pt.savedRegs .inline = [] ∧ pt.getFlagsMethod = .none := by
    constructor
    · rw [List.eq_nil_iff_forall_not_mem]
      intro r hr
      obtain ⟨hsp, hprot⟩ := mem_savedRegs.mp hr
      rw [movesStack_inline hleaf (.inl ⟨r, hsp rfl, hprot⟩)] at h
      cases h
    · rcases pt.getFlagsMethod_cases with ⟨hfull, -⟩ | ⟨-, hlight, -⟩ | ⟨-, -, hm⟩
      · rw [movesStack_inline hleaf (.inr (.inl hfull))] at h
        cases h
      · rw [movesStack_inline hleaf (.inr (.inr hlight))] at h
        cases h
      · exact hm
  unfold Emitted.run
  rw [emitted_eq, h]
  simp only [coreBefore, coreAfter, hnone.1, hnone.2]
  rfl

theorem protectStack_of_leaf (hsnippet : pt.instrumentation.isSnippet = true)
    (hleaf : pt.hasLeafOptimization = true) : pt.protectStack = true := by
  simp [protectStack, stackIsSafe, hsnippet, hleaf]

/-- Behind a moved stack pointer the red zone is out of reach. -/
theorem redZone_of_movesStack (hmoves : pt.movesStack mode = true)
    (hbody : Behaves (pt.emitted mode).snippet usesStack body) :
    ∀ k < 128, ((pt.emitted mode).run body s).mem (s.sp - 128 + BitVec.ofNat 64 k) =
      s.mem (s.sp - 128 + BitVec.ofNat 64 k) := by
  intro k hk
  have hdepth := pt.depth_le mode
  unfold depth at hdepth
  rw [hmoves, if_pos rfl] at hdepth
  generalize hlow : (SaveInsn.loadRegImmReg (-trampolineAutoinc)).exec s = low
  have hsp : low.sp = s.sp - 128 := by
    rw [← hlow]
    show Function.update s.gpr x86RegSp (s.sp + -trampolineAutoinc) x86RegSp = _
    rw [Function.update_self, ← BitVec.sub_eq_add_neg]
    rfl
  have hmem : low.mem = s.mem := by rw [← hlow]; rfl
  have hframed : Machine.Framed 128 low
      (execAll (pt.coreAfter mode) (body (execAll (pt.coreBefore mode) low))) :=
    (pt.bracket_core mode).framed 128 low _ (framed_mono (hbody.framed _) hdepth)
  have hbyte := hframed.mem k hk
  rw [hsp, hmem] at hbyte
  rw [← hbyte]
  unfold Emitted.run
  rw [emitted_eq, hmoves, if_pos rfl, if_pos rfl, execAll_append, execAll_append, ← hlow]
  rfl

/-- A body of a safe point does no harm. -/
theorem preserved_of_safe (hsnippet : pt.instrumentation.isSnippet = true)
    (hleaf : redZone = true → pt.hasLeafOptimization = true)
    (hsafe : pt.Safe mode redZone usesStack)
    (hbody : Behaves (pt.emitted mode).snippet usesStack body) :
    pt.Preserved redZone s ((pt.emitted mode).run body s) where
  sp := get_run hsnippet hsafe hbody (.inl rfl)
  live k hlive hcounts := get_run hsnippet hsafe hbody (.inr ⟨hlive, hcounts⟩)
  redZone := by
    intro hred
    have hleaf := hleaf hred
    cases hmoves : pt.movesStack mode with
    | true => exact redZone_of_movesStack hmoves hbody
    | false =>
      cases mode with
      | trampoline =>
        have hprot := protectStack_of_leaf hsnippet hleaf
        rw [show pt.movesStack .trampoline = pt.protectStack from rfl, hprot] at hmoves
        cases hmoves
      | inline =>
        cases huses : usesStack with
        | true =>
          rw [movesStack_inline hleaf (hsafe.redZone rfl hred huses)] at hmoves
          cases hmoves
        | false =>
          rw [run_inline_nothing hleaf hmoves]
          exact hbody.below huses s

end Safe

end InstrumentationPoint

end Pebil

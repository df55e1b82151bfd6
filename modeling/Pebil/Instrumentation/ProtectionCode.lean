import Pebil.Instrumentation.Protection

/-!
# The protection code as brackets

The pushes, the flag code and the move of the stack pointer are brackets, whatever
registers and method were chosen. A trampoline nests them with the flags innermost, an
inline point with the registers innermost (`bracket_generateTrampoline`,
`bracket_insertStateProtection`); so in a trampoline the snippet itself has to keep the
register that holds the flags, and at an inline point the pushes can keep it.
-/

namespace Pebil

open SaveInsn InstrumentationPoint

theorem execAll_append (l₁ l₂ : List SaveInsn) :
    execAll (l₁ ++ l₂) = execAll l₂ ∘ execAll l₁ := by
  funext s
  exact List.foldl_append

theorem execAll_cons (i : SaveInsn) (l : List SaveInsn) :
    execAll (i :: l) = execAll l ∘ fun s => i.exec s := rfl

theorem execAll_singleton (i : SaveInsn) : execAll [i] = fun s => i.exec s := rfl

theorem execAll_nil : execAll [] = id := rfl

/-- Without code the frame gives the stack pointer back. -/
theorem bracket_nil :
    Bracket Machine.saving id id 0 ∅ ∅ {Place.gpr x86RegSp} :=
  Bracket.nothing fun _ _ _ hf k hk => by
    obtain rfl : k = .gpr x86RegSp := hk
    exact hf.sp

/-! ## Registers -/

/-- The places that pushing and popping the registers `rs` restores. -/
def poppedPlaces (rs : List (Fin 16)) : Set Place :=
  {k | k = .gpr x86RegSp ∨ ∃ r ∈ rs, k = .gpr r}

/-- Pushing registers and popping them in the opposite order. -/
theorem bracket_pushAll (rs : List (Fin 16)) :
    Bracket Machine.saving (execAll (rs.map stackPush)) (execAll (rs.reverse.map stackPop))
      (8 * rs.length) {.gpr x86RegSp} ∅ (poppedPlaces rs) := by
  induction rs with
  | nil =>
    refine bracket_nil.congr (Set.empty_subset _) (Set.empty_subset _) ?_
    ext k
    simp [poppedPlaces]
  | cons r rs ih =>
    rw [List.map_cons, execAll_cons, List.reverse_cons, List.map_append, execAll_append,
      List.length_cons, Nat.mul_add, Nat.add_comm]
    refine ((bracket_stackPush r).nest ih ?_ ?_).congr ?_ ?_ ?_
    · rintro k (rfl | ⟨q, -, rfl⟩) hk
      · exact absurd (.inl rfl) hk
      · intro htouched
        rw [Set.mem_singleton_iff] at htouched
        exact hk (.inl htouched)
    · intro k hk
      exact absurd hk (Set.notMem_empty k)
    · simp
    · simp
    · ext k
      simp only [poppedPlaces, Set.mem_union, Set.mem_insert_iff, Set.mem_singleton_iff,
        List.mem_cons, exists_eq_or_imp, Set.mem_ofPred_eq]
      tauto

/-! ## Flags -/

/-- What the restore code of a method restores, the register it uses included. -/
def restoredPlaces : FlagsProtectionMethod → Set Place
  | .full => {k | k = .gpr x86RegSp ∨ ∃ i : Fin 32, k = .flag i ∧ popfMask.getLsbD i = true}
  | .light => {k | k = .gpr x86RegSp ∨ k = .gpr x86RegAx ∨
      ∃ i : Fin 32, k = .flag i ∧ lahfMask.getLsbD i = true}
  | .none => {.gpr x86RegSp}

/-- The register that has to be kept between the save and the restore code. -/
def neededPlaces : FlagsProtectionMethod → Set Place
  | .light => {.gpr x86RegAx}
  | _ => ∅

/-- The stack that the save code of a method takes. -/
def savedBytes : FlagsProtectionMethod → Nat
  | .none => 0
  | _ => 8

theorem bracket_saveFlags (m : FlagsProtectionMethod) :
    Bracket Machine.saving (execAll (saveFlags m)) (execAll (restoreFlags m)) (savedBytes m)
      ({.gpr x86RegSp} ∪ neededPlaces m) (neededPlaces m) (restoredPlaces m) := by
  cases m with
  | none => exact bracket_nil.congr (Set.empty_subset _) (Set.empty_subset _) rfl
  | full => exact bracket_pushEflags.congr Set.subset_union_left (Set.empty_subset _) rfl
  | light =>
    refine ((bracket_stackPush x86RegAx).nest bracket_loadAhFromFlags ?_ ?_).congr ?_ ?_ ?_
    · rintro k ⟨i, rfl, -⟩ -
      simp
    · intro k hk
      exact absurd hk (Set.notMem_empty k)
    · exact Set.Subset.rfl
    · rintro k (hk | hk)
      · exact hk
      · exact absurd hk.1 (Set.notMem_empty k)
    · ext k
      simp only [restoredPlaces, Set.mem_union, Set.mem_insert_iff, Set.mem_singleton_iff,
        Set.mem_ofPred_eq, or_assoc]

/-! ## The stack pointer -/

/-- The optional move past the red zone. -/
theorem bracket_protectStack (b : Bool) :
    Bracket Machine.saving
      (execAll (if b then [loadRegImmReg (-trampolineAutoinc)] else []))
      (execAll (if b then [loadRegImmReg trampolineAutoinc] else []))
      (if b then 128 else 0) {.gpr x86RegSp} ∅ {.gpr x86RegSp} := by
  cases b with
  | true => exact bracket_loadRegImmReg trampolineAutoinc
  | false => exact bracket_nil.congr (Set.empty_subset _) (Set.empty_subset _) rfl

/-! ## The two sequences -/

/-- Where the sequence is put: into a trampoline, or inline at the point. -/
inductive EmissionMode where
  | trampoline
  | inline
  deriving DecidableEq, Repr

namespace InstrumentationPoint

variable (pt : InstrumentationPoint)

/-- The sequence of a mode. -/
def emitted : EmissionMode → Emitted
  | .trampoline => pt.generateTrampoline
  | .inline => pt.insertStateProtection

/-- The saved registers in the order of their pushes; the inline loop puts later
registers further out. -/
def savedRegs : EmissionMode → List (Fin 16)
  | .trampoline => gprs.filter fun r => pt.protectedRegs r.val
  | .inline => (gprs.filter fun r => r != x86RegSp && pt.protectedRegs r.val).reverse

/-- Whether the stack pointer is moved past the red zone first. -/
def movesStack : EmissionMode → Bool
  | .trampoline => pt.protectStack
  | .inline => (pt.hasLeafOptimization || pt.isEntry) &&
      0 < pt.countProt + if pt.getFlagsMethod = .none then 0 else 1

/-- The sequence inside the move of the stack pointer. -/
def coreBefore : EmissionMode → List SaveInsn
  | .trampoline => (pt.savedRegs .trampoline).map stackPush ++ saveFlags pt.getFlagsMethod
  | .inline => saveFlags pt.getFlagsMethod ++ (pt.savedRegs .inline).map stackPush

def coreAfter : EmissionMode → List SaveInsn
  | .trampoline => restoreFlags pt.getFlagsMethod ++
      (pt.savedRegs .trampoline).reverse.map stackPop
  | .inline => (pt.savedRegs .inline).reverse.map stackPop ++ restoreFlags pt.getFlagsMethod

/-- The snippet's instructions; an inline point has no others. -/
def executed : EmissionMode → List X86Instruction
  | .trampoline => pt.precursorInstructions ++ pt.instrumentation.coreInstructions ++
      pt.postcursorInstructions
  | .inline => pt.instrumentation.coreInstructions

/-- The snippet has to keep this register for the flags to be restored. -/
def neededBy : EmissionMode → Set Place
  | .trampoline => neededPlaces pt.getFlagsMethod
  | .inline => neededPlaces pt.getFlagsMethod \ poppedPlaces (pt.savedRegs .inline)

/-- The loop of `insertStateProtection` over the registers `rs`. -/
theorem foldl_wrap (test : Fin 16 → Bool) :
    ∀ (rs : List (Fin 16)) (e : Emitted),
      rs.foldl (fun e i =>
        if test i then
          { e with before := stackPush i :: e.before, after := e.after ++ [stackPop i] }
        else e) e =
      ⟨((rs.filter test).reverse).map stackPush ++ e.before, e.snippet,
        e.after ++ (rs.filter test).map stackPop⟩ := by
  intro rs
  induction rs with
  | nil => intro e; simp
  | cons r rs ih =>
    intro e
    rw [List.foldl_cons, ih]
    by_cases hr : test r = true
    · simp [hr]
    · simp [hr]

theorem emitted_eq (mode : EmissionMode) :
    pt.emitted mode =
      ⟨(if pt.movesStack mode then [loadRegImmReg (-trampolineAutoinc)] else []) ++
          pt.coreBefore mode,
        pt.executed mode,
        pt.coreAfter mode ++
          (if pt.movesStack mode then [loadRegImmReg trampolineAutoinc] else [])⟩ := by
  cases mode with
  | trampoline =>
    simp only [emitted, generateTrampoline, coreBefore, coreAfter, savedRegs, executed,
      List.filter_reverse, List.append_assoc]
    rfl
  | inline =>
    have hwrap := foldl_wrap (fun i => i != x86RegSp && pt.protectedRegs i.val) gprs
      ⟨[], pt.instrumentation.coreInstructions, []⟩
    have hmoves : pt.movesStack .inline = ((pt.hasLeafOptimization || pt.isEntry) &&
      decide (0 < pt.countProt + if pt.getFlagsMethod = .none then 0 else 1)) := rfl
    simp only [emitted, insertStateProtection, wrapRegs]
    rw [hwrap, ← hmoves]
    simp only [coreBefore, coreAfter, savedRegs, executed, List.append_nil, List.nil_append,
      List.reverse_reverse]
    cases pt.movesStack .inline <;> simp

/-- The code inside the move of the stack pointer, as a bracket. -/
theorem bracket_core (mode : EmissionMode) :
    Bracket Machine.saving (execAll (pt.coreBefore mode)) (execAll (pt.coreAfter mode))
      (8 * (pt.savedRegs mode).length + savedBytes pt.getFlagsMethod)
      ({.gpr x86RegSp} ∪ neededPlaces pt.getFlagsMethod) (pt.neededBy mode)
      (poppedPlaces (pt.savedRegs mode) ∪ restoredPlaces pt.getFlagsMethod) := by
  cases mode with
  | trampoline =>
    rw [coreBefore, coreAfter, execAll_append, execAll_append]
    refine ((bracket_pushAll _).nest (bracket_saveFlags _) ?_ ?_).congr ?_ ?_ rfl
    · rintro k - hk htouched
      exact hk (.inl htouched)
    · intro k hk
      exact absurd hk (Set.notMem_empty k)
    · exact Set.union_subset Set.subset_union_left Set.Subset.rfl
    · rintro k (hk | hk)
      · exact hk
      · exact absurd hk.1 (Set.notMem_empty k)
  | inline =>
    rw [coreBefore, coreAfter, execAll_append, execAll_append, Nat.add_comm]
    refine ((bracket_saveFlags _).nest (bracket_pushAll _) ?_ ?_).congr ?_ ?_ (Set.union_comm _ _)
    · -- what the flag code touches it restores itself
      rintro k - hk htouched
      refine hk ?_
      cases hm : pt.getFlagsMethod <;> rw [hm] at htouched <;>
        rcases htouched with rfl | hneed
      · exact rfl
      · exact absurd hneed (Set.notMem_empty k)
      · exact .inl rfl
      · exact .inr (.inl hneed)
      · exact .inl rfl
      · exact absurd hneed (Set.notMem_empty k)
    · rintro k hk - htouched
      obtain rfl : k = .gpr x86RegSp := htouched
      cases hm : pt.getFlagsMethod <;> rw [hm] at hk
      · exact absurd hk (Set.notMem_empty _)
      · exact absurd (Place.gpr.inj hk) (by decide)
      · exact absurd hk (Set.notMem_empty _)
    · exact Set.union_subset Set.Subset.rfl Set.subset_union_left
    · rintro k (hk | hk)
      · exact absurd hk (Set.notMem_empty k)
      · exact hk

theorem length_savedRegs_le (mode : EmissionMode) : (pt.savedRegs mode).length ≤ 16 := by
  cases mode with
  | trampoline => exact List.length_filter_le _ _
  | inline =>
    rw [savedRegs, List.length_reverse]
    exact List.length_filter_le _ _

theorem savedBytes_le (m : FlagsProtectionMethod) : savedBytes m ≤ 8 := by
  cases m <;> decide

/-- The stack a sequence takes. -/
def depth (mode : EmissionMode) : Nat :=
  (if pt.movesStack mode then 128 else 0) +
    (8 * (pt.savedRegs mode).length + savedBytes pt.getFlagsMethod)

theorem depth_le (mode : EmissionMode) : pt.depth mode ≤ 0x108 := by
  have hlength := pt.length_savedRegs_le mode
  have hbytes := savedBytes_le pt.getFlagsMethod
  unfold depth
  split <;> omega

/-- What a sequence restores. -/
def restoredBy (mode : EmissionMode) : Set Place :=
  poppedPlaces (pt.savedRegs mode) ∪ restoredPlaces pt.getFlagsMethod

/-- The whole sequence, as a bracket. -/
theorem bracket_emitted (mode : EmissionMode) :
    Bracket Machine.saving (execAll (pt.emitted mode).before) (execAll (pt.emitted mode).after)
      (pt.depth mode) ({.gpr x86RegSp} ∪ neededPlaces pt.getFlagsMethod) (pt.neededBy mode)
      (pt.restoredBy mode) := by
  rw [emitted_eq, execAll_append, execAll_append]
  refine ((bracket_protectStack _).nest (pt.bracket_core mode) ?_ ?_).congr ?_ ?_ ?_
  · exact fun k _ hk => hk
  · exact fun k hk => absurd hk (Set.notMem_empty k)
  · exact Set.union_subset Set.subset_union_left Set.Subset.rfl
  · rintro k (hk | hk)
    · exact hk
    · exact absurd hk.1 (Set.notMem_empty k)
  · refine Set.union_eq_self_of_subset_left ?_
    rintro k hk
    exact .inl (.inl hk)

end InstrumentationPoint

end Pebil

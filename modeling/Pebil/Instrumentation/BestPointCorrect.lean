import Pebil.Instrumentation.BestPoint
import Mathlib.Tactic.Abel

/-!
# The chosen point

The two passes end with a place that has the most dead registers among those where all flags
are dead, or among all (`passes_spec`). In terms of the places that an execution of
the block comes to, this is the best of them: the place before a control instruction, which the
passes leave out, is the one behind the instruction in front of it (`Chosen`).
-/

namespace Pebil

open InstrumentationPoint (isRegDead isFlagDead)

/-! ## Live sets -/

theorem allFlagsDead_eq (live : Option RegisterSet) :
    allFlagsDead live = (List.range x86FlagBits).all fun i => isFlagDead live i := by
  cases live with
  | none => rfl
  | some s => rfl

theorem SameLive.allFlagsDead_eq {s t : Option RegisterSet} (h : SameLive s t) :
    allFlagsDead s = allFlagsDead t := by
  rw [Pebil.allFlagsDead_eq, Pebil.allFlagsDead_eq]
  simp only [h.flag]

theorem isFlagDead_of_allFlagsDead {live : Option RegisterSet} (h : allFlagsDead live = true)
    {i : Nat} (hi : i < x86FlagBits) : isFlagDead live i = true := by
  rw [allFlagsDead_eq, List.all_eq_true] at h
  exact h i (List.mem_range.mpr hi)

namespace LiveBlock

variable {b : LiveBlock} {size k i n : Nat} {validRegs : BitSet size} {attendFlags : Bool}
  {p q : BlockPlace}

theorem countDead_congr {s t : Option RegisterSet} (h : SameLive s t) :
    countDead validRegs s = countDead validRegs t := by
  unfold countDead
  simp only [h.reg]

theorem contains_insertDead {useRegs : BitSet k} {live : Option RegisterSet} (j : Nat) :
    (insertDead validRegs useRegs live).contains j = true ↔ useRegs.contains j = true ∨
      (j < x86AluRegs ∧ j < k) ∧ validRegs.contains j = true ∧ isRegDead live j = true := by
  have hfold : ∀ (js : List Nat) (u : BitSet k), (js.foldl (fun u j =>
      if isRegDead live j && validRegs.contains j then u.insert j else u) u).contains j = true ↔
      u.contains j = true ∨ (j ∈ js ∧ j < k) ∧ validRegs.contains j = true ∧
        isRegDead live j = true := by
    intro js
    induction js with
    | nil => simp
    | cons i js ih =>
      intro u
      rw [List.foldl_cons, ih, List.mem_cons]
      cases hdead : isRegDead live i && validRegs.contains i with
      | false =>
        have hne : j = i → ¬(validRegs.contains j = true ∧ isRegDead live j = true) := by
          rintro rfl ⟨hvalid, hreg⟩
          simp [hvalid, hreg] at hdead
        simp only [Bool.false_eq_true, if_false]
        tauto
      | true =>
        rw [Bool.and_eq_true] at hdead
        rw [if_pos rfl, BitSet.contains_insert, Bool.or_eq_true, Bool.and_eq_true,
          decide_eq_true_iff, decide_eq_true_iff]
        constructor
        · rintro ((hu | ⟨rfl, hk⟩) | ⟨⟨hj, hk⟩, hrest⟩)
          · exact .inl hu
          · exact .inr ⟨⟨.inl rfl, hk⟩, hdead.2, hdead.1⟩
          · exact .inr ⟨⟨.inr hj, hk⟩, hrest⟩
        · rintro (hu | ⟨⟨rfl | hj, hk⟩, hrest⟩)
          · exact .inl (.inl hu)
          · exact .inl (.inr ⟨rfl, hk⟩)
          · exact .inr ⟨⟨hj, hk⟩, hrest⟩
  rw [insertDead, hfold, List.mem_range]

/-! ## The passes -/

theorem length_pos : 0 < b.instructions.length := List.length_pos_iff.mpr b.nonempty

theorem ninsn_le : b.ninsn ≤ b.instructions.length := by
  unfold ninsn
  split <;> omega

/-- The assertion of the loops holds of the places that they come to. -/
theorem instructionAt_eq (hi : i < b.ninsn * 2) :
    ∃ ins, b.instructionAt i = some ins ∧ b.liveAt (placeAt i) = ins.liveSet (side i) := by
  have hlt : i / 2 < b.ninsn := by omega
  obtain ⟨ins, hins⟩ : ∃ ins, b.instructions[i / 2]? = some ins :=
    ⟨_, List.getElem?_eq_getElem (Nat.lt_of_lt_of_le hlt b.ninsn_le)⟩
  refine ⟨ins, ?_, ?_⟩
  · rw [instructionAt, if_pos hlt, hins]
  · rw [liveAt, placeAt, hins, Option.bind_some]

/-- All flags are dead at the place. -/
def FlagsDead (b : LiveBlock) (p : BlockPlace) : Prop := allFlagsDead (b.liveAt p) = true

instance (b : LiveBlock) (p : BlockPlace) : Decidable (b.FlagsDead p) :=
  inferInstanceAs (Decidable (_ = _))

/-- The number of valid registers that are dead at the place. -/
def deadAt (b : LiveBlock) (validRegs : BitSet size) (p : BlockPlace) : Nat :=
  countDead validRegs (b.liveAt p)

/-- What the pass over the flags knows after the places below `k`. -/
structure FlagsPass.Seen (b : LiveBlock) (k : Nat) (st : FlagsPass (b.ninsn * 2)) : Prop where
  contains : ∀ i, st.flagsDead.contains i = true ↔ i < k ∧ b.FlagsDead (placeAt i)
  hasFlags : st.hasFlags = true ↔ ∃ i < k, b.FlagsDead (placeAt i)
  best : st.hasFlags = false ∧ (st.best, st.bestloc) = placeAt 0 ∨
    ∃ c < k, b.FlagsDead (placeAt c) ∧ (st.best, st.bestloc) = placeAt c

theorem FlagsPass.Seen.init : FlagsPass.Seen b 0 b.initFlags where
  contains i := by simp [initFlags, BitSet.contains_new]
  hasFlags := by simp [initFlags]
  best := .inl ⟨rfl, rfl⟩

theorem FlagsPass.Seen.visit {st : FlagsPass (b.ninsn * 2)} (h : st.Seen b k)
    (hk : k < b.ninsn * 2) : ∃ st', b.visitFlags st k = some st' ∧ st'.Seen b (k + 1) := by
  obtain ⟨ins, hins, hlive⟩ := b.instructionAt_eq hk
  rw [visitFlags, hins, Option.map_some]
  by_cases hdead : b.FlagsDead (placeAt k)
  · have hcond : allFlagsDead (ins.liveSet (side k)) = true := hlive ▸ hdead
    rw [if_pos hcond]
    refine ⟨_, rfl, fun i => ?_, ?_, .inr ⟨k, Nat.lt_succ_self k, hdead, rfl⟩⟩
    · rw [BitSet.contains_insert, Bool.or_eq_true, h.contains, Bool.and_eq_true,
        decide_eq_true_iff, decide_eq_true_iff]
      constructor
      · rintro (⟨hi, hd⟩ | ⟨rfl, -⟩)
        · exact ⟨by omega, hd⟩
        · exact ⟨Nat.lt_succ_self _, hdead⟩
      · rintro ⟨hi, hd⟩
        rcases Nat.lt_succ_iff_lt_or_eq.mp hi with hi | rfl
        · exact .inl ⟨hi, hd⟩
        · exact .inr ⟨rfl, hk⟩
    · exact iff_of_true rfl ⟨k, Nat.lt_succ_self k, hdead⟩
  · have hcond : ¬ allFlagsDead (ins.liveSet (side k)) = true := hlive ▸ hdead
    have hother : ∀ i, i < k + 1 ∧ b.FlagsDead (placeAt i) ↔ i < k ∧ b.FlagsDead (placeAt i) := by
      refine fun i => ⟨fun ⟨hi, hd⟩ => ⟨?_, hd⟩, fun ⟨hi, hd⟩ => ⟨by omega, hd⟩⟩
      exact (Nat.lt_succ_iff_lt_or_eq.mp hi).resolve_right (by rintro rfl; exact hdead hd)
    rw [if_neg hcond]
    refine ⟨st, rfl, fun i => (h.contains i).trans (hother i).symm,
      h.hasFlags.trans (exists_congr fun i => (hother i).symm), ?_⟩
    exact h.best.imp_right fun ⟨c, hc, hrest⟩ => ⟨c, by omega, hrest⟩

/-- The pass over the flags, as far as the places below `k`. -/
theorem foldlM_visitFlags (hk : k ≤ b.ninsn * 2) :
    ∃ st, (List.range k).foldlM b.visitFlags b.initFlags = some st ∧ st.Seen b k := by
  induction k with
  | zero => exact ⟨_, rfl, .init⟩
  | succ k ih =>
    obtain ⟨st, hst, hseen⟩ := ih (by omega)
    obtain ⟨st', hst', hseen'⟩ := hseen.visit (by omega)
    refine ⟨st', ?_, hseen'⟩
    rw [List.range_succ, List.foldlM_append, hst]
    simp [hst']

/-- The numbers of the places that count: those where all flags are dead, if they are attended
to and there are such places. -/
def Admissible (b : LiveBlock) (attendFlags : Bool) (i : Nat) : Prop :=
  attendFlags = true → (∃ c < b.ninsn * 2, b.FlagsDead (placeAt c)) → b.FlagsDead (placeAt i)

theorem flagsPass_eq (b : LiveBlock) (attendFlags : Bool) :
    ∃ st, b.flagsPass attendFlags = some st ∧
    (∀ i < b.ninsn * 2, (attendFlags && st.hasFlags && !st.flagsDead.contains i) = false ↔
      b.Admissible attendFlags i) ∧
    ((st.best, st.bestloc) = placeAt 0 ∧ b.Admissible attendFlags 0 ∨
      ∃ c < b.ninsn * 2, b.Admissible attendFlags c ∧ (st.best, st.bestloc) = placeAt c) := by
  cases attendFlags with
  | false =>
    refine ⟨b.initFlags, rfl, fun i _ => iff_of_true rfl nofun, .inl ⟨rfl, nofun⟩⟩
  | true =>
    obtain ⟨st, hst, hseen⟩ := b.foldlM_visitFlags (Nat.le_refl _)
    refine ⟨st, hst, fun i hi => ?_, ?_⟩
    · rw [Bool.true_and, Admissible, ← hseen.hasFlags]
      have hcontains := hseen.contains i
      simp only [hi, true_and] at hcontains
      rw [← hcontains]
      cases st.hasFlags <;> cases st.flagsDead.contains i <;> simp
    · rcases hseen.best with ⟨hnone, hplace⟩ | ⟨c, hc, hdead, hplace⟩
      · refine .inl ⟨hplace, fun _ hex => ?_⟩
        rw [hseen.hasFlags.mpr hex] at hnone
        cases hnone
      · exact .inr ⟨c, hc, fun _ _ => hdead, hplace⟩

/-- What the pass over the registers knows after the places below `k`; `start` is where it
began. -/
structure RegsPass.Seen (b : LiveBlock) (validRegs : BitSet size) (attendFlags : Bool)
    (start : BlockPlace) (k : Nat) (st : RegsPass) : Prop where
  most : ∀ i < k, b.Admissible attendFlags i → b.deadAt validRegs (placeAt i) ≤ st.maxDead
  best : st.maxDead = 0 ∧ (st.best, st.bestloc) = start ∨
    ∃ c < k, b.Admissible attendFlags c ∧ b.deadAt validRegs (placeAt c) = st.maxDead ∧
      (st.best, st.bestloc) = placeAt c

theorem RegsPass.Seen.visit {flags : FlagsPass (b.ninsn * 2)} {start : BlockPlace} {st : RegsPass}
    (hflags : ∀ i < b.ninsn * 2,
      (attendFlags && flags.hasFlags && !flags.flagsDead.contains i) = false ↔
        b.Admissible attendFlags i)
    (h : st.Seen b validRegs attendFlags start k) (hk : k < b.ninsn * 2) :
    ∃ st', b.visitRegs validRegs attendFlags flags st k = some st' ∧
      st'.Seen b validRegs attendFlags start (k + 1) := by
  obtain ⟨ins, hins, hlive⟩ := b.instructionAt_eq hk
  have hcount : countDead validRegs (ins.liveSet (side k)) = b.deadAt validRegs (placeAt k) := by
    rw [deadAt, hlive]
  have hbest : st.maxDead = 0 ∧ (st.best, st.bestloc) = start ∨
      ∃ c < k + 1, b.Admissible attendFlags c ∧ b.deadAt validRegs (placeAt c) = st.maxDead ∧
        (st.best, st.bestloc) = placeAt c :=
    h.best.imp_right fun ⟨c, hc, hrest⟩ => ⟨c, by omega, hrest⟩
  rw [visitRegs, hins, Option.map_some, hcount]
  by_cases hadm : b.Admissible attendFlags k
  · rw [if_neg (Bool.eq_false_iff.mp ((hflags k hk).mpr hadm))]
    by_cases hmore : st.maxDead < b.deadAt validRegs (placeAt k)
    · rw [if_pos hmore]
      refine ⟨_, rfl, fun i hi hi' => ?_, .inr ⟨k, Nat.lt_succ_self k, hadm, rfl, rfl⟩⟩
      rcases Nat.lt_succ_iff_lt_or_eq.mp hi with hi | rfl
      · exact (h.most i hi hi').trans hmore.le
      · exact Nat.le_refl _
    · rw [if_neg hmore]
      refine ⟨st, rfl, fun i hi hi' => ?_, hbest⟩
      rcases Nat.lt_succ_iff_lt_or_eq.mp hi with hi | rfl
      · exact h.most i hi hi'
      · exact Nat.not_lt.mp hmore
  · -- the place is skipped
    rw [if_pos (Bool.not_eq_false _ ▸ mt (hflags k hk).mp hadm)]
    refine ⟨st, rfl, fun i hi hi' => ?_, hbest⟩
    rcases Nat.lt_succ_iff_lt_or_eq.mp hi with hi | rfl
    · exact h.most i hi hi'
    · exact absurd hi' hadm

/-- The pass over the registers, as far as the places below `k`. -/
theorem foldlM_visitRegs (validRegs : BitSet size) {flags : FlagsPass (b.ninsn * 2)}
    (hflags : ∀ i < b.ninsn * 2,
      (attendFlags && flags.hasFlags && !flags.flagsDead.contains i) = false ↔
        b.Admissible attendFlags i) (hk : k ≤ b.ninsn * 2) :
    ∃ st, (List.range k).foldlM (b.visitRegs validRegs attendFlags flags)
      ⟨0, flags.best, flags.bestloc⟩ = some st ∧
        st.Seen b validRegs attendFlags (flags.best, flags.bestloc) k := by
  induction k with
  | zero => exact ⟨_, rfl, fun i hi => absurd hi (Nat.not_lt_zero i), .inl ⟨rfl, rfl⟩⟩
  | succ k ih =>
    obtain ⟨st, hst, hseen⟩ := ih (by omega)
    obtain ⟨st', hst', hseen'⟩ := hseen.visit hflags (by omega)
    refine ⟨st', ?_, hseen'⟩
    rw [List.range_succ, List.foldlM_append, hst]
    simp [hst']

/-- The numbers that the passes may end with: in a block that is one control instruction they
come to no place, and stay with the first one. -/
def Counts (b : LiveBlock) (i : Nat) : Prop := i < b.ninsn * 2 ∨ b.ninsn = 0 ∧ i = 0

/-- The place is one of those that count: where all flags are dead, if they are attended to and
there is such a place in `places`. -/
def Preferred (b : LiveBlock) (attendFlags : Bool) (places : Set BlockPlace) (p : BlockPlace) :
    Prop :=
  attendFlags = true → (∃ q ∈ places, b.FlagsDead q) → b.FlagsDead p

/-- The place has the most dead registers among those of `places` that count. -/
structure Chosen (b : LiveBlock) (validRegs : BitSet size) (attendFlags : Bool)
    (places : Set BlockPlace) (p : BlockPlace) : Prop where
  flags : b.Preferred attendFlags places p
  most : ∀ q ∈ places, b.Preferred attendFlags places q →
    b.deadAt validRegs q ≤ b.deadAt validRegs p

/-- The places that the passes may end with. -/
def counted (b : LiveBlock) : Set BlockPlace := {p | ∃ i, b.Counts i ∧ p = placeAt i}

theorem preferred_counted (hpos : 0 < b.ninsn) :
    b.Preferred attendFlags b.counted (placeAt i) ↔ b.Admissible attendFlags i := by
  have hcounts : (∃ q ∈ b.counted, b.FlagsDead q) ↔
      ∃ c < b.ninsn * 2, b.FlagsDead (placeAt c) := by
    constructor
    · rintro ⟨q, ⟨c, hc, rfl⟩, hdead⟩
      exact ⟨c, hc.resolve_right (by omega), hdead⟩
    · rintro ⟨c, hc, hdead⟩
      exact ⟨_, ⟨c, .inl hc, rfl⟩, hdead⟩
  rw [Preferred, Admissible, hcounts]

/-- The passes end with the best of their places. -/
theorem passes_spec (b : LiveBlock) (validRegs : BitSet size) (attendFlags : Bool) :
    ∃ flags regs, b.flagsPass attendFlags = some flags ∧
      b.regsPass validRegs attendFlags flags = some regs ∧
      (regs.best, regs.bestloc) ∈ b.counted ∧
      b.Chosen validRegs attendFlags b.counted (regs.best, regs.bestloc) := by
  obtain ⟨flags, hflags, hskip, hstart⟩ := b.flagsPass_eq attendFlags
  obtain ⟨regs, hregs, hseen⟩ := foldlM_visitRegs validRegs hskip (Nat.le_refl _)
  refine ⟨flags, regs, hflags, hregs, ?_⟩
  by_cases hpos : 0 < b.ninsn
  · obtain ⟨c, hc, hadm, hplace, hmost⟩ : ∃ c < b.ninsn * 2, b.Admissible attendFlags c ∧
        (regs.best, regs.bestloc) = placeAt c ∧ ∀ i < b.ninsn * 2,
          b.Admissible attendFlags i → b.deadAt validRegs (placeAt i) ≤
            b.deadAt validRegs (placeAt c) := by
      rcases hseen.best with ⟨hzero, hplace⟩ | ⟨c, hc, hadm, hdead, hplace⟩
      · -- no place has a dead register
        have hmost : ∀ c, ∀ i < b.ninsn * 2, b.Admissible attendFlags i →
            b.deadAt validRegs (placeAt i) ≤ b.deadAt validRegs (placeAt c) := fun c i hi hadm => by
          have := hseen.most i hi hadm
          omega
        rcases hstart with ⟨hfirst, hadm⟩ | ⟨c, hc, hadm, hfirst⟩
        · exact ⟨0, by omega, hadm, hplace.trans hfirst, hmost 0⟩
        · exact ⟨c, hc, hadm, hplace.trans hfirst, hmost c⟩
      · exact ⟨c, hc, hadm, hplace, fun i hi hi' => hdead ▸ hseen.most i hi hi'⟩
    rw [hplace]
    refine ⟨⟨c, .inl hc, rfl⟩, (preferred_counted hpos).mpr hadm, ?_⟩
    rintro q ⟨i, hi, rfl⟩ hpref
    exact hmost i (hi.resolve_right (by omega)) ((preferred_counted hpos).mp hpref)
  · -- there is only the place before the control instruction
    have hzero : b.ninsn = 0 := by omega
    have hplace : (regs.best, regs.bestloc) = placeAt 0 := by
      rcases hseen.best with ⟨-, hplace⟩ | ⟨c, hc, -⟩
      · rcases hstart with ⟨hfirst, -⟩ | ⟨c, hc, -⟩
        · exact hplace.trans hfirst
        · omega
      · omega
    have honly : ∀ q ∈ b.counted, q = placeAt 0 := by
      rintro q ⟨i, hi, rfl⟩
      obtain ⟨-, rfl⟩ := hi.resolve_left (by omega)
      rfl
    rw [hplace]
    refine ⟨⟨0, .inr ⟨hzero, rfl⟩, rfl⟩, ?_, fun q hq _ => by rw [honly q hq]⟩
    rintro - ⟨q, hq, hdead⟩
    exact honly q hq ▸ hdead

/-! ## The places of an execution -/

theorem le_of_mem_passedFrom {l : List LiveInstruction} (h : p ∈ passedFrom i l) : i ≤ p.1 := by
  induction l generalizing i with
  | nil => cases h
  | cons x xs ih =>
    rw [passedFrom] at h
    rcases List.mem_cons.mp h with rfl | h
    · exact Nat.le_refl _
    · split at h
      · rcases List.mem_cons.mp h with rfl | h
        · exact Nat.le_refl _
        · exact Nat.le_of_succ_le (ih h)
      · cases h

/-- No execution comes to a place twice. -/
theorem nodup_passedFrom (i : Nat) (l : List LiveInstruction) : (passedFrom i l).Nodup := by
  induction l generalizing i with
  | nil => exact List.nodup_nil
  | cons x xs ih =>
    have hlater : ∀ loc, (i, loc) ∉ passedFrom (i + 1) xs := fun loc h =>
      Nat.not_succ_le_self i (le_of_mem_passedFrom h)
    rw [passedFrom]
    split
    · refine List.nodup_cons.mpr ⟨?_, List.nodup_cons.mpr ⟨hlater _, ih _⟩⟩
      rw [List.mem_cons, not_or]
      exact ⟨by simp, hlater _⟩
    · exact List.nodup_singleton _

/-- If control is passed on up to the last instruction, the places before all instructions are
passed, and those behind the ones that pass it on. -/
theorem mem_passedFrom {l : List LiveInstruction} (hl : ∀ x ∈ l.dropLast, x.continues = true) :
    p ∈ passedFrom i l ↔ ∃ j x, l[j]? = some x ∧
      (p = (i + j, .prior) ∨ x.continues = true ∧ p = (i + j, .after)) := by
  induction l generalizing i with
  | nil => simp [passedFrom]
  | cons x xs ih =>
    have hsplit : (∃ j y, (x :: xs)[j]? = some y ∧
        (p = (i + j, .prior) ∨ y.continues = true ∧ p = (i + j, .after))) ↔
        (p = (i, .prior) ∨ x.continues = true ∧ p = (i, .after)) ∨
          ∃ j y, xs[j]? = some y ∧
            (p = (i + 1 + j, .prior) ∨ y.continues = true ∧ p = (i + 1 + j, .after)) := by
      constructor
      · rintro ⟨j, y, hy, hp⟩
        cases j with
        | zero =>
          obtain rfl := Option.some.inj hy
          exact .inl hp
        | succ j =>
          rw [show i + (j + 1) = i + 1 + j by omega] at hp
          exact .inr ⟨j, y, by simpa using hy, hp⟩
      · rintro (hp | ⟨j, y, hy, hp⟩)
        · exact ⟨0, x, rfl, hp⟩
        · rw [show i + 1 + j = i + (j + 1) by omega] at hp
          exact ⟨j + 1, y, by simpa using hy, hp⟩
    rw [hsplit, passedFrom, List.mem_cons]
    cases xs with
    | nil => cases x.continues <;> simp [passedFrom]
    | cons y ys =>
      have hx : x.continues = true := hl x (by simp)
      rw [if_pos hx, List.mem_cons, ih fun z hz => hl z (by simp [hz]), or_assoc]
      simp [hx]

/-- The processor transfers control at the control instructions and nowhere else. -/
def Classified (b : LiveBlock) : Prop := ∀ x ∈ b.instructions, x.continues = !x.isControl

instance (b : LiveBlock) : Decidable b.Classified :=
  inferInstanceAs (Decidable (∀ x ∈ b.instructions, x.continues = !x.isControl))

theorem mem_passed (hclass : b.Classified) :
    p ∈ b.passed ↔ ∃ j x, b.instructions[j]? = some x ∧
      (p = (j, .prior) ∨ x.isControl = false ∧ p = (j, .after)) := by
  have hcontinues : ∀ x ∈ b.instructions.dropLast, x.continues = true := fun x hx => by
    rw [hclass x (List.mem_of_mem_dropLast hx), b.controlLast x hx]
    rfl
  rw [passed, mem_passedFrom hcontinues]
  refine exists_congr fun j => exists_congr fun x => and_congr_right fun hx => ?_
  rw [hclass x (List.mem_of_getElem? hx), Nat.zero_add, Bool.not_eq_true']

/-- Only the last instruction is a control instruction, if it is one. -/
theorem isControl_eq {j : Nat} {x : LiveInstruction} (hx : b.instructions[j]? = some x) :
    x.isControl = (b.endsWithControl && decide (j = b.instructions.length - 1)) := by
  obtain ⟨hlt, rfl⟩ := List.getElem?_eq_some_iff.mp hx
  by_cases hj : j = b.instructions.length - 1
  · subst hj
    rw [decide_eq_true rfl, Bool.and_true, endsWithControl, List.getLast_eq_getElem]
  · rw [decide_eq_false hj, Bool.and_false]
    refine b.controlLast _ (List.mem_iff_getElem.mpr ⟨j, ?_, List.getElem_dropLast _⟩)
    rw [List.length_dropLast]
    omega

/-- The places that an execution comes to are those that are counted, and the one before a
control instruction at the end. -/
theorem mem_passed_iff (hclass : b.Classified) :
    p ∈ b.passed ↔ p ∈ b.counted ∨
      b.endsWithControl = true ∧ p = (b.instructions.length - 1, .prior) := by
  have hpos := b.length_pos
  have hget : ∀ j, j < b.instructions.length → ∃ x, b.instructions[j]? = some x := fun j hj =>
    ⟨_, List.getElem?_eq_getElem hj⟩
  have hninsn : b.ninsn = b.instructions.length - if b.endsWithControl then 1 else 0 := by
    unfold ninsn
    split <;> omega
  rw [mem_passed hclass]
  constructor
  · rintro ⟨j, x, hx, hp⟩
    have hlt := (List.getElem?_eq_some_iff.mp hx).1
    have hcontrol := isControl_eq hx
    by_cases hlast : b.endsWithControl = true ∧ j = b.instructions.length - 1
    · obtain ⟨hends, rfl⟩ := hlast
      rcases hp with rfl | ⟨hno, -⟩
      · exact .inr ⟨hends, rfl⟩
      · rw [hcontrol, hends] at hno
        simp at hno
    · have hj : j < b.ninsn := by
        rw [hninsn]
        split
        · rename_i hends
          have : j ≠ b.instructions.length - 1 := fun h => hlast ⟨hends, h⟩
          omega
        · omega
      rcases hp with rfl | ⟨-, rfl⟩
      · refine .inl ⟨2 * j, .inl (by omega), ?_⟩
        rw [placeAt, side, if_pos (by omega), Nat.mul_div_cancel_left j (by decide)]
      · refine .inl ⟨2 * j + 1, .inl (by omega), ?_⟩
        rw [placeAt, side, if_neg (by omega), show (2 * j + 1) / 2 = j by omega]
  · rintro (⟨i, hi, rfl⟩ | ⟨-, rfl⟩)
    · rcases hi with hi | ⟨hzero, rfl⟩
      · have hlt : i / 2 < b.ninsn := by omega
        have hle := b.ninsn_le
        obtain ⟨x, hx⟩ := hget (i / 2) (by omega)
        refine ⟨i / 2, x, hx, ?_⟩
        rw [placeAt, side]
        split
        · exact .inl rfl
        · refine .inr ⟨?_, rfl⟩
          rw [isControl_eq hx, Bool.and_eq_false_iff]
          cases hends : b.endsWithControl with
          | false => exact .inl rfl
          | true =>
            rw [hninsn, hends, if_pos rfl] at hlt
            exact .inr (decide_eq_false (by omega))
      · obtain ⟨x, hx⟩ := hget 0 hpos
        exact ⟨0, x, hx, .inl rfl⟩
    · obtain ⟨x, hx⟩ := hget (b.instructions.length - 1) (by omega)
      exact ⟨_, x, hx, .inl rfl⟩

/-- For every place that an execution comes to, one with the same live set is counted. -/
theorem exists_counted (hclass : b.Classified) (hp : p ∈ b.passed) :
    ∃ q ∈ b.counted, SameLive (b.liveAt q) (b.liveAt p) := by
  rcases (mem_passed_iff hclass).mp hp with hp | ⟨hends, rfl⟩
  · exact ⟨p, hp, fun _ => rfl, fun _ => rfl⟩
  · have hninsn : b.ninsn = b.instructions.length - 1 := if_pos hends
    by_cases hone : b.ninsn = 0
    · refine ⟨_, ⟨0, .inr ⟨hone, rfl⟩, rfl⟩, ?_⟩
      rw [← hninsn, hone]
      exact ⟨fun _ => rfl, fun _ => rfl⟩
    · -- the place behind the instruction in front of the control instruction
      have hlt : b.instructions.length - 2 + 1 < b.instructions.length := by omega
      have hlive := List.isChain_iff_getElem.mp b.live _ hlt
      refine ⟨_, ⟨2 * (b.instructions.length - 2) + 1, .inl (by omega), rfl⟩, ?_⟩
      have hafter : b.liveAt (placeAt (2 * (b.instructions.length - 2) + 1)) =
          (b.instructions[b.instructions.length - 2]).liveOuts := by
        rw [placeAt, side, if_neg (by omega), liveAt,
          show (2 * (b.instructions.length - 2) + 1) / 2 = b.instructions.length - 2 by omega,
          List.getElem?_eq_getElem (by omega)]
        rfl
      have hprior : b.liveAt (b.instructions.length - 1, .prior) =
          (b.instructions[b.instructions.length - 2 + 1]).liveIns := by
        rw [liveAt, show b.instructions.length - 1 = b.instructions.length - 2 + 1 by omega,
          List.getElem?_eq_getElem (by omega)]
        rfl
      rw [hafter, hprior]
      exact hlive

/-- The best of the places that are counted is the best of those of an execution. -/
theorem Chosen.passed (hclass : b.Classified)
    (h : b.Chosen validRegs attendFlags b.counted p) :
    b.Chosen validRegs attendFlags {q | q ∈ b.passed} p := by
  have hflags : (∃ q ∈ {q | q ∈ b.passed}, b.FlagsDead q) ↔ ∃ q ∈ b.counted, b.FlagsDead q := by
    constructor
    · rintro ⟨q, hq, hdead⟩
      obtain ⟨r, hr, hsame⟩ := exists_counted hclass hq
      exact ⟨r, hr, hsame.allFlagsDead_eq.trans hdead⟩
    · rintro ⟨q, hq, hdead⟩
      exact ⟨q, (mem_passed_iff hclass).mpr (.inl hq), hdead⟩
  refine ⟨fun hattend hex => h.flags hattend (hflags.mp hex), fun q hq hpref => ?_⟩
  obtain ⟨r, hr, hsame⟩ := exists_counted hclass hq
  have hdead : b.deadAt validRegs r = b.deadAt validRegs q := countDead_congr hsame
  rw [← hdead]
  refine h.most r hr fun hattend hex => ?_
  exact hsame.allFlagsDead_eq.trans (hpref hattend (hflags.mpr hex))

/-! ## The result -/

/-- The place is passed exactly once in an execution of the block. -/
def Once (b : LiveBlock) (p : BlockPlace) : Prop := b.passed.count p = 1

theorem once_of_mem (h : p ∈ b.passed) : b.Once p :=
  List.count_eq_one_of_mem (nodup_passedFrom 0 b.instructions) h

theorem endPlace_mem_passed (hclass : b.Classified) : b.endPlace ∈ b.passed := by
  have hpos := b.length_pos
  obtain ⟨x, hx⟩ : ∃ x, b.instructions[b.instructions.length - 1]? = some x :=
    ⟨_, List.getElem?_eq_getElem (by omega)⟩
  refine (mem_passed hclass).mpr ⟨_, x, hx, ?_⟩
  have hcontrol := isControl_eq hx
  rw [decide_eq_true rfl, Bool.and_true] at hcontrol
  rw [endPlace, hcontrol]
  cases b.endsWithControl with
  | false => exact .inr ⟨rfl, rfl⟩
  | true => exact .inl rfl

/-- What `findBestInstPoint` promises: the place is passed once, it is the best one of the block,
or the end of it if the block is an entry, and the registers are those that are valid and dead
there. -/
structure Found (b : LiveBlock) (validRegs : BitSet size) (useRegs : BitSet k)
    (attendFlags : Bool) (r : BestPoint k) : Prop where
  once : b.Once r.place
  chosen : b.isEntry = false → b.Chosen validRegs attendFlags {q | q ∈ b.passed} r.place
  atEnd : b.isEntry = true → r.place = b.endPlace
  instruction : ∃ x, b.instructions[r.best]? = some x ∧ b.liveAt r.place = x.liveSet r.bestloc
  location : r.bestloc ≠ .replace
  registers : ∀ j, r.useRegs.contains j = true ↔ useRegs.contains j = true ∨
    (j < x86AluRegs ∧ j < k) ∧ validRegs.contains j = true ∧ isRegDead (b.liveAt r.place) j = true

/-- `findBestInstPoint` fails no assertion and keeps its promise. -/
theorem findBestInstPoint_found (hclass : b.Classified) (validRegs : BitSet size)
    (useRegs : BitSet k) (attendFlags : Bool) :
    ∃ r, b.findBestInstPoint validRegs useRegs attendFlags = some r ∧
      b.Found validRegs useRegs attendFlags r := by
  obtain ⟨flags, regs, hflags, hregs, hcounted, hchosen⟩ := b.passes_spec validRegs attendFlags
  have hpassed : (if b.isEntry then b.endPlace else (regs.best, regs.bestloc)) ∈ b.passed := by
    split
    · exact endPlace_mem_passed hclass
    · exact (mem_passed_iff hclass).mpr (.inl hcounted)
  obtain ⟨j, x, hx, hp⟩ := (mem_passed hclass).mp hpassed
  rw [findBestInstPoint, hflags, Option.bind_some, hregs, Option.bind_some]
  generalize hplace : (if b.isEntry then b.endPlace else (regs.best, regs.bestloc)) = place
    at hpassed hp
  have hget : b.instructions[place.1]? = some x ∧ place.2 ≠ .replace := by
    rcases hp with rfl | ⟨-, rfl⟩
    · exact ⟨hx, nofun⟩
    · exact ⟨hx, nofun⟩
  have hlive : b.liveAt place = x.liveSet place.2 := by rw [liveAt, hget.1, Option.bind_some]
  simp only [hget.1, Option.map_some]
  refine ⟨_, rfl, once_of_mem hpassed, fun hentry => ?_, fun hentry => ?_, ⟨x, hget.1, hlive⟩,
    hget.2, fun j => ?_⟩
  · rw [hentry, if_neg Bool.false_ne_true] at hplace
    exact hplace ▸ hchosen.passed hclass
  · rw [hentry, if_pos rfl] at hplace
    exact hplace.symm
  · rw [← hlive]
    exact contains_insertDead j

/-! ## Executing what is inserted -/

section Execute

variable {σ M : Type*} [AddCommMonoid M] {exec : LiveInstruction → σ → σ}
  {inserted : BlockPlace → σ → σ} {count : σ → M} {inc : M}

/-- What is inserted at one place is executed as often as the place is passed. -/
theorem count_executeFrom (hexec : ∀ x s, count (exec x s) = count s)
    (hinserted : ∀ q s, count (inserted q s) = count s + if q = p then inc else 0)
    (l : List LiveInstruction) (s : σ) :
    count (executeFrom exec inserted i l s) = count s + (passedFrom i l).count p • inc := by
  have hstep : ∀ q, (if q = p then inc else 0) = (if (q == p) = true then 1 else 0) • inc :=
    fun q => by
      by_cases hq : q = p
      · simp [hq, one_nsmul]
      · simp [hq, zero_nsmul]
  induction l generalizing i s with
  | nil => simp [executeFrom, passedFrom]
  | cons x xs ih =>
    rw [executeFrom, passedFrom]
    split
    · rw [ih, hinserted, hexec, hinserted, List.count_cons, List.count_cons, add_nsmul, add_nsmul,
        hstep, hstep]
      abel
    · rw [hexec, hinserted, List.count_cons, List.count_nil, Nat.zero_add, hstep]

/-- Inserted at a place that is passed once, it is executed once. -/
theorem count_execute (hp : b.Once p) (hexec : ∀ x s, count (exec x s) = count s)
    (hinserted : ∀ q s, count (inserted q s) = count s + if q = p then inc else 0) (s : σ) :
    count (b.execute exec inserted s) = count s + inc := by
  have hpassed : (passedFrom 0 b.instructions).count p = 1 := hp
  rw [execute, count_executeFrom hexec hinserted, hpassed, one_nsmul]

end Execute

end LiveBlock

/-! ## The liveness of a flow graph -/

/-- Sets with the same members have the same dead registers and flags. -/
theorem SameLive.of_mem {s t : RegisterSet} (h : ∀ n, s.Mem n ↔ t.Mem n) :
    SameLive (some s) (some t) := by
  have hcontains : ∀ n, s.contains n = t.contains n := fun n => by
    by_cases hn : n < x86FlagBits + x86AluRegs
    · rw [BitSet.contains_eq_test _ hn, BitSet.contains_eq_test _ hn]
      exact Bool.eq_iff_iff.mpr (h n)
    · rw [BitSet.contains_of_ge _ (by omega), BitSet.contains_of_ge _ (by omega)]
  refine ⟨fun j => ?_, fun i => ?_⟩
  · simp [isRegDead, RegisterSet.containsRegister, hcontains]
  · simp [isFlagDead, RegisterSet.containsFlag, hcontains]

/-- What `computeLiveness` finds live behind an instruction is what it finds live before the next
one of its block. -/
theorem FlowGraph.PathLiveSets.sameLive {ι : Type*} {use defn : ι → RegisterSet} {g : FlowGraph ι}
    {st : LiveSets} (h : g.PathLiveSets use defn st) {bb : BasicBlock ι} {n j : Nat}
    (hbb : g.basicBlocks[n]? = some bb) (hj : j + 1 < bb.instructions.length) :
    SameLive (some (st.outs (g.index ⟨n, j⟩))) (some (st.ins (g.index ⟨n, j + 1⟩))) := by
  refine .of_mem fun r => (h.outs ⟨n, j⟩ ⟨bb, hbb, by simp only; omega⟩ r).trans ?_
  constructor
  · rintro ⟨l, hflow, hmem⟩
    generalize hplace : (⟨n, j⟩ : Location) = l' at hflow
    cases hflow with
    | fallThrough _ _ =>
      cases hplace
      exact hmem
    | target hbb' _ =>
      -- the last instruction is another one
      cases hplace
      obtain rfl := Option.some.inj (hbb.symm.trans hbb')
      omega
  · exact fun hmem => ⟨_, .fallThrough hbb hj, hmem⟩

end Pebil

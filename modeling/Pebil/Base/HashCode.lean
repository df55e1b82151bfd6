import Mathlib.Data.BitVec

/-!
# `HashCode` (include/Base.h:419–467, src/Base.C:584–622)

A number for a section, a function, a block or an instruction. The components are kept one higher
in the bit fields, so that 0 stands for one that is absent. The field of the section has 8 bits, and
the section 255, which the constructors accept, wraps around to 0 in it.
-/

namespace Pebil

/-- The bit fields of the `union`, from the lowest. -/
structure HashCode where
  instruction : BitVec 16
  block : BitVec 16
  function : BitVec 16
  sectionField : BitVec 8
  res : BitVec 8
  deriving DecidableEq, Repr

namespace HashCode

/-- `getValue`: the bits of the `union`. -/
def getValue (h : HashCode) : BitVec 64 :=
  h.res ++ h.sectionField ++ h.function ++ h.block ++ h.instruction

/-- The bits `INVALID_FIELD`. -/
def invalid : HashCode := ⟨0, 0, 0, 0, 0⟩

def validSection (s : BitVec 32) : Bool := 0 ≤ s && s < 1 <<< 8

def validFunction (f : BitVec 32) : Bool := 0 ≤ f && f < (1 <<< 16) - 1

def validBlock (b : BitVec 32) : Bool := 0 ≤ b && b < (1 <<< 16) - 1

def validInstruction (i : BitVec 32) : Bool := 0 ≤ i && i < (1 <<< 16) - 1

/-- `HashCode(s)`. -/
def ofSection (s : BitVec 32) : HashCode :=
  if validSection s then { invalid with sectionField := (s + 1).setWidth 8 } else invalid

/-- `HashCode(s, f)`. -/
def ofFunction (s f : BitVec 32) : HashCode :=
  if validSection s && validFunction f then
    { invalid with sectionField := (s + 1).setWidth 8, function := (f + 1).setWidth 16 }
  else invalid

/-- `HashCode(s, f, b)`. -/
def ofBlock (s f b : BitVec 32) : HashCode :=
  if validSection s && validFunction f && validBlock b then
    { invalid with
      sectionField := (s + 1).setWidth 8
      function := (f + 1).setWidth 16
      block := (b + 1).setWidth 16 }
  else invalid

/-- `HashCode(s, f, b, m)`. -/
def ofInstruction (s f b m : BitVec 32) : HashCode :=
  if validSection s && validFunction f && validBlock b && validInstruction m then
    { invalid with
      sectionField := (s + 1).setWidth 8
      function := (f + 1).setWidth 16
      block := (b + 1).setWidth 16
      instruction := (m + 1).setWidth 16 }
  else invalid

variable (h : HashCode)

def hasSection : Bool := h.sectionField != 0

def hasFunction : Bool := h.function != 0

def hasBlock : Bool := h.block != 0

def hasInstruction : Bool := h.instruction != 0

def isSection : Bool := h.hasSection && !h.hasFunction && !h.hasBlock && !h.hasInstruction

def isFunction : Bool := h.hasSection && h.hasFunction && !h.hasBlock && !h.hasInstruction

def isBlock : Bool := h.hasSection && h.hasFunction && h.hasBlock && !h.hasInstruction

def isInstruction : Bool := h.hasSection && h.hasFunction && h.hasBlock && h.hasInstruction

def getSection : BitVec 32 := if h.hasSection then h.sectionField.setWidth 32 - 1 else 0

def getFunction : BitVec 32 := if h.hasFunction then h.function.setWidth 32 - 1 else 0

def getBlock : BitVec 32 := if h.hasBlock then h.block.setWidth 32 - 1 else 0

def getInstruction : BitVec 32 := if h.hasInstruction then h.instruction.setWidth 32 - 1 else 0

end HashCode

/-- What a code is built from. -/
inductive HashParts where
  | ofSection (s : BitVec 32)
  | ofFunction (s f : BitVec 32)
  | ofBlock (s f b : BitVec 32)
  | ofInstruction (s f b m : BitVec 32)

namespace HashParts

/-- The constructor for the parts. -/
def hash : HashParts → HashCode
  | ofSection s => .ofSection s
  | ofFunction s f => .ofFunction s f
  | ofBlock s f b => .ofBlock s f b
  | ofInstruction s f b m => .ofInstruction s f b m

/-- The number of the section. -/
def sectionOf : HashParts → BitVec 32
  | ofSection s | ofFunction s _ | ofBlock s _ _ | ofInstruction s _ _ _ => s

/-- The constructor accepts the parts. -/
def Valid : HashParts → Prop
  | ofSection s => HashCode.validSection s
  | ofFunction s f => HashCode.validSection s ∧ HashCode.validFunction f
  | ofBlock s f b => HashCode.validSection s ∧ HashCode.validFunction f ∧ HashCode.validBlock b
  | ofInstruction s f b m => HashCode.validSection s ∧ HashCode.validFunction f ∧
      HashCode.validBlock b ∧ HashCode.validInstruction m

/-- The accessors return the parts that there are. -/
def Returned (h : HashCode) : HashParts → Prop
  | ofSection s => h.getSection = s
  | ofFunction s f => h.getSection = s ∧ h.getFunction = f
  | ofBlock s f b => h.getSection = s ∧ h.getFunction = f ∧ h.getBlock = b
  | ofInstruction s f b m => h.getSection = s ∧ h.getFunction = f ∧ h.getBlock = b ∧
      h.getInstruction = m

/-- The code is of the kind of its deepest part, and of no other. -/
def Classified (h : HashCode) (p : HashParts) : Prop :=
  (h.isSection, h.isFunction, h.isBlock, h.isInstruction) =
    match p with
    | ofSection _ => (true, false, false, false)
    | ofFunction _ _ => (false, true, false, false)
    | ofBlock _ _ _ => (false, false, true, false)
    | ofInstruction _ _ _ _ => (false, false, false, true)

/-- The code can be read back, and no other parts have it. -/
structure RoundTrips (p : HashParts) : Prop where
  returned : p.Returned p.hash
  classified : p.Classified p.hash
  unique : ∀ q : HashParts, q.Valid → q.hash.getValue = p.hash.getValue → q = p

/-! ## The fields -/

end HashParts

theorem HashCode.append_inj {w w' : Nat} {a b : BitVec w} {a' b' : BitVec w'} (h : a ++ a' = b ++ b') :
    a = b ∧ a' = b' := by
  have hleft := congrArg (BitVec.extractLsb' w' w) h
  have hright := congrArg (BitVec.extractLsb' 0 w') h
  rw [BitVec.extractLsb'_append_eq_left, BitVec.extractLsb'_append_eq_left] at hleft
  rw [BitVec.extractLsb'_append_eq_right, BitVec.extractLsb'_append_eq_right] at hright
  exact ⟨hleft, hright⟩

/-- The bit fields do not overlap. -/
theorem HashCode.getValue_injective {h h' : HashCode} (heq : h.getValue = h'.getValue) : h = h' := by
  obtain ⟨heq, hinstruction⟩ := append_inj heq
  obtain ⟨heq, hblock⟩ := append_inj heq
  obtain ⟨heq, hfunction⟩ := append_inj heq
  obtain ⟨hres, hsection⟩ := append_inj heq
  cases h
  cases h'
  simp_all

namespace HashParts

def functionOf : HashParts → Option (BitVec 32)
  | ofSection _ => none
  | ofFunction _ f | ofBlock _ f _ | ofInstruction _ f _ _ => some f

def blockOf : HashParts → Option (BitVec 32)
  | ofSection _ | ofFunction _ _ => none
  | ofBlock _ _ b | ofInstruction _ _ b _ => some b

def instructionOf : HashParts → Option (BitVec 32)
  | ofSection _ | ofFunction _ _ | ofBlock _ _ _ => none
  | ofInstruction _ _ _ m => some m

/-- What the 16 bits of a component hold. -/
def stored (c : Option (BitVec 32)) : BitVec 16 := c.elim 0 fun n => (n + 1).setWidth 16

/-- A component that fits into its bits. -/
def Fits (c : Option (BitVec 32)) : Prop := ∀ n ∈ c, n.toNat < 2 ^ 16 - 1

theorem stored_toNat {n : BitVec 32} (hn : n.toNat < 2 ^ 16 - 1) :
    (stored (some n)).toNat = n.toNat + 1 := by
  show ((n + 1).setWidth 16).toNat = _
  rw [BitVec.toNat_setWidth, BitVec.toNat_add, show (1 : BitVec 32).toNat = 1 from rfl]
  omega

theorem stored_ne_zero {n : BitVec 32} (hn : n.toNat < 2 ^ 16 - 1) : stored (some n) ≠ 0 := by
  intro h
  have hnat := congrArg BitVec.toNat h
  rw [stored_toNat hn] at hnat
  exact absurd hnat (Nat.succ_ne_zero _)

theorem stored_read {n : BitVec 32} (hn : n.toNat < 2 ^ 16 - 1) :
    (stored (some n)).setWidth 32 - 1 = n := by
  refine BitVec.eq_of_toNat_eq ?_
  rw [BitVec.toNat_sub, BitVec.toNat_setWidth, stored_toNat hn,
    show (1 : BitVec 32).toNat = 1 from rfl]
  omega

theorem stored_injective {c c' : Option (BitVec 32)} (hc : Fits c) (hc' : Fits c')
    (h : stored c = stored c') : c = c' := by
  cases c with
  | none =>
    cases c' with
    | none => rfl
    | some n => exact absurd h.symm (stored_ne_zero (hc' n rfl))
  | some n =>
    cases c' with
    | none => exact absurd h (stored_ne_zero (hc n rfl))
    | some n' => rw [← stored_read (hc n rfl), ← stored_read (hc' n' rfl), h]

/-- The section is kept one higher, in 8 bits. -/
theorem section_toNat (s : BitVec 32) :
    ((s + 1).setWidth 8 : BitVec 8).toNat = (s.toNat + 1) % 256 := by
  rw [BitVec.toNat_setWidth, BitVec.toNat_add, show (1 : BitVec 32).toNat = 1 from rfl]
  omega

variable {p : HashParts}

theorem Valid.section_lt (h : p.Valid) : p.sectionOf.toNat < 256 := by
  have hlt : ∀ s : BitVec 32, HashCode.validSection s = true → s.toNat < 256 := fun s hs => by
    simp only [HashCode.validSection, Bool.and_eq_true, decide_eq_true_iff, BitVec.lt_def] at hs
    exact hs.2
  cases p with
  | ofSection s => exact hlt s h
  | ofFunction s f => exact hlt s h.1
  | ofBlock s f b => exact hlt s h.1
  | ofInstruction s f b m => exact hlt s h.1

theorem Valid.fits (h : p.Valid) : Fits p.functionOf ∧ Fits p.blockOf ∧ Fits p.instructionOf := by
  have hnone : Fits none := fun n hn => by cases hn
  have hsome : ∀ n : BitVec 32, HashCode.validFunction n = true → Fits (some n) := by
    intro n hn n' hn'
    obtain rfl := Option.some.inj hn'
    simp only [HashCode.validFunction, Bool.and_eq_true, decide_eq_true_iff, BitVec.lt_def] at hn
    exact hn.2
  cases p with
  | ofSection s => exact ⟨hnone, hnone, hnone⟩
  | ofFunction s f => exact ⟨hsome f h.2, hnone, hnone⟩
  | ofBlock s f b => exact ⟨hsome f h.2.1, hsome b h.2.2, hnone⟩
  | ofInstruction s f b m => exact ⟨hsome f h.2.1, hsome b h.2.2.1, hsome m h.2.2.2⟩

/-- One description for the four constructors. -/
theorem Valid.hash_eq (h : p.Valid) : p.hash =
    ⟨stored p.instructionOf, stored p.blockOf, stored p.functionOf,
      (p.sectionOf + 1).setWidth 8, 0⟩ := by
  cases p with
  | ofSection s => exact if_pos h
  | ofFunction s f => exact if_pos (by simp [h.1, h.2])
  | ofBlock s f b => exact if_pos (by simp [h.1, h.2.1, h.2.2])
  | ofInstruction s f b m => exact if_pos (by simp [h.1, h.2.1, h.2.2.1, h.2.2.2])

theorem ext_parts {q : HashParts} (hs : q.sectionOf = p.sectionOf)
    (hf : q.functionOf = p.functionOf) (hb : q.blockOf = p.blockOf)
    (hi : q.instructionOf = p.instructionOf) : q = p := by
  cases p <;> cases q <;> simp_all [sectionOf, functionOf, blockOf, instructionOf]

/-- Codes are equal for equal parts only, whatever the section. -/
theorem Valid.unique {q : HashParts} (h : p.Valid) (hq : q.Valid)
    (heq : q.hash.getValue = p.hash.getValue) : q = p := by
  have hcode := HashCode.getValue_injective heq
  rw [h.hash_eq, hq.hash_eq] at hcode
  obtain ⟨hi, hb, hf, hs, -⟩ := HashCode.mk.inj hcode
  have hsection := congrArg BitVec.toNat hs
  rw [section_toNat, section_toNat] at hsection
  have hlt := h.section_lt
  have hlt' := hq.section_lt
  obtain ⟨hff, hfb, hfi⟩ := h.fits
  obtain ⟨hff', hfb', hfi'⟩ := hq.fits
  exact ext_parts (BitVec.eq_of_toNat_eq (by omega)) (stored_injective hff' hff hf)
    (stored_injective hfb' hfb hb) (stored_injective hfi' hfi hi)

/-! ## Reading a code -/

theorem stored_bne_zero {c : Option (BitVec 32)} (hc : Fits c) : (stored c != 0) = c.isSome := by
  cases c with
  | none => rfl
  | some n => exact bne_iff_ne.mpr (stored_ne_zero (hc n rfl))

/-- A component that there is, is read back. -/
theorem read_stored {c : Option (BitVec 32)} (hc : Fits c) :
    (if stored c != 0 then (stored c).setWidth 32 - 1 else 0) = c.getD 0 := by
  rw [stored_bne_zero hc]
  cases c with
  | none => rfl
  | some n => exact (if_pos rfl).trans (stored_read (hc n rfl))

theorem section_bne_zero {s : BitVec 32} (hs : s.toNat < 256) :
    (((s + 1).setWidth 8 : BitVec 8) != 0) = decide (s ≠ 255) := by
  have hnat := section_toNat s
  rw [Bool.eq_iff_iff, bne_iff_ne, decide_eq_true_iff]
  refine not_congr ⟨fun h => BitVec.eq_of_toNat_eq ?_, fun h => ?_⟩
  · rw [h] at hnat
    show s.toNat = 255
    have hzero : (0 : BitVec 8).toNat = 0 := rfl
    omega
  · subst h
    rfl

/-- Every section number but 255 is read back. -/
theorem read_section {s : BitVec 32} (hs : s.toNat < 256) :
    (if ((s + 1).setWidth 8 : BitVec 8) != 0 then
      ((s + 1).setWidth 8 : BitVec 8).setWidth 32 - 1 else 0) = s ↔ s ≠ 255 := by
  rw [section_bne_zero hs]
  by_cases h : s = 255
  · subst h
    decide
  · rw [if_pos (decide_eq_true h)]
    refine iff_of_true (BitVec.eq_of_toNat_eq ?_) h
    have hne : s.toNat ≠ 255 := fun heq => h (BitVec.eq_of_toNat_eq heq)
    rw [BitVec.toNat_sub, BitVec.toNat_setWidth, section_toNat,
      show (1 : BitVec 32).toNat = 1 from rfl]
    omega

theorem Valid.getSection_iff (h : p.Valid) : p.hash.getSection = p.sectionOf ↔ p.sectionOf ≠ 255 := by
  rw [h.hash_eq]
  exact read_section h.section_lt

theorem Valid.returned_iff (h : p.Valid) : p.Returned p.hash ↔ p.sectionOf ≠ 255 := by
  have hsection := h.getSection_iff
  obtain ⟨hf, hb, hi⟩ := h.fits
  have hfunction : p.hash.getFunction = p.functionOf.getD 0 := by
    rw [h.hash_eq]
    exact read_stored hf
  have hblock : p.hash.getBlock = p.blockOf.getD 0 := by
    rw [h.hash_eq]
    exact read_stored hb
  have hinstruction : p.hash.getInstruction = p.instructionOf.getD 0 := by
    rw [h.hash_eq]
    exact read_stored hi
  cases p with
  | ofSection s => exact hsection
  | ofFunction s f => exact (and_iff_left hfunction).trans hsection
  | ofBlock s f b => exact (and_iff_left ⟨hfunction, hblock⟩).trans hsection
  | ofInstruction s f b m =>
    exact (and_iff_left ⟨hfunction, hblock, hinstruction⟩).trans hsection

theorem Valid.classified (h : p.Valid) (hne : p.sectionOf ≠ 255) : p.Classified p.hash := by
  obtain ⟨hf, hb, hi⟩ := h.fits
  have hs := (section_bne_zero h.section_lt).trans (decide_eq_true hne)
  have hf := stored_bne_zero hf
  have hb := stored_bne_zero hb
  have hi := stored_bne_zero hi
  simp only [Classified, HashCode.isSection, HashCode.isFunction, HashCode.isBlock,
    HashCode.isInstruction, HashCode.hasSection, HashCode.hasFunction, HashCode.hasBlock,
    HashCode.hasInstruction, h.hash_eq, hs, hf, hb, hi]
  cases p <;> rfl

/-- **Hash codes** of accepted parts can be read back exactly if the section is not 255. -/
theorem roundTrips_iff (h : p.Valid) : p.RoundTrips ↔ p.sectionOf ≠ 255 :=
  ⟨fun hround => h.returned_iff.mp hround.returned, fun hne =>
    ⟨h.returned_iff.mpr hne, h.classified hne, fun _ => h.unique⟩⟩

theorem roundTrips_first : (ofInstruction 1 2 3 4).RoundTrips :=
  (roundTrips_iff (p := ofInstruction 1 2 3 4) ⟨rfl, rfl, rfl, rfl⟩).mpr (by decide)

/-- The section 255 is accepted, and has the code of nothing. -/
theorem not_roundTrips : ¬∀ p : HashParts, p.Valid → p.RoundTrips := fun h =>
  absurd (h (ofSection 255) rfl).returned (by show ¬_ = _; decide)

end HashParts

end Pebil

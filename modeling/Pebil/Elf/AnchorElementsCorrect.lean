import Mathlib.Data.List.ReduceOption
import Pebil.Elf.AnchorElements
import Pebil.Elf.AnchorSearch
import Pebil.Lib.Rounds

/-!
# Which instructions are anchored

Where the sort follows the addresses, the binary search finds the instruction at an address
(`search_eq`), and what becomes of one instruction does not depend on the others: the special
references are never those of an instruction (`anchorInstruction_eq`). `anchored_iff` is the
result: the anchors are right exactly when no instruction has two operands for an anchor and a
32-bit file uses relative addresses in direct control transfers only.
-/

namespace Pebil

open scoped List

namespace TextInstruction

variable {x : TextInstruction} {link : AnchorLink} {imm : Bool}

/-- The address as a number. -/
def address (x : TextInstruction) : Nat := x.baseAddress.toNat

/-- The comparison of the search follows the addresses. -/
theorem directs (addr : BitVec 64) :
    Directs (searchBaseAddressExact addr) address addr.toNat :=
  directs_threeWay address addr.toNat

@[simp] theorem initializeAnchor_none :
    x.initializeAnchor none link imm = some (some ⟨x, link, imm⟩) := rfl

@[simp] theorem initializeAnchor_some {a : TextAnchor} :
    x.initializeAnchor (some a) link imm = none := rfl

end TextInstruction

namespace TextImage

variable {f : TextImage} {x y : TextInstruction} {addr : BitVec 64}

/-! ## The search -/

/-- The instruction at an address. -/
def instructionAt (f : TextImage) (addr : BitVec 64) : Option TextInstruction :=
  f.instructions.find? (·.baseAddress = addr)

theorem instructionAt_eq_none :
    f.instructionAt addr = none ↔ ∀ y ∈ f.instructions, y.baseAddress ≠ addr := by
  simp [instructionAt]

/-- Two instructions at one address are one. -/
theorem eq_of_baseAddress (hx : x ∈ f.instructions) (hy : y ∈ f.instructions)
    (h : x.baseAddress = y.baseAddress) : x = y :=
  List.inj_on_of_nodup_map f.distinct hx hy h

theorem instructionAt_eq_some :
    f.instructionAt addr = some y ↔ y ∈ f.instructions ∧ y.baseAddress = addr := by
  constructor
  · intro h
    exact ⟨List.mem_of_find?_eq_some h, by simpa using List.find?_some h⟩
  · rintro ⟨hy, rfl⟩
    cases h : f.instructionAt y.baseAddress with
    | none => exact absurd rfl (instructionAt_eq_none.mp h y hy)
    | some z =>
      have hz : z.baseAddress = y.baseAddress := by simpa using List.find?_some h
      rw [eq_of_baseAddress (List.mem_of_find?_eq_some h) hy hz]

theorem Comparable.follows (h : f.Comparable) :
    Follows TextInstruction.compareBaseAddress TextInstruction.address f.instructions where
  lt x hx y hy hxy := by
    obtain ⟨hpos, hint⟩ := h x hx y hy hxy
    exact (AnchorVector.toInt_setWidth_sub hxy hpos hint).1
  gt x hx y hy hxy := by
    obtain ⟨hpos, hint⟩ := h x hx y hy hxy
    exact (AnchorVector.toInt_setWidth_sub hxy hpos hint).2
  eq x _ y _ hxy := by
    have hxy : x.baseAddress = y.baseAddress := BitVec.eq_of_toNat_eq hxy
    simp [TextInstruction.compareBaseAddress, hxy]

/-- Among the sorted instructions, the binary search finds the one at the address. -/
theorem search_eq (h : f.Comparable) (qsort : Qsort TextInstruction.compareBaseAddress) :
    (fun addr => bsearch (TextInstruction.searchBaseAddressExact addr)
      (qsort.sort f.instructions)) = f.instructionAt := by
  funext addr
  have hperm := qsort.perm f.instructions
  have hsound : ∀ y, bsearch (TextInstruction.searchBaseAddressExact addr)
      (qsort.sort f.instructions) = some y → f.instructionAt addr = some y := fun y hy => by
    obtain ⟨hmem, haddress⟩ := (TextInstruction.directs addr).of_bsearch hy
    exact instructionAt_eq_some.mpr ⟨hperm.mem_iff.mp hmem, BitVec.eq_of_toNat_eq haddress⟩
  cases hat : f.instructionAt addr with
  | none =>
    refine Option.eq_none_iff_forall_ne_some.mpr fun y hy => ?_
    rw [hsound y hy] at hat
    cases hat
  | some y =>
    obtain ⟨hmem, rfl⟩ := instructionAt_eq_some.mp hat
    obtain ⟨z, hz⟩ := (TextInstruction.directs y.baseAddress).exists_bsearch_of_sorted
      (qsort.pairwise_key h.follows) (hperm.mem_iff.mpr hmem) rfl
    rw [hz, ← hsound z hz, hat]

/-! ## One instruction -/

section Instruction

variable {search : BitVec 64 → Option TextInstruction} {st : AnchorState}

/-- What the immediate operands link to. -/
def immediateLinks (f : TextImage) (x : TextInstruction) : List TextInstruction :=
  (List.finRange 4).filterMap (f.immediateLink f.instructionAt x)

/-- What an anchor for the address links to. -/
def linkOf (f : TextImage) (addr : BitVec 64) : AnchorLink :=
  match f.instructionAt addr with
  | some y => .instruction y
  | none =>
    match f.findDataSection addr with
    | some s => .dataReference s (addr - s.addr)
    | none => .specialReference addr

theorem linksTo_linkOf (f : TextImage) (addr : BitVec 64) : f.LinksTo addr (f.linkOf addr) := by
  unfold linkOf
  split
  · rename_i y hy
    obtain ⟨hmem, haddr⟩ := instructionAt_eq_some.mp hy
    exact ⟨haddr, hmem⟩
  · rename_i hnone
    have hnone := instructionAt_eq_none.mp hnone
    split
    · rename_i s hs
      have htext : s.isTextSection = false ∧ s.inRange addr = true := by
        simpa using List.find?_some hs
      refine ⟨?_, hnone, List.mem_of_find?_eq_some hs, htext⟩
      show s.addr + (addr - s.addr) = addr
      rw [BitVec.add_comm, BitVec.sub_add_cancel]
    · rename_i hs
      refine ⟨rfl, hnone, fun s hmem htext => ?_⟩
      simpa [htext] using List.find?_eq_none.mp hs s hmem

/-- An immediate operand has a link if it is the address of an instruction in a function. -/
theorem isSome_immediateLink (x : TextInstruction) (j : Fin 4) :
    (f.immediateLink f.instructionAt x j).isSome = f.isLinkableImmediate x j := by
  rw [immediateLink, isLinkableImmediate, Bool.eq_iff_iff, Bool.and_eq_true, List.any_eq_true]
  split
  · rename_i htext
    simp only [htext, true_and, Option.isSome_filter, Option.any_eq_true, instructionAt_eq_some,
      Bool.and_eq_true, beq_iff_eq, and_assoc]
  · rename_i htext
    simp [htext]

theorem length_immediateLinks (x : TextInstruction) :
    (f.immediateLinks x).length = (List.finRange 4).countP (f.isLinkableImmediate x) := by
  simp only [immediateLinks, List.length_filterMap_eq_countP, isSome_immediateLink]

/-- The loop over the operands makes one anchor; a second one fails the assertion. -/
theorem anchorImmediates_eq (x : TextInstruction) :
    f.anchorImmediates f.instructionAt x =
      match f.immediateLinks x with
      | [] => some none
      | [y] => some (some ⟨x, .instruction y, true⟩)
      | _ => none := by
  have hfold : f.anchorImmediates f.instructionAt x = (f.immediateLinks x).foldlM
      (fun addressAnchor y => x.initializeAnchor addressAnchor (.instruction y) true) none := by
    rw [immediateLinks, List.foldlM_filterMap, anchorImmediates]
    congr 1
    funext addressAnchor j
    cases f.immediateLink f.instructionAt x j <;> rfl
  rw [hfold]
  match f.immediateLinks x with
  | [] => rfl
  | [y] => rfl
  | _ :: _ :: _ => rfl

/-- What becomes of an instruction, whatever the ones before it were: its anchor, if it gets
one, or a failed assertion. -/
def anchorOf (f : TextImage) (x : TextInstruction) : Option (Option TextAnchor) :=
  match f.immediateLinks x, x.usesRelativeAddress with
  | [], false => some none
  | [], true => some (some ⟨x, f.linkOf (f.relativeAddress x), false⟩)
  | [y], false => some (some ⟨x, .instruction y, true⟩)
  | [y], true =>
    if (f.instructionAt (f.relativeAddress x)).isSome then none
    else some (some ⟨x, .instruction y, true⟩)
  | _, _ => none

/-- No special reference is one for the address of an instruction. -/
def RefsApart (f : TextImage) (refs : List (BitVec 64)) : Prop :=
  ∀ addr ∈ refs, f.instructionAt addr = none

theorem RefsApart.insert {refs : List (BitVec 64)} (h : f.RefsApart refs)
    (haddr : f.instructionAt addr = none) : f.RefsApart (refs.insert addr) := fun a ha => by
  rcases List.mem_insert_iff.mp ha with rfl | ha
  · exact haddr
  · exact h a ha

/-- A relative operand of an instruction without an anchor gets the one for its address. -/
theorem anchorRelative_none (hx : x ∈ f.instructions) {refs : List (BitVec 64)}
    (hrefs : f.RefsApart refs) :
    ∃ refs', f.RefsApart refs' ∧ f.anchorRelative f.instructionAt x none refs =
      some (some ⟨x, f.linkOf (f.relativeAddress x), false⟩, refs') := by
  have hown : x.baseAddress ∉ refs := fun h => by
    have hat := hrefs x.baseAddress h
    exact instructionAt_eq_none.mp hat x hx rfl
  unfold anchorRelative linkOf
  cases hat : f.instructionAt (f.relativeAddress x) with
  | some y => exact ⟨refs, hrefs, by simp [hat]⟩
  | none =>
    cases hs : f.findDataSection (f.relativeAddress x) with
    | some s => exact ⟨refs, hrefs, by simp [hat, hs, hown]⟩
    | none => exact ⟨_, hrefs.insert hat, by simp [hat, hs, hown]⟩

/-- With an anchor, it must not be the address of an instruction. -/
theorem anchorRelative_some (x : TextInstruction) (a : TextAnchor) (refs : List (BitVec 64)) :
    f.anchorRelative f.instructionAt x (some a) refs =
      if (f.instructionAt (f.relativeAddress x)).isSome then none else some (some a, refs) := by
  unfold anchorRelative
  cases hat : f.instructionAt (f.relativeAddress x) <;> simp [hat]

/-- What becomes of an instruction does not depend on the state. -/
theorem anchorInstruction_eq (hx : x ∈ f.instructions) (hrefs : f.RefsApart st.specialDataRefs) :
    ∃ refs, f.RefsApart refs ∧ f.anchorInstruction f.instructionAt st x =
      (f.anchorOf x).map fun entry => ⟨st.addressAnchors ++ entry.toList, refs⟩ := by
  have hfresh : x.addressAnchor = none := f.fresh x hx
  rw [anchorInstruction, anchorImmediates_eq, anchorOf, hfresh]
  match hlinks : f.immediateLinks x, hrelative : x.usesRelativeAddress with
  | [], false => exact ⟨st.specialDataRefs, hrefs, by simp⟩
  | [y], false => exact ⟨st.specialDataRefs, hrefs, by simp⟩
  | [], true =>
    obtain ⟨refs, hapart, heq⟩ := anchorRelative_none hx hrefs
    exact ⟨refs, hapart, by simp [heq]⟩
  | [y], true =>
    refine ⟨st.specialDataRefs, hrefs, ?_⟩
    simp only [Option.isSome_none, Bool.false_eq_true, if_false, Option.bind_some, if_true,
      anchorRelative_some]
    split <;> rfl
  | _ :: _ :: _, _ => exact ⟨st.specialDataRefs, hrefs, by simp⟩

/-! ### Its anchor -/

theorem anchorOf_parent {a : TextAnchor} (h : f.anchorOf x = some (some a)) :
    a.linkedParent = x := by
  unfold anchorOf at h
  split at h
  · cases h
  · cases h
    rfl
  · cases h
    rfl
  · split at h
    · cases h
    · cases h
      rfl
  · cases h

/-- An anchor that is not for an immediate is the one for the relative operand. -/
theorem anchorOf_relative {a : TextAnchor} (h : f.anchorOf x = some (some a))
    (himm : a.imm = false) : a.link = f.linkOf (f.relativeAddress x) ∧
      x.usesRelativeAddress = true ∧ f.immediateLinks x = [] := by
  unfold anchorOf at h
  split at h
  · cases h
  · rename_i hlinks hrelative
    cases h
    exact ⟨rfl, hrelative, hlinks⟩
  · cases h
    cases himm
  · split at h
    · cases h
    · cases h
      cases himm
  · cases h

theorem anchoredOperands_eq (x : TextInstruction) : f.anchoredOperands x =
    (f.immediateLinks x).length + if x.usesRelativeAddress then 1 else 0 := by
  rw [anchoredOperands, length_immediateLinks]

/-- Without a second operand for an anchor, no assertion fails. -/
theorem exists_anchorOf (h : f.anchoredOperands x ≤ 1) : ∃ entry, f.anchorOf x = some entry := by
  rw [anchoredOperands_eq] at h
  rw [anchorOf]
  match hlinks : f.immediateLinks x, hrelative : x.usesRelativeAddress with
  | [], false => exact ⟨_, rfl⟩
  | [], true => exact ⟨_, rfl⟩
  | [y], false => exact ⟨_, rfl⟩
  | [y], true => simp [hlinks, hrelative] at h
  | _ :: _ :: _, _ =>
    rw [hlinks, List.length_cons, List.length_cons] at h
    omega

/-- And a relative operand has its anchor. -/
theorem anchorOf_of_usesRelativeAddress (h : f.anchoredOperands x ≤ 1)
    (hrelative : x.usesRelativeAddress = true) :
    f.anchorOf x = some (some ⟨x, f.linkOf (f.relativeAddress x), false⟩) := by
  rw [anchoredOperands_eq, if_pos hrelative] at h
  have hlinks : f.immediateLinks x = [] := List.eq_nil_of_length_eq_zero (by omega)
  rw [anchorOf, hlinks, hrelative]

/-- Without a relative operand, one immediate is anchored at most. -/
theorem length_immediateLinks_le {entry : Option TextAnchor} (h : f.anchorOf x = some entry)
    (hrelative : x.usesRelativeAddress = false) : (f.immediateLinks x).length ≤ 1 := by
  rw [anchorOf, hrelative] at h
  match hlinks : f.immediateLinks x with
  | [] => exact Nat.zero_le 1
  | [y] => exact Nat.le_refl 1
  | _ :: _ :: _ =>
    rw [hlinks] at h
    cases h

/-- The size is added once too often in a 32-bit file, unless for a direct control transfer. -/
theorem relativeAddress_eq_iff (hx : x ∈ f.instructions) :
    f.relativeAddress x = x.relativeTarget ↔
      (f.is64Bit = false → x.isControl = true ∧ x.usesIndirectAddress = false) := by
  have hsized : ¬ x.sizeInBytes = 0#64 := f.sized x hx
  have htarget : x.getRelativeValue + x.baseAddress + x.sizeInBytes = x.relativeTarget := by
    rw [TextInstruction.relativeTarget, BitVec.add_assoc, BitVec.add_comm]
  unfold relativeAddress
  simp only [htarget]
  cases f.is64Bit <;> cases x.isControl <;> cases x.usesIndirectAddress <;> simp [hsized]

end Instruction

/-! ## All instructions -/

section All

variable {qsort : Qsort TextInstruction.compareBaseAddress} {l : List TextInstruction}
  {st : AnchorState} {entries : List (Option TextAnchor)}

/-- The loop collects what becomes of the instructions. -/
theorem foldlM_anchorInstruction (hl : ∀ x ∈ l, x ∈ f.instructions)
    (hrefs : f.RefsApart st.specialDataRefs) :
    ∃ refs, l.foldlM (f.anchorInstruction f.instructionAt) st =
      (l.mapM f.anchorOf).map fun entries =>
        ⟨st.addressAnchors ++ entries.reduceOption, refs⟩ := by
  induction l generalizing st with
  | nil => exact ⟨st.specialDataRefs, by simp⟩
  | cons x l ih =>
    obtain ⟨hx, hl⟩ := List.forall_mem_cons.mp hl
    obtain ⟨refs, hapart, hstep⟩ := anchorInstruction_eq hx hrefs
    rw [List.foldlM_cons, hstep, List.mapM_cons]
    cases f.anchorOf x with
    | none => exact ⟨[], rfl⟩
    | some entry =>
      obtain ⟨refs', hrest⟩ := @ih ⟨st.addressAnchors ++ entry.toList, refs⟩ hl hapart
      refine ⟨refs', ?_⟩
      simp only [Option.map_some, Option.bind_eq_bind, Option.bind_some, hrest]
      cases l.mapM f.anchorOf with
      | none => rfl
      | some entries => cases entry <;> simp [List.reduceOption]

/-- The anchors are those of the instructions, in the order of the sort. -/
theorem anchorProgramElements_eq (qsort : Qsort TextInstruction.compareBaseAddress)
    (h : f.Comparable) (hnonzero : ∀ x ∈ f.instructions, x.baseAddress ≠ 0) :
    ∃ refs, f.anchorProgramElements qsort =
      ((qsort.sort f.instructions).mapM f.anchorOf).map fun entries =>
        ⟨entries.reduceOption, refs⟩ := by
  have hmem : ∀ x ∈ qsort.sort f.instructions, x ∈ f.instructions := fun x hx =>
    (qsort.perm _).mem_iff.mp hx
  have hany : (qsort.sort f.instructions).any (·.baseAddress == 0) = false := by
    simpa using fun x hx => hnonzero x (hmem x hx)
  have hrefs : f.RefsApart [0] := by
    intro addr haddr
    rw [List.mem_singleton.mp haddr]
    exact instructionAt_eq_none.mpr hnonzero
  obtain ⟨refs, heq⟩ := @foldlM_anchorInstruction f _ ⟨[], [0]⟩ hmem hrefs
  refine ⟨refs, ?_⟩
  unfold anchorProgramElements
  simp only [search_eq h qsort, hany]
  simpa using heq

/-- An instruction has at most one anchor. -/
theorem sublist_parents (h : l.mapM f.anchorOf = some entries) :
    entries.reduceOption.map (·.linkedParent.baseAddress) <+ l.map (·.baseAddress) := by
  induction mapM_eq_some_iff.mp h with
  | nil => exact .slnil
  | @cons x entry l entries hentry hrest ih =>
    have ih := ih (mapM_eq_some_iff.mpr hrest)
    cases entry with
    | none => exact ih.cons _
    | some a =>
      have hparent : a.linkedParent = x := anchorOf_parent hentry
      simpa [List.reduceOption, hparent] using ih

theorem baseAddress_ne_zero (hrun : f.anchorProgramElements qsort = some st)
    (hx : x ∈ f.instructions) : x.baseAddress ≠ 0 := fun hzero => by
  have hany : (qsort.sort f.instructions).any (·.baseAddress == 0) = true :=
    List.any_eq_true.mpr ⟨x, (qsort.perm _).mem_iff.mpr hx, by simp [hzero]⟩
  rw [anchorProgramElements, if_pos hany] at hrun
  cases hrun

/-- Right anchors are only made of a file that meets the condition. -/
theorem Anchored.anchorable (h : f.Comparable) (hrun : f.anchorProgramElements qsort = some st)
    (hanchored : f.Anchored st.addressAnchors) : f.Anchorable := by
  have hnonzero : ∀ x ∈ f.instructions, x.baseAddress ≠ 0 := fun x => baseAddress_ne_zero hrun
  obtain ⟨refs, heq⟩ := anchorProgramElements_eq qsort h hnonzero
  rw [heq] at hrun
  obtain ⟨entries, hentries, rfl⟩ := Option.map_eq_some_iff.mp hrun
  -- every relative operand has the anchor made for it, and that is the right one
  have hrelative : ∀ x ∈ f.instructions, x.usesRelativeAddress = true →
      f.immediateLinks x = [] ∧ f.relativeAddress x = x.relativeTarget := fun x hx hx' => by
    obtain ⟨link, hmem, hlink, -⟩ := hanchored.relative x hx hx'
    obtain ⟨y, -, hy⟩ := (mem_mapM_iff hentries).mp (List.reduceOption_mem_iff.mp hmem)
    obtain rfl : x = y := anchorOf_parent hy
    obtain ⟨rfl, -, hlinks⟩ := anchorOf_relative hy rfl
    exact ⟨hlinks, (linksTo_linkOf f (f.relativeAddress x)).1.symm.trans hlink⟩
  refine ⟨hnonzero, fun x hx => ?_, fun x hx hx' => ?_⟩
  · rw [anchoredOperands_eq]
    cases hx' : x.usesRelativeAddress with
    | true => simp [(hrelative x hx hx').1]
    | false =>
      obtain ⟨entry, -, hentry⟩ := exists_of_mem_mapM hentries ((qsort.perm _).mem_iff.mpr hx)
      simpa using length_immediateLinks_le hentry hx'
  · exact (relativeAddress_eq_iff hx).mp (hrelative x hx hx').2

/-- In such a file, an anchor that is not for an immediate has the wanted link. -/
theorem Anchorable.link_eq {a : TextAnchor} (hf : f.Anchorable) (hx : x ∈ f.instructions)
    (ha : f.anchorOf x = some (some a)) (himm : a.imm = false) :
    a.link = f.linkOf x.relativeTarget := by
  obtain ⟨hlink, hrelative, -⟩ := anchorOf_relative ha himm
  rw [hlink, (relativeAddress_eq_iff hx).mpr (hf.direct x hx hrelative)]

/-- The anchors of a file that meets the condition are right. -/
theorem Anchorable.anchored (h : f.Comparable) (hf : f.Anchorable) :
    ∃ st, f.anchorProgramElements qsort = some st ∧ f.Anchored st.addressAnchors := by
  have hperm := qsort.perm f.instructions
  obtain ⟨refs, heq⟩ := anchorProgramElements_eq qsort h hf.nonzero
  obtain ⟨entries, hentries⟩ : ∃ entries,
      (qsort.sort f.instructions).mapM f.anchorOf = some entries :=
    exists_mapM fun x hx => exists_anchorOf (hf.single x (hperm.mem_iff.mp hx))
  have hmem : ∀ a, a ∈ entries.reduceOption ↔
      ∃ x ∈ qsort.sort f.instructions, f.anchorOf x = some (some a) := fun a =>
    List.reduceOption_mem_iff.trans (mem_mapM_iff hentries)
  rw [heq, hentries]
  refine ⟨_, rfl, ?_, fun x hx hx' => ?_, fun x y off hxmem hymem => ?_⟩
  · have hdistinct : ((qsort.sort f.instructions).map (·.baseAddress)).Nodup :=
      (hperm.map _).nodup_iff.mpr f.distinct
    exact hdistinct.sublist (sublist_parents hentries)
  · have hanchor := anchorOf_of_usesRelativeAddress (hf.single x hx) hx'
    refine ⟨_, (hmem _).mpr ⟨x, hperm.mem_iff.mpr hx, hanchor⟩, ?_⟩
    rw [(relativeAddress_eq_iff hx).mpr (hf.direct x hx hx')]
    exact linksTo_linkOf f x.relativeTarget
  · -- the address of a special reference is the one its instructions refer to
    have htarget : ∀ z, ⟨z, .specialReference off, false⟩ ∈ entries.reduceOption →
        z.relativeTarget = off := fun z hz => by
      obtain ⟨z', hz', hentry⟩ := (hmem _).mp hz
      obtain rfl : z = z' := anchorOf_parent hentry
      have hlink := hf.link_eq (hperm.mem_iff.mp hz') hentry rfl
      rw [← (linksTo_linkOf f z.relativeTarget).1, ← hlink]
      rfl
    rw [htarget x hxmem, htarget y hymem]

/-- Where the sort follows the addresses, the anchors are right if and only if no instruction is
at address 0 or has two operands for an anchor, and a 32-bit file uses relative addresses in
direct control transfers only. -/
theorem anchored_iff (f : TextImage) (qsort : Qsort TextInstruction.compareBaseAddress)
    (h : f.Comparable) :
    (∃ st, f.anchorProgramElements qsort = some st ∧ f.Anchored st.addressAnchors) ↔
      f.Anchorable :=
  ⟨fun ⟨_, hrun, hanchored⟩ => hanchored.anchorable h hrun, fun hf => hf.anchored h⟩

/-! ### Two files -/

/-- A `mov` of `size` bytes at 0x401000 with two operands, in a function that starts there. -/
def movAt401000 (size : BitVec 64) (dest src : OperandX86) (lval : BitVec 64) :
    TextInstruction where
  mnemonic := .other 0
  itype := .move
  format := .unknown
  operands := fun | 0 => some dest | 1 => some src | _ => none
  flagsUse := 0
  flagsDef := 0
  impregUse := 0
  impregDef := 0
  container := ⟨0x401000, 0x20⟩
  baseAddress := 0x401000
  sizeInBytes := size
  addressAnchor := none
  scale := fun _ => 0
  offset := fun _ => 0
  lval := fun | 1 => lval | _ => 0
  inFunction := true

/-- The `ret` behind it. -/
def retBehind (size : BitVec 64) : TextInstruction where
  mnemonic := .other 1
  itype := .ret
  format := .unknown
  operands := fun _ => none
  flagsUse := 0
  flagsDef := 0
  impregUse := 0
  impregDef := 0
  container := ⟨0x401000, 0x20⟩
  baseAddress := 0x401000 + size
  sizeInBytes := 1
  addressAnchor := none
  scale := fun _ => 0
  offset := fun _ => 0
  lval := fun _ => 0
  inFunction := true

/-- `mov (%rip), %rax` of an address in `.bss`, and `ret`. -/
def loadFile : TextImage where
  is64Bit := true
  dotText := ⟨true, 0x401000, 0x20⟩
  sections := [⟨true, 0x401000, 0x20⟩, ⟨false, 0x402000, 0x100⟩]
  textSections := [[movAt401000 7 ⟨.reg, udRRax, 0, 0⟩ ⟨.mem, Register.rip.ud, 0, 0xff9⟩ 0xff9,
    retBehind 7]]
  fresh := by decide
  sized := by decide
  distinct := by decide

/-- Its load is anchored. -/
theorem anchored_iff_load : loadFile.Comparable ∧ loadFile.Anchorable ∧
    ∃ st, loadFile.anchorProgramElements (insertionQsort _) = some st ∧
      loadFile.Anchored st.addressAnchors := by
  have hcomparable : loadFile.Comparable := by
    unfold Comparable
    decide
  have hanchorable : loadFile.Anchorable :=
    { nonzero := by decide
      single := by decide
      direct := by decide }
  exact ⟨hcomparable, hanchorable, (anchored_iff _ _ hcomparable).mpr hanchorable⟩

/-- `movq` of the address of the `ret` behind it to `.bss`. -/
def storeFile : TextImage where
  is64Bit := true
  dotText := ⟨true, 0x401000, 0x20⟩
  sections := [⟨true, 0x401000, 0x20⟩, ⟨false, 0x402000, 0x100⟩]
  textSections := [[movAt401000 11 ⟨.mem, Register.rip.ud, 0, 0xff5⟩ ⟨.imm, 0, 0, 0x40100b⟩
    0x40100b, retBehind 11]]
  fresh := by decide
  sized := by decide
  distinct := by decide

/-- The only anchor of that `movq` is the one for its immediate. -/
theorem not_anchored_store : ¬ ∃ st,
    storeFile.anchorProgramElements (insertionQsort _) = some st ∧
      storeFile.Anchored st.addressAnchors := by
  rintro ⟨st, hrun, hanchored⟩
  have hanchors : (storeFile.anchorProgramElements (insertionQsort _)).map
      (fun st => st.addressAnchors.map (·.imm)) = some [true] := by decide
  rw [hrun, Option.map_some, Option.some.injEq] at hanchors
  obtain ⟨link, hmem, -⟩ := hanchored.relative _ List.mem_cons_self (by decide)
  have himm := List.mem_map_of_mem (f := (·.imm)) hmem
  rw [hanchors] at himm
  cases List.mem_singleton.mp himm

end All

end TextImage

end Pebil

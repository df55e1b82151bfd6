import Pebil.Instrumentation.BloatBlock
import Pebil.Instrumentation.PointLayout
import Pebil.Lib.Runs
import Mathlib.Data.Prod.Lex

/-!
# The order of the points (src/Instrumentation.C:166–199)

Sorted by `compareInstBaseAddress`, the points of a function are in the order of its blocks
and instructions, and for one instruction in the order of their locations and priorities
(`sorted_before`). So the points of a block are sorted for `bloat`, with prior points first,
and the points of an instruction are a run.
-/

namespace Pebil

variable {ℓ : Type*}

/-- The bytes that a block can have after it was bloated, apart from its nops: a converted
branch has six bytes at most, or those that it had. -/
def FunctionBlock.convertedBound : FunctionBlock ℓ → Nat
  | .basic instructions => (instructions.map fun x => max 6 x.sizeInBytes).sum
  | .raw rawBytes => rawBytes.length

/-- A function with points on its instructions, and the address that it is moved to. -/
structure InstrumentedFunction (ℓ : Type*) where
  programAddress : BitVec 64
  baseAddress : BitVec 64
  blocks : List (FunctionBlock ℓ)
  instPoints : List FunctionPoint
  instructionSized : ∀ b ∈ blocks, ∀ x ∈ b.instructions, 0 < x.sizeInBytes
  onInstruction : ∀ p ∈ instPoints, p.index < (blocks.getD p.block (.raw [])).instructions.length
  pointSized : ∀ p ∈ instPoints, 0 < p.numberOfBytes
  programFits : programAddress.toNat + (blocks.map FunctionBlock.numberOfBytes).sum ≤ 2 ^ 64
  /-- There is room for the bloated function, and it is smaller than 2 GiB. -/
  fits : baseAddress.toNat + ((blocks.map FunctionBlock.convertedBound).sum +
    (instPoints.map FunctionPoint.numberOfBytes).sum) < 2 ^ 64
  small : (blocks.map FunctionBlock.convertedBound).sum +
    (instPoints.map FunctionPoint.numberOfBytes).sum < 2 ^ 31

namespace InstrumentedFunction

variable (f : InstrumentedFunction ℓ)

/-- The points in the order in which both passes take them. -/
def sorted : List FunctionPoint := sortPoints f.programAddress f.blocks f.instPoints

/-- The points of a block, in their order. -/
def blockPoints (k : Nat) : List FunctionPoint := f.sorted.filter (·.block == k)

/-- `bloatBasicBlocks` with the points of each block. -/
def bloat (u : Disassembler) : Option (List (PlacedBlock ℓ)) :=
  bloatBasicBlocks u f.baseAddress 0 0 f.blocks (instPointsPerBlock f.sorted 0 f.blocks)

/-- A point on an instruction of the function. -/
def On (p : FunctionPoint) : Prop :=
  p.index < (f.blocks.getD p.block (.raw [])).instructions.length

end InstrumentedFunction

namespace FunctionPoint

/-- The instruction of a point, by its block and its place in it. -/
def source (p : FunctionPoint) : ℕ ×ₗ ℕ := toLex (p.block, p.index)

theorem source_le_iff {p q : FunctionPoint} : p.source ≤ q.source ↔
    p.block < q.block ∨ p.block = q.block ∧ p.index ≤ q.index := Prod.Lex.toLex_le_toLex

theorem source_lt_iff {p q : FunctionPoint} : p.source < q.source ↔
    p.block < q.block ∨ p.block = q.block ∧ p.index < q.index := Prod.Lex.toLex_lt_toLex

theorem source_eq_iff {p q : FunctionPoint} : p.source = q.source ↔
    p.block = q.block ∧ p.index = q.index := by
  unfold source
  rw [toLex_inj, Prod.mk.injEq]

theorem sameObject_eq : sameObject = fun p q => decide (p.source = q.source) := by
  funext p q
  rw [Bool.eq_iff_iff, decide_eq_true_iff, source_eq_iff]
  simp [sameObject]

/-- The order of the points: by instruction, location and priority. -/
def Before (p q : FunctionPoint) : Prop :=
  p.source < q.source ∨ p.source = q.source ∧
    (p.instLocation.code < q.instLocation.code ∨
      p.instLocation.code = q.instLocation.code ∧ p.priority ≤ q.priority)

theorem Before.source_le {p q : FunctionPoint} (h : p.Before q) : p.source ≤ q.source :=
  h.elim le_of_lt fun h => h.1.le

end FunctionPoint

/-! ## The comparison -/

section Compare

variable {programAddress : BitVec 64} {blocks : List (FunctionBlock ℓ)} {p q : FunctionPoint}

/-- The comparison is that of the address, the location and the priority, in this order. -/
theorem compareInstBaseAddress_le : compareInstBaseAddress programAddress blocks p q ≤ 0 ↔
    (getInstBaseAddress programAddress blocks p).toNat <
      (getInstBaseAddress programAddress blocks q).toNat ∨
    (getInstBaseAddress programAddress blocks p).toNat =
      (getInstBaseAddress programAddress blocks q).toNat ∧
      (p.instLocation.code < q.instLocation.code ∨
        p.instLocation.code = q.instLocation.code ∧ p.priority ≤ q.priority) := by
  unfold compareInstBaseAddress
  simp only [BitVec.lt_def]
  split_ifs <;> omega

theorem sortPoints_pairwise (points : List FunctionPoint) :
    (sortPoints programAddress blocks points).Pairwise fun p q =>
      compareInstBaseAddress programAddress blocks p q ≤ 0 := by
  have hsorted : (sortPoints programAddress blocks points).Pairwise fun p q =>
      decide (compareInstBaseAddress programAddress blocks p q ≤ 0) = true :=
    List.pairwise_mergeSort (fun p q r hpq hqr => by
      simp only [decide_eq_true_eq, compareInstBaseAddress_le] at hpq hqr ⊢
      omega)
    (fun p q => by
      simp only [Bool.or_eq_true, decide_eq_true_eq, compareInstBaseAddress_le]
      omega) points
  exact hsorted.imp fun h => of_decide_eq_true h

end Compare

namespace InstrumentedFunction

variable {f : InstrumentedFunction ℓ} {p q : FunctionPoint} {k : Nat}

/-- The distance of the instruction of a point from the start of the function. -/
def programOffset (f : InstrumentedFunction ℓ) (p : FunctionPoint) : Nat :=
  ((f.blocks.take p.block).map FunctionBlock.numberOfBytes).sum +
    instructionOffset (f.blocks.getD p.block (.raw [])).instructions p.index

theorem exists_block (hp : f.On p) : ∃ instructions, f.blocks[p.block]? = some (.basic instructions) ∧
    p.index < instructions.length := by
  unfold On at hp
  rw [List.getD_eq_getElem?_getD] at hp
  cases hb : f.blocks[p.block]? with
  | none => simp [hb, FunctionBlock.instructions] at hp
  | some b =>
    cases b with
    | basic instructions =>
      rw [hb, Option.getD_some] at hp
      exact ⟨instructions, rfl, hp⟩
    | raw rawBytes => simp [hb, FunctionBlock.instructions] at hp

theorem sum_take_succ {b : FunctionBlock ℓ} {g : FunctionBlock ℓ → Nat} {blocks : List (FunctionBlock ℓ)}
    (hb : blocks[k]? = some b) :
    ((blocks.take (k + 1)).map g).sum = ((blocks.take k).map g).sum + g b := by
  rw [List.take_add_one, hb, Option.toList_some, List.map_append, List.sum_append,
    List.map_singleton, List.sum_singleton]

theorem sum_take_le {blocks : List (FunctionBlock ℓ)} {g : FunctionBlock ℓ → Nat} {i j : Nat}
    (hij : i ≤ j) : ((blocks.take i).map g).sum ≤ ((blocks.take j).map g).sum := by
  obtain ⟨d, rfl⟩ := Nat.exists_eq_add_of_le hij
  rw [List.take_add, List.map_append, List.sum_append]
  exact Nat.le_add_right _ _

/-- The instruction of a point ends before its block does. -/
theorem programOffset_bounds (hp : f.On p) :
    ((f.blocks.take p.block).map FunctionBlock.numberOfBytes).sum ≤ f.programOffset p ∧
      f.programOffset p < ((f.blocks.take (p.block + 1)).map FunctionBlock.numberOfBytes).sum := by
  obtain ⟨instructions, hb, hindex⟩ := exists_block hp
  have hsized := f.instructionSized _ (List.mem_of_getElem? hb)
  have hlt := instructionOffset_lt hsized hindex hindex
  have hlength : instructionOffset instructions instructions.length =
      (FunctionBlock.basic instructions).numberOfBytes := by
    rw [instructionOffset, List.take_length, FunctionBlock.numberOfBytes]
  unfold programOffset
  rw [List.getD_eq_getElem?_getD, hb, Option.getD_some, sum_take_succ hb]
  refine ⟨Nat.le_add_right _ _, ?_⟩
  rw [← hlength]
  exact Nat.add_lt_add_left hlt _

/-- A later instruction has a greater offset. -/
theorem programOffset_lt (hp : f.On p) (hq : f.On q) (h : p.source < q.source) :
    f.programOffset p < f.programOffset q := by
  rcases FunctionPoint.source_lt_iff.mp h with hblock | ⟨hblock, hindex⟩
  · have hlt := (programOffset_bounds hp).2
    have hle := (programOffset_bounds hq).1
    have hmono : ((f.blocks.take (p.block + 1)).map FunctionBlock.numberOfBytes).sum ≤
        ((f.blocks.take q.block).map FunctionBlock.numberOfBytes).sum := sum_take_le hblock
    omega
  · obtain ⟨instructions, hb, hlength⟩ := exists_block hp
    have hsized := f.instructionSized _ (List.mem_of_getElem? hb)
    unfold programOffset
    rw [← hblock, List.getD_eq_getElem?_getD, hb, Option.getD_some]
    exact Nat.add_lt_add_left (instructionOffset_lt hsized hlength hindex) _

theorem toNat_getInstBaseAddress (hp : f.On p) :
    (getInstBaseAddress f.programAddress f.blocks p).toNat =
      f.programAddress.toNat + f.programOffset p := by
  have hlt := (programOffset_bounds hp).2
  have hle : ((f.blocks.take (p.block + 1)).map FunctionBlock.numberOfBytes).sum ≤
      (f.blocks.map FunctionBlock.numberOfBytes).sum := by
    conv => rhs; rw [← List.take_append_drop (p.block + 1) f.blocks]
    rw [List.map_append, List.sum_append]
    exact Nat.le_add_right _ _
  have hfits := f.programFits
  have heq : getInstBaseAddress f.programAddress f.blocks p =
      f.programAddress + BitVec.ofNat 64 (f.programOffset p) := rfl
  rw [heq, BitVec.toNat_add, BitVec.toNat_ofNat, Nat.add_mod_mod, Nat.mod_eq_of_lt (by omega)]

theorem sorted_perm (f : InstrumentedFunction ℓ) : f.sorted.Perm f.instPoints :=
  List.mergeSort_perm _ _

theorem on_of_mem_sorted (hp : p ∈ f.sorted) : f.On p :=
  f.onInstruction p (f.sorted_perm.mem_iff.mp hp)

/-- The points are sorted by instruction, location and priority. -/
theorem sorted_before (f : InstrumentedFunction ℓ) :
    f.sorted.Pairwise FunctionPoint.Before := by
  refine List.Pairwise.imp_of_mem ?_ (sortPoints_pairwise f.instPoints)
  intro p q hp hq hle
  have honp := on_of_mem_sorted hp
  have honq := on_of_mem_sorted hq
  rw [compareInstBaseAddress_le, toNat_getInstBaseAddress honp,
    toNat_getInstBaseAddress honq] at hle
  rcases lt_trichotomy p.source q.source with hlt | heq | hgt
  · exact .inl hlt
  · obtain ⟨hblock, hindex⟩ := FunctionPoint.source_eq_iff.mp heq
    have hsame : f.programOffset p = f.programOffset q := by
      rw [programOffset, programOffset, hblock, hindex]
    exact .inr ⟨heq, by omega⟩
  · have := programOffset_lt honq honp hgt
    omega

theorem sorted_source (f : InstrumentedFunction ℓ) :
    f.sorted.Pairwise fun p q => p.source ≤ q.source :=
  f.sorted_before.imp fun h => h.source_le

/-! ## The points of a block -/

theorem mem_blockPoints : p ∈ f.blockPoints k ↔ p ∈ f.sorted ∧ p.block = k := by
  unfold blockPoints
  rw [List.mem_filter, beq_iff_eq]

theorem blockPoints_before (k : Nat) : (f.blockPoints k).Pairwise FunctionPoint.Before :=
  List.Pairwise.filter _ f.sorted_before

/-- The points of a block are sorted for `bloat`. -/
theorem blockPoints_index (k : Nat) :
    ((f.blockPoints k).map FunctionPoint.expansion).Pairwise fun p q => p.index ≤ q.index := by
  rw [List.pairwise_map]
  refine List.Pairwise.imp_of_mem ?_ (blockPoints_before k)
  intro p q hp hq h
  have hp := (mem_blockPoints.mp hp).2
  have hq := (mem_blockPoints.mp hq).2
  rcases FunctionPoint.source_le_iff.mp h.source_le with hlt | ⟨-, hle⟩
  · omega
  · exact hle

/-- The prior points of an instruction come before those behind it. -/
theorem blockPoints_priorFirst (k : Nat) :
    PriorFirst ((f.blockPoints k).map FunctionPoint.expansion) := by
  unfold PriorFirst
  rw [List.pairwise_map]
  refine List.Pairwise.imp_of_mem ?_ (blockPoints_before k)
  intro p q hp hq h hafter _ hindex hprior
  have hblock := (mem_blockPoints.mp hp).2.trans (mem_blockPoints.mp hq).2.symm
  have hafter : p.instLocation = .after := hafter
  have hprior : q.instLocation = .prior := hprior
  have hindex : q.index = p.index := hindex
  rcases h with hlt | ⟨-, hcode⟩
  · have := FunctionPoint.source_lt_iff.mp hlt
    omega
  · rw [hafter, hprior] at hcode
    simp [InstLocation.code] at hcode

theorem blockPoints_inside {instructions : List (ProgramInstruction ℓ)}
    (hb : f.blocks[k]? = some (.basic instructions)) :
    ∀ p ∈ (f.blockPoints k).map FunctionPoint.expansion, p.index < instructions.length := by
  intro e he
  obtain ⟨p, hp, rfl⟩ := List.mem_map.mp he
  obtain ⟨hsorted, rfl⟩ := mem_blockPoints.mp hp
  obtain ⟨instructions', hb', hindex⟩ := exists_block (on_of_mem_sorted hsorted)
  obtain rfl : instructions' = instructions := by
    rw [hb] at hb'
    cases hb'
    rfl
  exact hindex

end InstrumentedFunction

end Pebil

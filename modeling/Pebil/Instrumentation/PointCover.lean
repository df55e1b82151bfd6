import Pebil.Instrumentation.PointRooms

/-!
# What the rooms cover (src/BasicBlock.C:244–307, src/ElfFileInst.C:1165–1217)

If behind a replacement there is at most one nop, then a gap of a bloated block has the nops
of the points behind the instruction in front of it and then those of the points before the
one behind it (`Bloated.slot_eq`). So the rooms of an instruction lie within the gaps around
it, those of later instructions behind those of earlier ones (`Bloated.hi_le_lo`), and each
is made of the nops of its own point (`Bloated.exists_room`).
-/

namespace Pebil

variable {ℓ : Type*}

/-- The nops for some points, in the order in which they stand. -/
def nopsOf (points : List FunctionPoint) : List Nop :=
  points.flatMap fun p => p.expansion.nops.reverse

section Nops

variable {front back : List FunctionPoint} {p : FunctionPoint}

theorem nopsOf_append : nopsOf (front ++ back) = nopsOf front ++ nopsOf back :=
  List.flatMap_append

theorem sum_nopsOf (points : List FunctionPoint) :
    ((nopsOf points).map Nop.length).sum = pointBytes points := by
  induction points with
  | nil => rfl
  | cons p points ih =>
    have hp := p.expansion.sum_nops
    rw [← List.sum_reverse, ← List.map_reverse] at hp
    rw [nopsOf, List.flatMap_cons, List.map_append, List.sum_append, hp]
    exact congrArg (p.expansion.numberOfBytes + ·) ih

end Nops

namespace InstrumentedFunction

variable {f : InstrumentedFunction ℓ} {u : Disassembler} {codes : List (BlockCodes ℓ)}
  {k g i : Nat} {p : FunctionPoint} {l : List (BlockCode ℓ)}
  {instructions : List (ProgramInstruction ℓ)}

variable (f) in
/-- The points before an instruction. -/
def priors (k i : Nat) : List FunctionPoint :=
  (f.blockPoints k).filter fun p => p.instLocation == .prior && p.index == i

variable (f) in
/-- The points behind the instruction in front of a gap. -/
def afters (k g : Nat) : List FunctionPoint :=
  (f.blockPoints k).filter fun p => p.instLocation == .after && p.index + 1 == g

variable (f) in
/-- Behind a point with bytes for a replacement there is at most one nop for its block. -/
def ReplaceLast : Prop :=
  ∀ k, Pebil.ReplaceLast ((f.blockPoints k).map FunctionPoint.expansion)

/-- The code of the function, bloated with its points. -/
structure Bloated (f : InstrumentedFunction ℓ) (u : Disassembler) (codes : List (BlockCodes ℓ)) :
    Prop where
  length_eq : codes.length = f.blocks.length
  block : ∀ k b, f.blocks[k]? = some b → ∃ c, codes[k]? = some c ∧
    BlockBloated u ((f.blockPoints k).map FunctionPoint.expansion) b c
  replaceLast : f.ReplaceLast

theorem exists_bloated {out : List (PlacedBlock ℓ)} (hout : f.bloat u = some out)
    (hlast : f.ReplaceLast) :
    ∃ codes, out = layBlocks f.baseAddress 0 codes ∧ Bloated f u codes := by
  obtain ⟨codes, hcodes, hlength, hblocks⟩ := bloatBasicBlocks_eq_some hout
  refine ⟨codes, hcodes, hlength, fun k b hb => ?_, hlast⟩
  obtain ⟨c, hc, hbloated⟩ := hblocks k b hb
  rw [Nat.zero_add] at hbloated
  exact ⟨c, hc, hbloated⟩

/-- The points of a gap: those behind the instruction in front of it, then those before the
one behind it. -/
theorem filter_slot (k g : Nat) :
    (((f.blockPoints k).map FunctionPoint.expansion).filter fun e => e.slot = some g) =
      (f.afters k g ++ f.priors k g).map FunctionPoint.expansion := by
  rw [List.filter_map]
  congr 1
  have hslot : ((fun e : ExpansionPoint => decide (e.slot = some g)) ∘ FunctionPoint.expansion) =
      fun p => (p.instLocation == .after && p.index + 1 == g) ||
        (p.instLocation == .prior && p.index == g) := by
    funext p
    obtain ⟨block, index, instLocation, priority, mode⟩ := p
    rw [Bool.eq_iff_iff]
    cases instLocation <;> simp [ExpansionPoint.slot, FunctionPoint.expansion]
  have hpairwise : (f.blockPoints k).Pairwise fun p q => p.Before q ∧ p.block = q.block :=
    (blockPoints_before k).imp_of_mem fun hp hq h =>
      ⟨h, (mem_blockPoints.mp hp).2.trans (mem_blockPoints.mp hq).2.symm⟩
  rw [hslot]
  refine Runs.filter_or_of_pairwise hpairwise ?_ ?_
  · -- a point before the instruction behind is not followed by one behind the other
    rintro p q ⟨h, hblock⟩ hp
    rw [Bool.and_eq_true, beq_iff_eq, beq_iff_eq] at hp
    rw [Bool.and_eq_false_iff, beq_eq_false_iff_ne, beq_eq_false_iff_ne]
    refine .inr ?_
    rcases FunctionPoint.source_le_iff.mp h.source_le with hlt | ⟨-, hle⟩ <;> omega
  · intro p hp
    rw [Bool.and_eq_true, beq_iff_eq] at hp
    rw [hp.1]
    rfl

namespace Bloated

variable (h : Bloated f u codes)

include h

theorem exists_code (hb : f.blocks[k]? = some (.basic instructions)) :
    ∃ l, codes[k]? = some (.inl l) ∧
      List.Forall₂ (fun x x' => x.convertBranch u = some x') instructions (Slots.items l) ∧
      ∀ g, Slots.slot g l = nopsOf (f.afters k g ++ f.priors k g) := by
  obtain ⟨c, hc, hbloated⟩ := h.block k _ hb
  cases c with
  | inr rawBytes => exact hbloated.elim
  | inl l =>
    obtain ⟨hitems, hslots⟩ := hbloated
    refine ⟨l, hc, hitems, fun g => ?_⟩
    rw [hslots, slot_expanded (blockPoints_inside hb) (blockPoints_index k) (h.replaceLast k)
      (blockPoints_priorFirst k), wantedNops, filter_slot, List.flatMap_map]
    rfl

/-- The block of a point and its instruction there. -/
theorem exists_item (hp : f.On p) : ∃ l x, codes[p.block]? = some (.inl l) ∧
    (Slots.items l)[p.index]? = some x ∧
      ∀ g, Slots.slot g l = nopsOf (f.afters p.block g ++ f.priors p.block g) := by
  obtain ⟨instructions, hb, hindex⟩ := exists_block hp
  obtain ⟨l, hl, hitems, hslots⟩ := h.exists_code hb
  have hlt : p.index < (Slots.items l).length := by rwa [← hitems.length_eq]
  exact ⟨l, _, hl, List.getElem?_eq_getElem hlt, hslots⟩

end Bloated

theorem gapBytes_eq (hslots : ∀ g, Slots.slot g l = nopsOf (f.afters k g ++ f.priors k g)) (g : Nat) :
    gapBytes l g = pointBytes (f.afters k g) + pointBytes (f.priors k g) := by
  rw [gapBytes, hslots, sum_nopsOf, pointBytes_append]

/-! ## The size of the function -/

theorem pointBytes_filter_succ (points : List FunctionPoint) (k : Nat) :
    pointBytes (points.filter fun p => decide (p.block < k + 1)) =
      pointBytes (points.filter fun p => decide (p.block < k)) +
        pointBytes (points.filter (·.block == k)) := by
  induction points with
  | nil => rfl
  | cons p points ih =>
    rcases Nat.lt_trichotomy p.block k with hlt | heq | hgt
    · have hne : (p.block == k) = false := beq_eq_false_iff_ne.mpr (by omega)
      have hsucc : p.block < k + 1 := by omega
      simp only [List.filter_cons, decide_eq_true hsucc, decide_eq_true hlt, hne, if_true,
        pointBytes_cons, ih, Bool.false_eq_true, if_false]
      omega
    · have hnot : ¬ p.block < k := by omega
      have hsucc : p.block < k + 1 := by omega
      simp only [List.filter_cons, decide_eq_true hsucc, decide_eq_false hnot,
        beq_iff_eq.mpr heq, if_true, pointBytes_cons, ih, Bool.false_eq_true, if_false]
      omega
    · have hne : (p.block == k) = false := beq_eq_false_iff_ne.mpr (by omega)
      have hnot : ¬ p.block < k := by omega
      have hsucc : ¬ p.block < k + 1 := by omega
      simp only [List.filter_cons, decide_eq_false hsucc, decide_eq_false hnot, hne, ih,
        Bool.false_eq_true, if_false]

theorem codeExtent_eq (l : List (BlockCode ℓ)) : codeExtent l =
    ((Slots.items l).map ProgramInstruction.sizeInBytes).sum + Slots.total Nop.length l := by
  induction l with
  | nil => rfl
  | cons c l ih =>
    unfold codeExtent at ih ⊢
    rw [List.map_cons, List.sum_cons, ih]
    cases c
    · simp only [BlockCode.sizeInBytes, Slots.items, Slots.total, List.map_cons, List.sum_cons]
      omega
    · simp only [BlockCode.sizeInBytes, Slots.items, Slots.total]
      omega

theorem sum_converted_le {converted : List (ProgramInstruction ℓ)}
    (h : List.Forall₂ (fun x x' => x.convertBranch u = some x') instructions converted) :
    (converted.map ProgramInstruction.sizeInBytes).sum ≤
      (instructions.map fun x => max 6 x.sizeInBytes).sum := by
  induction h with
  | nil => rfl
  | cons hx _ ih =>
    have := (ProgramInstruction.sizeInBytes_convertBranch hx).1
    rw [List.map_cons, List.sum_cons, List.map_cons, List.sum_cons]
    omega

namespace Bloated

variable (h : Bloated f u codes)

include h

theorem numberOfBytes_le {b : FunctionBlock ℓ} {c : BlockCodes ℓ} (hb : f.blocks[k]? = some b)
    (hc : codes[k]? = some c) :
    c.numberOfBytes ≤ b.convertedBound + pointBytes (f.blockPoints k) := by
  cases b with
  | raw rawBytes =>
    obtain ⟨c', hc', hbloated⟩ := h.block k _ hb
    obtain rfl := Option.some.inj (hc.symm.trans hc')
    cases c with
    | inl l => exact hbloated.elim
    | inr rawBytes' =>
      obtain rfl : rawBytes' = rawBytes := hbloated
      exact Nat.le_add_right _ _
  | basic instructions =>
    obtain ⟨l, hl, hitems, hslots⟩ := h.exists_code hb
    obtain rfl := Option.some.inj (hc.symm.trans hl)
    have hinside := blockPoints_inside hb
    have hnops : Slots.total Nop.length l = nopBytes (wanted instructions
        ((f.blockPoints k).map FunctionPoint.expansion)) := by
      rw [nopBytes, Slots.total_eq_sum, Slots.total_eq_sum, items_wanted, hitems.length_eq]
      refine Finset.sum_congr rfl fun g _ => ?_
      rw [slot_wanted hinside, hslots, wantedNops, filter_slot, List.flatMap_map]
      rfl
    have hle := nopBytes_wanted_le hinside
    have hpoints : (((f.blockPoints k).map FunctionPoint.expansion).map
        fun e => e.numberOfBytes).sum = pointBytes (f.blockPoints k) := by
      rw [List.map_map]
      rfl
    have hconverted := sum_converted_le hitems
    rw [BlockCodes.numberOfBytes, codeExtent_eq, FunctionBlock.convertedBound]
    omega

/-- The blocks up to one have no more bytes than their instructions and points may need. -/
theorem blockStart_le (hk : k ≤ codes.length) : blockStart codes k ≤
    ((f.blocks.take k).map FunctionBlock.convertedBound).sum +
      pointBytes (f.sorted.filter fun p => decide (p.block < k)) := by
  induction k with
  | zero => simp [blockStart]
  | succ k ih =>
    have hlt : k < codes.length := hk
    have hlt' : k < f.blocks.length := h.length_eq ▸ hlt
    have hsize := h.numberOfBytes_le (List.getElem?_eq_getElem hlt') (List.getElem?_eq_getElem hlt)
    have hle := ih (by omega)
    rw [blockStart_succ (List.getElem?_eq_getElem hlt),
      sum_take_succ (List.getElem?_eq_getElem hlt'), pointBytes_filter_succ]
    unfold blockPoints at hsize
    omega

/-- The bloated function has no more bytes than its instructions and points may need. -/
theorem blockStart_length_le : blockStart codes codes.length ≤
    (f.blocks.map FunctionBlock.convertedBound).sum +
      (f.instPoints.map FunctionPoint.numberOfBytes).sum := by
  have hle := h.blockStart_le (Nat.le_refl _)
  have hfilter : ∀ points : List FunctionPoint, pointBytes (points.filter
      fun p => decide (p.block < codes.length)) ≤ pointBytes points := by
    intro points
    induction points with
    | nil => rfl
    | cons p points ih =>
      rw [List.filter_cons]
      split
      · rw [pointBytes_cons, pointBytes_cons]
        omega
      · rw [pointBytes_cons]
        omega
  have hperm : pointBytes f.sorted = (f.instPoints.map FunctionPoint.numberOfBytes).sum :=
    (f.sorted_perm.map _).sum_eq
  have := hfilter f.sorted
  rw [h.length_eq, List.take_length, ← h.length_eq] at hle
  omega

end Bloated

/-! ## The rooms of an instruction -/

/-- Where the instruction of a point begins, from the start of the function. -/
def startOf (codes : List (BlockCodes ℓ)) (p : FunctionPoint) : Nat :=
  match codes[p.block]? with
  | some (.inl l) => blockStart codes p.block + (gapStart l p.index + gapBytes l p.index)
  | _ => 0

/-- The size of the instruction of a point. -/
def sizeOf (codes : List (BlockCodes ℓ)) (p : FunctionPoint) : Nat :=
  match codes[p.block]? with
  | some (.inl l) => ((Slots.items l)[p.index]?.map ProgramInstruction.sizeInBytes).getD 0
  | _ => 0

variable (f) in
/-- Where the rooms of the points on an instruction begin. -/
def lo (codes : List (BlockCodes ℓ)) (p : FunctionPoint) : Nat :=
  startOf codes p - pointBytes (f.priors p.block p.index)

variable (f) in
/-- Where they end. -/
def hi (codes : List (BlockCodes ℓ)) (p : FunctionPoint) : Nat :=
  startOf codes p + sizeOf codes p + pointBytes (f.afters p.block (p.index + 1))

theorem startOf_eq (hl : codes[p.block]? = some (.inl l)) :
    startOf codes p = blockStart codes p.block + (gapStart l p.index + gapBytes l p.index) := by
  unfold startOf
  rw [hl]

theorem sizeOf_eq {x : ProgramInstruction ℓ} (hl : codes[p.block]? = some (.inl l))
    (hx : (Slots.items l)[p.index]? = some x) : sizeOf codes p = x.sizeInBytes := by
  unfold sizeOf
  rw [hl]
  simp only [hx, Option.map_some, Option.getD_some]

namespace Bloated

variable {q : FunctionPoint} (h : Bloated f u codes)

include h

/-- The rooms of an instruction begin in the gap in front of it, behind those for the
instruction before, and end in the gap behind. -/
theorem lo_hi_eq (hp : f.On p) : ∃ l, codes[p.block]? = some (.inl l) ∧
    p.index < (Slots.items l).length ∧
    (∀ g, Slots.slot g l = nopsOf (f.afters p.block g ++ f.priors p.block g)) ∧
    pointBytes (f.priors p.block p.index) ≤ startOf codes p ∧
    f.lo codes p = blockStart codes p.block +
      (gapStart l p.index + pointBytes (f.afters p.block p.index)) ∧
    startOf codes p + sizeOf codes p = blockStart codes p.block + gapStart l (p.index + 1) := by
  obtain ⟨l, x, hl, hx, hslots⟩ := h.exists_item hp
  have hbytes := gapBytes_eq hslots p.index
  have hnext := gapStart_succ hx
  have hstart := startOf_eq hl
  have hsize := sizeOf_eq hl hx
  refine ⟨l, hl, (List.getElem?_eq_some_iff.mp hx).1, hslots, by omega, ?_, by omega⟩
  unfold lo
  omega

theorem block_lt (hp : f.On p) : p.block < codes.length := by
  obtain ⟨l, hl, -⟩ := h.lo_hi_eq hp
  exact (List.getElem?_eq_some_iff.mp hl).1

/-- The rooms of an instruction are within its block. -/
theorem hi_le (hp : f.On p) : f.hi codes p ≤ blockStart codes (p.block + 1) := by
  obtain ⟨l, hl, -, hslots, -, -, hend⟩ := h.lo_hi_eq hp
  have hgap := gap_le_codeExtent l (p.index + 1)
  have hbytes := gapBytes_eq hslots (p.index + 1)
  rw [blockStart_succ hl, BlockCodes.numberOfBytes]
  unfold hi
  omega

theorem hi_le_bound (hp : f.On p) : f.hi codes p ≤
    (f.blocks.map FunctionBlock.convertedBound).sum +
      (f.instPoints.map FunctionPoint.numberOfBytes).sum := by
  have hle := h.hi_le hp
  have hmono : blockStart codes (p.block + 1) ≤ blockStart codes codes.length :=
    blockStart_mono (h.block_lt hp)
  exact hle.trans (hmono.trans h.blockStart_length_le)

/-- The rooms of a later instruction come behind those of an earlier one. -/
theorem hi_le_lo (hp : f.On p) (hq : f.On q) (hlt : p.source < q.source) :
    f.hi codes p ≤ f.lo codes q := by
  obtain ⟨l, hl, -, hslots, -, -, hend⟩ := h.lo_hi_eq hp
  obtain ⟨l', hl', hindex', -, -, hlo, -⟩ := h.lo_hi_eq hq
  rcases FunctionPoint.source_lt_iff.mp hlt with hblock | ⟨hblock, hindex⟩
  · have hle := h.hi_le hp
    have hmono : blockStart codes (p.block + 1) ≤ blockStart codes q.block :=
      blockStart_mono hblock
    omega
  · rw [← hblock] at hl' hlo
    obtain rfl : l' = l := by
      rw [hl] at hl'
      cases hl'
      rfl
    have hbytes := gapBytes_eq hslots (p.index + 1)
    unfold hi
    rcases Nat.lt_or_eq_of_le (show p.index + 1 ≤ q.index from hindex) with hgap | hgap
    · have hle := gap_le_gapStart hgap (Nat.le_of_lt hindex')
      omega
    · rw [← hgap] at hlo
      omega

end Bloated

end InstrumentedFunction

end Pebil

import Pebil.Instrumentation.PointOrder

/-!
# Rooms in a bloated function (src/Function.C:160–184, src/ElfFileInst.C:1165–1217)

A bloated block is its instructions with gaps between them, in which the nops are. In the gap
between two instructions the nops for the points behind the first of them come before those
for the points before the second. `computeInstrumentationOffsets` gives the points of an
instruction, one behind the other, the bytes up to the instruction and those from its end on
(`objectRooms_eq`), so that it comes to the same bytes if the block has the nops that it
should.
-/

namespace Pebil

variable {ℓ : Type*}

/-! ## Gaps -/

/-- The bytes of some instructions and nops. -/
def codeExtent (l : List (BlockCode ℓ)) : Nat := (l.map BlockCode.sizeInBytes).sum

/-- Where the gap in front of an instruction begins. -/
def gapStart (l : List (BlockCode ℓ)) (g : Nat) : Nat := codeExtent (Slots.before g l)

/-- The bytes of nops in a gap. -/
def gapBytes (l : List (BlockCode ℓ)) (g : Nat) : Nat := ((Slots.slot g l).map Nop.length).sum

section Gap

variable {l l' : List (BlockCode ℓ)} {x : ProgramInstruction ℓ} {g h i : Nat} {a : BitVec 64}

theorem codeExtent_append : codeExtent (l ++ l') = codeExtent l + codeExtent l' := by
  unfold codeExtent
  rw [List.map_append, List.sum_append]

theorem codeExtent_nops (nops : List Nop) :
    codeExtent (nops.map (.inr : Nop → BlockCode ℓ)) = (nops.map Nop.length).sum := by
  unfold codeExtent
  rw [List.map_map]
  rfl

/-- The next gap begins behind the instruction. -/
theorem gapStart_succ (hx : (Slots.items l)[g]? = some x) :
    gapStart l (g + 1) = gapStart l g + gapBytes l g + x.sizeInBytes := by
  unfold gapStart gapBytes
  rw [Slots.before_succ hx, codeExtent_append, codeExtent_append, codeExtent_nops, ← Nat.add_assoc]
  simp [codeExtent, BlockCode.sizeInBytes]

theorem gap_le_codeExtent (l : List (BlockCode ℓ)) (g : Nat) :
    gapStart l g + gapBytes l g ≤ codeExtent l := by
  obtain ⟨rest, hrest⟩ := Slots.exists_eq_before l g
  have hextent := congrArg codeExtent hrest
  rw [codeExtent_append, codeExtent_append, codeExtent_nops] at hextent
  unfold gapStart gapBytes
  omega

/-- A gap ends before a later one begins. -/
theorem gap_le_gapStart (hgh : g < h) (hh : h ≤ (Slots.items l).length) :
    gapStart l g + gapBytes l g ≤ gapStart l h := by
  induction h with
  | zero => omega
  | succ h ih =>
    have hlt : h < (Slots.items l).length := hh
    have hsucc := gapStart_succ (List.getElem?_eq_getElem hlt)
    rcases Nat.lt_or_eq_of_le (Nat.le_of_lt_succ hgh) with hlt' | rfl
    · have := ih hlt' (by omega)
      omega
    · omega

/-- An instruction of the program is placed behind the gap in front of it. -/
theorem getElem?_filter_placeFrom {j : Nat} (hx : (Slots.items l)[i]? = some x) :
    ∃ index, ((placeFrom j a l).filter (·.code.isLeft))[i]? =
      some ⟨.inl x, index, a + BitVec.ofNat 64 (gapStart l i + gapBytes l i)⟩ := by
  unfold gapStart gapBytes
  induction l generalizing i j a with
  | nil => simp [Slots.items] at hx
  | cons c l ih =>
    rw [placeFrom]
    cases c with
    | inl y =>
      rw [List.filter_cons_of_pos rfl]
      cases i with
      | zero =>
        obtain rfl : y = x := by simpa [Slots.items] using hx
        exact ⟨j, by simp [Slots.slot, codeExtent]⟩
      | succ i =>
        obtain ⟨index, hindex⟩ := ih (a := a + BitVec.ofNat 64 (BlockCode.sizeInBytes (.inl y)))
          (j := j + 1) hx
        refine ⟨index, ?_⟩
        rw [List.getElem?_cons_succ, hindex, BitVec.add_assoc, ← BitVec.ofNat_add, ← Nat.add_assoc]
        simp [Slots.before, Slots.slot, codeExtent]
    | inr nop =>
      rw [List.filter_cons_of_neg (by simp)]
      obtain ⟨index, hindex⟩ := ih (a := a + BitVec.ofNat 64 (BlockCode.sizeInBytes (.inr nop)))
        (j := j + 1) hx
      refine ⟨index, ?_⟩
      rw [hindex, BitVec.add_assoc, ← BitVec.ofNat_add]
      cases i with
      | zero => simp [Slots.slot, codeExtent, BlockCode.sizeInBytes]
      | succ i => simp [Slots.before, Slots.slot, codeExtent, Nat.add_assoc]

end Gap

/-! ## Blocks -/

/-- The code of a block: instructions and nops, or raw bytes. -/
abbrev BlockCodes (ℓ : Type*) := List (BlockCode ℓ) ⊕ List (BitVec 8)

def BlockCodes.numberOfBytes : BlockCodes ℓ → Nat
  | .inl l => codeExtent l
  | .inr rawBytes => rawBytes.length

/-- Blocks one behind the other, from a distance to the start of the function on. -/
def layBlocks (baseAddress : BitVec 64) : Nat → List (BlockCodes ℓ) → List (PlacedBlock ℓ)
  | _, [] => []
  | currByte, .inl l :: codes =>
    .basic (baseAddress + BitVec.ofNat 64 currByte)
      (setBaseAddress (baseAddress + BitVec.ofNat 64 currByte) l) ::
      layBlocks baseAddress (currByte + codeExtent l) codes
  | currByte, .inr rawBytes :: codes =>
    .raw (baseAddress + BitVec.ofNat 64 currByte) rawBytes ::
      layBlocks baseAddress (currByte + rawBytes.length) codes

/-- Where a block begins. -/
def blockStart (codes : List (BlockCodes ℓ)) (k : Nat) : Nat :=
  ((codes.take k).map BlockCodes.numberOfBytes).sum

/-- The code of a block that was bloated with some points. -/
def BlockBloated (u : Disassembler) (points : List ExpansionPoint) :
    FunctionBlock ℓ → BlockCodes ℓ → Prop
  | .basic instructions, .inl l =>
    List.Forall₂ (fun x x' => x.convertBranch u = some x') instructions (Slots.items l) ∧
      ∀ g, Slots.slot g l = Slots.slot g (expanded instructions points)
  | .raw rawBytes, .inr rawBytes' => rawBytes' = rawBytes
  | _, _ => False

section Blocks

variable {u : Disassembler} {baseAddress : BitVec 64} {codes : List (BlockCodes ℓ)}
  {blocks : List (FunctionBlock ℓ)} {out : List (PlacedBlock ℓ)} {points : List FunctionPoint}
  {k currByte oldByte : Nat}

/-- `bloatBasicBlocks` lays out the code of the blocks, each with the nops of its points. -/
theorem bloatBasicBlocks_eq_some (h : bloatBasicBlocks u baseAddress oldByte currByte blocks
    (instPointsPerBlock points k blocks) = some out) : ∃ codes,
      out = layBlocks baseAddress currByte codes ∧ codes.length = blocks.length ∧
      ∀ j b, blocks[j]? = some b → ∃ c, codes[j]? = some c ∧
        BlockBloated u ((points.filter (·.block == k + j)).map FunctionPoint.expansion) b c := by
  induction blocks generalizing k oldByte currByte out with
  | nil =>
    obtain rfl : [] = out := by simpa [instPointsPerBlock, bloatBasicBlocks] using h
    exact ⟨[], rfl, rfl, by simp⟩
  | cons b blocks ih =>
    -- the blocks behind have the numbers from `k + 1` on
    have hshift : ∀ j, k + 1 + j = k + (j + 1) := fun j => by omega
    cases b with
    | raw rawBytes =>
      rw [instPointsPerBlock, bloatBasicBlocks] at h
      obtain ⟨behind, hbehind, h⟩ := Option.bind_eq_some_iff.mp h
      obtain rfl := Option.some.inj h
      obtain ⟨codes, rfl, hlength, hblocks⟩ := ih hbehind
      refine ⟨.inr rawBytes :: codes, rfl, by simp [hlength], fun j b hb => ?_⟩
      cases j with
      | zero =>
        obtain rfl := Option.some.inj hb
        exact ⟨.inr rawBytes, rfl, rfl⟩
      | succ j =>
        obtain ⟨c, hc, hbloated⟩ := hblocks j b hb
        exact ⟨c, hc, by rwa [hshift] at hbloated⟩
    | basic instructions =>
      rw [instPointsPerBlock, bloatBasicBlocks] at h
      obtain ⟨bloated, hbloated, h⟩ := Option.bind_eq_some_iff.mp h
      obtain ⟨behind, hbehind, h⟩ := Option.bind_eq_some_iff.mp h
      obtain rfl := Option.some.inj h
      obtain ⟨converted, hconverted, hplaced⟩ := Option.bind_eq_some_iff.mp hbloated
      obtain rfl := Option.some.inj hplaced
      obtain ⟨hitems, hslots⟩ := mapM_convert hconverted
      have hcode : (setBaseAddress (baseAddress + BitVec.ofNat 64 oldByte) converted).map
          (·.code) = converted := map_code_placeFrom
      have hextent : ((setBaseAddress (baseAddress + BitVec.ofNat 64 currByte) converted).map
          fun c => c.code.sizeInBytes).sum = codeExtent converted := by
        unfold codeExtent
        conv => rhs; rw [← map_code_placeFrom (i := 0)
          (a := baseAddress + BitVec.ofNat 64 currByte) (l := converted), List.map_map]
        rfl
      simp only [hcode, hextent] at hbehind ⊢
      obtain ⟨codes, rfl, hlength, hblocks⟩ := ih hbehind
      refine ⟨.inl converted :: codes, rfl, by simp [hlength], fun j b hb => ?_⟩
      cases j with
      | zero =>
        obtain rfl := Option.some.inj hb
        have hexpanded : Slots.items (expanded instructions
            ((points.filter (·.block == k)).map FunctionPoint.expansion)) = instructions :=
          items_expanded
        exact ⟨.inl converted, rfl, hexpanded ▸ hitems, hslots⟩
      | succ j =>
        obtain ⟨c, hc, hbloated⟩ := hblocks j b hb
        exact ⟨c, hc, by rwa [hshift] at hbloated⟩

variable (baseAddress currByte) in
theorem getElem?_layBlocks {l : List (BlockCode ℓ)} (h : codes[k]? = some (.inl l)) :
    (layBlocks baseAddress currByte codes)[k]? =
      some (.basic (baseAddress + BitVec.ofNat 64 (currByte + blockStart codes k))
        (setBaseAddress (baseAddress + BitVec.ofNat 64 (currByte + blockStart codes k)) l)) := by
  unfold blockStart
  induction codes generalizing k currByte with
  | nil => simp at h
  | cons c codes ih =>
    cases k with
    | zero =>
      obtain rfl := Option.some.inj h
      simp [layBlocks]
    | succ k =>
      have htail := ih (currByte + c.numberOfBytes) h
      rw [List.take_succ_cons, List.map_cons, List.sum_cons, ← Nat.add_assoc]
      cases c <;> exact htail

variable (baseAddress) in
/-- The instruction of a point, in the blocks that have been laid out. -/
theorem getSourceObject_layBlocks {p : FunctionPoint} {l : List (BlockCode ℓ)}
    {x : ProgramInstruction ℓ} (hl : codes[p.block]? = some (.inl l))
    (hx : (Slots.items l)[p.index]? = some x) : ∃ index,
      getSourceObject (layBlocks baseAddress 0 codes) p = some ⟨.inl x, index, baseAddress +
        BitVec.ofNat 64 (blockStart codes p.block + (gapStart l p.index + gapBytes l p.index))⟩ := by
  unfold getSourceObject
  rw [getElem?_layBlocks baseAddress 0 hl, Nat.zero_add]
  obtain ⟨index, hindex⟩ := getElem?_filter_placeFrom (j := 0)
    (a := baseAddress + BitVec.ofNat 64 (blockStart codes p.block)) hx
  refine ⟨index, ?_⟩
  rw [BitVec.add_assoc, ← BitVec.ofNat_add] at hindex
  exact hindex

theorem blockStart_succ {c : BlockCodes ℓ} (hc : codes[k]? = some c) :
    blockStart codes (k + 1) = blockStart codes k + c.numberOfBytes := by
  unfold blockStart
  rw [List.take_add_one, hc, Option.toList_some, List.map_append, List.sum_append,
    List.map_singleton, List.sum_singleton]

theorem blockStart_mono {j : Nat} (hkj : k ≤ j) : blockStart codes k ≤ blockStart codes j := by
  obtain ⟨d, rfl⟩ := Nat.exists_eq_add_of_le hkj
  unfold blockStart
  rw [List.take_add, List.map_append, List.sum_append]
  exact Nat.le_add_right _ _

end Blocks

/-! ## Points one behind the other -/

/-- The bytes of some points. -/
def pointBytes (points : List FunctionPoint) : Nat := (points.map FunctionPoint.numberOfBytes).sum

/-- Points one behind the other, with their distances from the start of the function. -/
def stack : Nat → List FunctionPoint → List (FunctionPoint × Nat)
  | _, [] => []
  | s, p :: points => (p, s) :: stack (s + p.numberOfBytes) points

/-- The room of a point in the function at an address. -/
def roomAt (baseAddress : BitVec 64) (r : FunctionPoint × Nat) : InstrumentationRoom :=
  ⟨r.1, baseAddress + BitVec.ofNat 64 r.2⟩

/-- The points of an instruction: up to its start, from its end on, or at it. -/
def objectStack (start sizeInBytes : Nat) (points : List FunctionPoint) :
    List (FunctionPoint × Nat) :=
  stack (start - pointBytes (points.filter (·.instLocation == .prior)))
      (points.filter (·.instLocation == .prior)) ++
    stack (start + sizeInBytes) (points.filter (·.instLocation == .after)) ++
    (points.filter (·.instLocation == .replace)).map fun p => (p, start)

section Stack

variable {points front back : List FunctionPoint} {p : FunctionPoint} {s t n : Nat}
  {baseAddress : BitVec 64} {source : BlockInstruction ℓ}

theorem bytesreq_eq (p : FunctionPoint) : p.bytesreq = p.numberOfBytes := by
  unfold FunctionPoint.bytesreq FunctionPoint.numberOfBytes
  cases p.instrumentationMode <;> rfl

theorem pointBytes_cons : pointBytes (p :: points) = p.numberOfBytes + pointBytes points := rfl

theorem pointBytes_append : pointBytes (front ++ back) = pointBytes front + pointBytes back := by
  unfold pointBytes
  rw [List.map_append, List.sum_append]

variable (s points) in
theorem map_fst_stack : (stack s points).map Prod.fst = points := by
  induction points generalizing s with
  | nil => rfl
  | cons p points ih => rw [stack, List.map_cons, ih]

/-- A point of a stack is behind those in front of it. -/
theorem exists_of_mem_stack (h : (p, t) ∈ stack s points) :
    ∃ front back, points = front ++ p :: back ∧ t = s + pointBytes front := by
  induction points generalizing s with
  | nil => cases h
  | cons q points ih =>
    rcases List.mem_cons.mp h with heq | hmem
    · obtain ⟨rfl, rfl⟩ := Prod.mk.inj heq
      exact ⟨[], points, rfl, rfl⟩
    · obtain ⟨front, back, rfl, rfl⟩ := ih hmem
      exact ⟨q :: front, back, rfl, by rw [pointBytes_cons, Nat.add_assoc]⟩

/-- The points of a stack are within it. -/
theorem bounds_of_mem_stack (h : (p, t) ∈ stack s points) :
    s ≤ t ∧ t + p.numberOfBytes ≤ s + pointBytes points := by
  obtain ⟨front, back, rfl, rfl⟩ := exists_of_mem_stack h
  rw [pointBytes_append, pointBytes_cons]
  omega

/-- In a stack each point ends before the next begins. -/
theorem pairwise_stack (s : Nat) (points : List FunctionPoint) :
    (stack s points).Pairwise fun r r' => r.2 + r.1.numberOfBytes ≤ r'.2 := by
  induction points generalizing s with
  | nil => exact .nil
  | cons p points ih =>
    exact List.pairwise_cons.mpr ⟨fun r hr => (bounds_of_mem_stack hr).1, ih _⟩

/-- The offset of a prior point are the bytes from it on. -/
theorem priorOffsets_cons : priorOffsets (p :: points) =
    (p, -BitVec.ofNat 32 (pointBytes (p :: points))) :: priorOffsets points := by
  induction points generalizing p with
  | nil => simp [priorOffsets, pointBytes, bytesreq_eq]
  | cons q points ih =>
    rw [priorOffsets, ih]
    simp only [bytesreq_eq, List.cons.injEq, Prod.mk.injEq, true_and, and_true]
    rw [pointBytes_cons (p := p), BitVec.ofNat_add, BitVec.sub_eq_add_neg, BitVec.neg_add,
      BitVec.sub_eq_add_neg, BitVec.add_comm]

theorem signExtend_ofNat (hn : n < 2 ^ 31) :
    (BitVec.ofNat 32 n).signExtend 64 = BitVec.ofNat 64 n := by
  have hmsb : (BitVec.ofNat 32 n).msb = false := by
    rw [BitVec.msb_eq_false_iff_two_mul_lt, BitVec.toNat_ofNat]
    omega
  rw [BitVec.signExtend_eq_setWidth_of_msb_false hmsb]
  apply BitVec.eq_of_toNat_eq
  rw [BitVec.toNat_setWidth, BitVec.toNat_ofNat, BitVec.toNat_ofNat]
  omega

/-- A negative offset leads back. -/
theorem add_signExtend_neg (hn : n < 2 ^ 31) (hns : n ≤ s) :
    baseAddress + BitVec.ofNat 64 s + (-BitVec.ofNat 32 n).signExtend 64 =
      baseAddress + BitVec.ofNat 64 (s - n) := by
  have hneg : (-BitVec.ofNat 32 n).signExtend 64 = -BitVec.ofNat 64 n := by
    apply BitVec.eq_of_toInt_eq
    have h32 : (BitVec.ofNat 32 n).toInt = n := by
      rw [BitVec.toInt_eq_toNat_bmod, BitVec.toNat_ofNat, Nat.mod_eq_of_lt (by omega),
        Int.bmod_eq_of_le (by omega) (by omega)]
    have h64 : (BitVec.ofNat 64 n).toInt = n := by
      rw [BitVec.toInt_eq_toNat_bmod, BitVec.toNat_ofNat, Nat.mod_eq_of_lt (by omega),
        Int.bmod_eq_of_le (by omega) (by omega)]
    rw [BitVec.toInt_signExtend_of_le (by decide), BitVec.toInt_neg, BitVec.toInt_neg, h32, h64,
      Int.bmod_eq_of_le (by omega) (by omega), Int.bmod_eq_of_le (by omega) (by omega)]
  obtain ⟨d, rfl⟩ := Nat.exists_eq_add_of_le hns
  rw [hneg, Nat.add_sub_cancel_left, Nat.add_comm n, BitVec.ofNat_add, ← BitVec.add_assoc,
    BitVec.add_assoc, ← BitVec.sub_eq_add_neg, BitVec.sub_self, BitVec.add_zero]

/-- The rooms of prior points end where the instruction begins. -/
theorem map_priorOffsets (hsource : source.baseAddress = baseAddress + BitVec.ofNat 64 s)
    (hle : pointBytes points ≤ s) (hlt : pointBytes points < 2 ^ 31) :
    (priorOffsets points).map (fun r => ⟨r.1, getInstSourceAddress source r.2⟩) =
      (stack (s - pointBytes points) points).map (roomAt baseAddress) := by
  induction points with
  | nil => rfl
  | cons p points ih =>
    have htail := ih (by rw [pointBytes_cons] at hle; omega) (by rw [pointBytes_cons] at hlt; omega)
    have hnext : s - pointBytes (p :: points) + p.numberOfBytes = s - pointBytes points := by
      rw [pointBytes_cons] at hle ⊢
      omega
    rw [priorOffsets_cons, List.map_cons, htail, stack, List.map_cons, hnext]
    simp only [getInstSourceAddress, roomAt, hsource, add_signExtend_neg hlt hle]

/-- The rooms of points behind an instruction begin at its end. -/
theorem map_afterOffsets (hsource : source.baseAddress = baseAddress + BitVec.ofNat 64 s)
    (hlt : n + pointBytes points < 2 ^ 31) :
    (afterOffsets (BitVec.ofNat 32 n) points).map
        (fun r => ⟨r.1, getInstSourceAddress source r.2⟩) =
      (stack (s + n) points).map (roomAt baseAddress) := by
  induction points generalizing n with
  | nil => rfl
  | cons p points ih =>
    rw [pointBytes_cons] at hlt
    have htail := ih (n := n + p.numberOfBytes) (by omega)
    rw [afterOffsets, bytesreq_eq, ← BitVec.ofNat_add, List.map_cons, htail, stack, List.map_cons,
      Nat.add_assoc]
    simp only [getInstSourceAddress, roomAt, hsource, signExtend_ofNat (n := n) (by omega),
      BitVec.add_assoc, ← BitVec.ofNat_add]

/-- The rooms of the points on an instruction. -/
theorem objectRooms_eq {blocks : List (PlacedBlock ℓ)} {size : Nat}
    (hobject : getSourceObject blocks p = some source)
    (hsource : source.baseAddress = baseAddress + BitVec.ofNat 64 s)
    (hsize : source.code.sizeInBytes = size)
    (hprior : pointBytes ((p :: points).filter (·.instLocation == .prior)) ≤ s)
    (hs : s < 2 ^ 31)
    (hafter : size + pointBytes ((p :: points).filter (·.instLocation == .after)) < 2 ^ 31)
    (honce : ((p :: points).filter (·.instLocation == .replace)).length < 2) :
    objectRooms blocks (p :: points) =
      some ((objectStack s size (p :: points)).map (roomAt baseAddress)) := by
  have hzero : ∀ q : FunctionPoint, (⟨q, getInstSourceAddress source 0⟩ : InstrumentationRoom) =
      roomAt baseAddress (q, s) := by
    intro q
    rw [getInstSourceAddress, roomAt, hsource]
    simp
  unfold objectRooms objectOffsets objectStack
  simp only [hobject, Option.bind_some, if_pos honce, Option.map_some, List.map_append, List.map_map, hsize]
  rw [map_priorOffsets hsource hprior (by omega), map_afterOffsets hsource hafter]
  congr 2
  exact List.map_congr_left fun q _ => hzero q

end Stack

end Pebil

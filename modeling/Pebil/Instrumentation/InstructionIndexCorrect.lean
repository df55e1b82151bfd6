import Pebil.Instrumentation.BloatBlock
import Pebil.Instrumentation.InstructionIndex

/-!
# Right indices and codes

Every operation leaves the instructions of a block with consecutive indices, and the first of
them is 0 unless `computeLiveness` was the last to number the block and the block is not the
first of the function (`Numbered`). The indices that are read are so the positions exactly where
that does not happen.
-/

namespace Pebil

namespace InstructionIndex

variable {ℓ : Type} {u : Disassembler} {qsort : Qsort (compareBaseAddress (ℓ := ℓ))}
  {s f : BitVec 32} {numbered : Nat → Bool} {blocks next : List (BasicBlock ℓ)} {op : Operation}

/-! ## Numbering -/

namespace BasicBlock

variable {b b' : BasicBlock ℓ} {i j start : Nat} {x : BlockInstruction ℓ}

/-- The indices count up. -/
def CountsFrom (start : Nat) (b : BasicBlock ℓ) : Prop :=
  b.indices = List.range' start b.instructions.length

theorem CountsFrom.index_eq (h : b.CountsFrom start) (hx : b.instructions[j]? = some x) :
    x.index = start + j := by
  have hj : j < b.instructions.length := (List.getElem?_eq_some_iff.mp hx).1
  have hindex : b.indices[j]? = some x.index := by rw [indices, List.getElem?_map, hx]; rfl
  rw [h, List.getElem?_range' hj] at hindex
  have hindex := Option.some.inj hindex
  omega

theorem countsFrom_renumber (b : BasicBlock ℓ) (start : Nat) :
    (b.renumber start).CountsFrom start := by
  refine List.ext_getElem? fun j => ?_
  rw [indices, renumber, List.getElem?_map, List.getElem?_mapIdx, List.length_mapIdx]
  rcases Nat.lt_or_ge j b.instructions.length with hj | hj
  · rw [List.getElem?_eq_getElem hj, List.getElem?_range' hj]
    simp
  · rw [List.getElem?_eq_none hj, List.getElem?_eq_none (by simpa using hj)]
    rfl

theorem map_index_placeFrom (i : Nat) (a : BitVec 64) (l : List (BlockCode ℓ)) :
    (placeFrom i a l).map (·.index) = List.range' i l.length := by
  induction l generalizing i a with
  | nil => rfl
  | cons c l ih => rw [placeFrom, List.map_cons, ih, List.length_cons, List.range'_succ]

theorem length_placeFrom (i : Nat) (a : BitVec 64) (l : List (BlockCode ℓ)) :
    (placeFrom i a l).length = l.length := by
  have h := congrArg List.length (map_index_placeFrom i a l)
  rwa [List.length_map, List.length_range'] at h

/-- Instructions that were placed count from 0. -/
theorem countsFrom_of_placed {a : BitVec 64} {l : List (BlockCode ℓ)}
    (h : b.instructions = Pebil.setBaseAddress a l) : b.CountsFrom 0 := by
  rw [CountsFrom, indices, h, Pebil.setBaseAddress, map_index_placeFrom, length_placeFrom]

theorem countsFrom_setBaseAddress (b : BasicBlock ℓ) (a : BitVec 64) :
    (b.setBaseAddress a).CountsFrom 0 :=
  countsFrom_of_placed rfl

theorem length_setBaseAddress (b : BasicBlock ℓ) (a : BitVec 64) :
    (b.setBaseAddress a).instructions.length = b.instructions.length := by
  rw [setBaseAddress, Pebil.setBaseAddress, length_placeFrom, List.length_map]

theorem CountsFrom.addInstruction (h : b.CountsFrom 0) (inst : ProgramInstruction ℓ × BitVec 64) :
    (b.addInstruction inst).CountsFrom 0 := by
  rw [CountsFrom, indices, BasicBlock.addInstruction, List.map_append, List.length_append,
    List.length_singleton, List.range'_concat]
  exact congrArg₂ _ h (by simp)

/-- Adding instructions leaves the code of the block, and the instructions it has. -/
theorem CountsFrom.addInstructions (l : List (ProgramInstruction ℓ × BitVec 64))
    (h : b.CountsFrom 0) :
    (l.foldl BasicBlock.addInstruction b).CountsFrom 0 ∧
      (l.foldl BasicBlock.addInstruction b).hashCode = b.hashCode ∧
      (l.foldl BasicBlock.addInstruction b).instructions.length =
        b.instructions.length + l.length := by
  induction l generalizing b with
  | nil => exact ⟨h, rfl, rfl⟩
  | cons inst l ih =>
    obtain ⟨hcounts, hcode, hlength⟩ := ih (h.addInstruction inst)
    refine ⟨hcounts, hcode, hlength.trans ?_⟩
    rw [BasicBlock.addInstruction, List.length_append, List.length_singleton, List.length_cons,
      Nat.add_assoc, Nat.add_comm 1]

/-! ## The functions of a block -/

theorem eq_of_create (h : create s f i = some b) :
    b.hashCode = .ofBlock s f (BitVec.ofNat 32 i) ∧ b.hashCode.isBlock = true ∧
      b.instructions = [] := by
  rw [create] at h
  split at h
  · rename_i hverify
    obtain rfl := Option.some.inj h
    rw [verify, Bool.and_eq_true, Bool.and_eq_true] at hverify
    exact ⟨rfl, hverify.1.2, rfl⟩
  · cases h

theorem eq_of_setIndex (h : b.setIndex s f i = some b') :
    b'.hashCode = .ofBlock s f (BitVec.ofNat 32 i) ∧ b'.hashCode.isBlock = true ∧
      b'.instructions = b.instructions := by
  rw [setIndex] at h
  split at h
  · rename_i hverify
    obtain rfl := Option.some.inj h
    rw [verify, Bool.and_eq_true, Bool.and_eq_true] at hverify
    exact ⟨rfl, hverify.1.2, rfl⟩
  · cases h

theorem length_le_expandAll (n : Nat) (points : List ExpansionPoint) (l : List (BlockCode ℓ)) :
    l.length ≤ (expandAll n points l).length := by
  induction points with
  | nil => exact Nat.le_refl _
  | cons p points ih =>
    rw [expandAll, List.foldr_cons, expand]
    split
    · rw [Slots.length_insertAllAt]
      exact ih.trans (Nat.le_add_right _ _)
    · exact ih

/-- What `bloat` leaves was placed, and is no less than before. -/
theorem eq_of_bloat {instPoints : List InstPoint} (h : b.bloat u instPoints = some b') :
    b'.hashCode = b.hashCode ∧ b'.CountsFrom 0 ∧
      b.instructions.length ≤ b'.instructions.length := by
  simp only [bloat, Option.bind_eq_bind, Option.bind_eq_some_iff, Option.some.injEq] at h
  obtain ⟨points, -, converted, hconverted, rfl⟩ := h
  refine ⟨rfl, countsFrom_of_placed rfl, ?_⟩
  have hlength := (mapM_eq_some_iff.mp hconverted).length_eq
  have hle := length_le_expandAll b.instructions.length points (b.instructions.map (·.code))
  rw [List.length_map] at hle
  show _ ≤ (Pebil.setBaseAddress _ _).length
  rw [Pebil.setBaseAddress, length_placeFrom, ← hlength]
  exact hle

end BasicBlock

/-- The number that the first instruction of a block gets from `computeLiveness`. -/
def firstIndex (blocks : List (BasicBlock ℓ)) (i : Nat) : Nat :=
  ((blocks.take i).map (·.instructions.length)).sum

theorem getElem?_reindex (currIdx : Nat) (blocks : List (BasicBlock ℓ)) (i : Nat) :
    (reindex currIdx blocks)[i]? =
      (blocks[i]?).map fun b => b.renumber (currIdx + firstIndex blocks i) := by
  induction blocks generalizing currIdx i with
  | nil => rfl
  | cons b blocks ih =>
    cases i with
    | zero => rfl
    | succ i =>
      rw [reindex, List.getElem?_cons_succ, ih, List.getElem?_cons_succ, firstIndex, firstIndex,
        List.take_succ_cons, List.map_cons, List.sum_cons, Nat.add_assoc]

/-! ## The invariant -/

/-- The block at the position `i` of the function. -/
structure BlockNumbered (s f : BitVec 32) (numbered : Nat → Bool) (i : Nat) (b : BasicBlock ℓ) :
    Prop where
  hashCode : b.hashCode = .ofBlock s f (BitVec.ofNat 32 i)
  isBlock : b.hashCode.isBlock = true
  nonempty : 0 < b.instructions.length
  counts : ∃ start, b.CountsFrom start ∧ (start = 0 ↔ numbered i = false ∨ i = 0)

/-- Every block has its code, and consecutive indices that start with 0 unless it was numbered
last by `computeLiveness`. -/
def Numbered (s f : BitVec 32) (numbered : Nat → Bool) (blocks : List (BasicBlock ℓ)) : Prop :=
  ∀ i b, blocks[i]? = some b → BlockNumbered s f numbered i b

/-- One block takes another place; the others are as they were. -/
theorem Numbered.set {i : Nat} {b b' : BasicBlock ℓ} (h : Numbered s f numbered blocks)
    (hb : blocks[i]? = some b) (hcode : b'.hashCode = b.hashCode) (hcounts : b'.CountsFrom 0)
    (hlength : b.instructions.length ≤ b'.instructions.length) :
    Numbered s f (Function.update numbered i false) (blocks.set i b') := by
  intro k c hc
  rcases eq_or_ne k i with rfl | hne
  · rw [List.getElem?_set_self (List.getElem?_eq_some_iff.mp hb).1] at hc
    obtain rfl := Option.some.inj hc
    have hold := h k b hb
    exact ⟨hcode.trans hold.hashCode, hcode ▸ hold.isBlock, hold.nonempty.trans_le hlength, 0,
      hcounts, by simp⟩
  · rw [List.getElem?_set_ne hne.symm] at hc
    obtain ⟨hcode, hblock, hlength, start, hcounts, hstart⟩ := h k c hc
    exact ⟨hcode, hblock, hlength, start, hcounts, by
      rw [Function.update_of_ne hne]; exact hstart⟩

theorem Numbered.computeLiveness (h : Numbered s f numbered blocks) :
    Numbered s f (fun _ => true) (computeLiveness blocks) := by
  intro i b hb
  rw [InstructionIndex.computeLiveness, getElem?_reindex, Option.map_eq_some_iff] at hb
  obtain ⟨c, hc, rfl⟩ := hb
  obtain ⟨hcode, hblock, hlength, -⟩ := h i c hc
  refine ⟨hcode, hblock, by rwa [BasicBlock.renumber, List.length_mapIdx], _,
    c.countsFrom_renumber _, ?_⟩
  cases i with
  | zero => simp [firstIndex]
  | succ i =>
    -- the first block has an instruction
    obtain ⟨hlt, -⟩ := List.getElem?_eq_some_iff.mp hc
    cases blocks with
    | nil => simp at hlt
    | cons d blocks =>
      have hfirst := (h 0 d rfl).nonempty
      simp only [firstIndex, List.take_succ_cons, List.map_cons, List.sum_cons]
      simp only [Bool.true_eq_false, false_or, Nat.add_eq_zero_iff, Nat.succ_ne_zero, iff_false]
      omega

theorem Numbered.connectGraph (h : Numbered s f numbered blocks)
    (hnext : connectGraph qsort s f blocks = some next) :
    Numbered s f (fun _ => false) next := by
  intro i b hb
  rw [InstructionIndex.connectGraph] at hnext
  obtain ⟨c, hc, hcb⟩ := exists_getElem?_of_mapM hnext hb
  rw [List.getElem?_zipIdx, Option.map_eq_some_iff] at hc
  obtain ⟨d, hd, rfl⟩ := hc
  obtain ⟨e, he, rfl⟩ := Option.map_eq_some_iff.mp hcb
  obtain ⟨hcode, hblock, hinstructions⟩ := BasicBlock.eq_of_setIndex he
  have hmem : d ∈ blocks := (qsort.perm blocks).subset (List.mem_of_getElem? hd)
  obtain ⟨k, hk⟩ := List.mem_iff_getElem?.mp hmem
  refine ⟨hcode.trans (by rw [Nat.zero_add]), hblock, ?_, 0, e.countsFrom_renumber 0, by simp⟩
  rw [BasicBlock.renumber, List.length_mapIdx, hinstructions]
  exact (h k d hk).nonempty

/-- **Step**: the numbering after an operation. -/
theorem Numbered.step (h : Numbered s f numbered blocks)
    (hnext : step u qsort s f blocks op = some next) :
    Numbered s f (numberedLast numbered op) next := by
  cases op with
  | connectGraph => exact h.connectGraph hnext
  | computeLiveness =>
    obtain rfl := Option.some.inj hnext
    exact h.computeLiveness
  | setBaseAddress i newBaseAddr =>
    obtain ⟨b, hb, hnext⟩ := Option.bind_eq_some_iff.mp hnext
    obtain rfl := Option.some.inj hnext
    exact h.set hb rfl (b.countsFrom_setBaseAddress _) (b.length_setBaseAddress _).ge
  | bloat i instPoints =>
    obtain ⟨b, hb, hnext⟩ := Option.bind_eq_some_iff.mp hnext
    obtain ⟨b', hb', hnext⟩ := Option.bind_eq_some_iff.mp hnext
    obtain rfl := Option.some.inj hnext
    obtain ⟨hcode, hcounts, hlength⟩ := BasicBlock.eq_of_bloat hb'
    exact h.set hb hcode hcounts hlength
  | generateHashCode i j =>
    obtain ⟨b, -, hnext⟩ := Option.bind_eq_some_iff.mp hnext
    obtain ⟨-, -, hnext⟩ := Option.bind_eq_some_iff.mp hnext
    obtain rfl := Option.some.inj hnext
    exact h

/-- The blocks start out numbered by position. -/
theorem numbered_buildBlocks
    {leaders : List {l : List (ProgramInstruction ℓ × BitVec 64) // l ≠ []}}
    (h : buildBlocks s f leaders = some blocks) : Numbered s f (fun _ => false) blocks := by
  intro i b hb
  obtain ⟨l, hl, hlb⟩ := exists_getElem?_of_mapM h hb
  rw [List.getElem?_zipIdx, Option.map_eq_some_iff] at hl
  obtain ⟨l, -, rfl⟩ := hl
  obtain ⟨c, hc, rfl⟩ := Option.map_eq_some_iff.mp hlb
  obtain ⟨hcode, hblock, hempty⟩ := BasicBlock.eq_of_create hc
  have hcounts : c.CountsFrom 0 := by
    rw [BasicBlock.CountsFrom, BasicBlock.indices, hempty]
    rfl
  obtain ⟨hcounts, hhash, hlength⟩ := hcounts.addInstructions l.1
  refine ⟨by rw [hhash, hcode, Nat.zero_add], hhash ▸ hblock, ?_, 0, hcounts, by simp⟩
  rw [hlength]
  exact Nat.lt_add_left _ (List.length_pos_iff.mpr l.2)

/-! ## Codes -/

/-- The parts of the code of a block that passed `verify`. -/
theorem valid_of_isBlock {b : BitVec 32} (h : (HashCode.ofBlock s f b).isBlock = true) :
    (HashParts.ofBlock s f b).Valid ∧ s ≠ 255 := by
  have hvalid : (HashParts.ofBlock s f b).Valid := by
    by_contra hne
    have hinvalid : HashCode.ofBlock s f b = .invalid :=
      if_neg fun hand => hne (by simpa [HashParts.Valid, and_assoc] using hand)
    rw [hinvalid] at h
    exact absurd h (by decide)
  refine ⟨hvalid, fun hs => ?_⟩
  have hsection := HashParts.section_bne_zero hvalid.section_lt
  rw [HashParts.sectionOf, decide_eq_false (not_not_intro hs)] at hsection
  have hcode : (HashCode.ofBlock s f b).hasSection = false := by
    rw [HashCode.hasSection, show HashCode.ofBlock s f b = _ from hvalid.hash_eq]
    exact hsection
  rw [HashCode.isBlock, hcode] at h
  exact absurd h (by simp)

theorem getInstruction_lt {code : HashCode} (h : code.isInstruction = true) :
    code.getInstruction.toNat < 2 ^ 16 - 1 := by
  have hinstruction : code.hasInstruction = true := by
    rw [HashCode.isInstruction, Bool.and_eq_true] at h
    exact h.2
  have hne : code.instruction.toNat ≠ 0 := fun hzero => by
    rw [HashCode.hasInstruction, bne_iff_ne] at hinstruction
    exact hinstruction (BitVec.eq_of_toNat_eq hzero)
  rw [HashCode.getInstruction, if_pos hinstruction, BitVec.toNat_sub, BitVec.toNat_setWidth]
  have hlt := code.instruction.isLt
  have hone : (1 : BitVec 32).toNat = 1 := rfl
  rw [hone]
  omega

section Codes

variable (h : Numbered s f numbered blocks) {i j : Nat} {b : BasicBlock ℓ} {x : BlockInstruction ℓ}

include h

theorem Numbered.valid (hb : blocks[i]? = some b) :
    (HashParts.ofBlock s f (BitVec.ofNat 32 i)).Valid ∧ s ≠ 255 := by
  have hold := h i b hb
  exact valid_of_isBlock (hold.hashCode ▸ hold.isBlock)

/-- A function has fewer than 2^16 blocks. -/
theorem Numbered.lt (hb : blocks[i]? = some b) : i < 2 ^ 16 - 1 := by
  by_contra hge
  obtain ⟨hlt, -⟩ := List.getElem?_eq_some_iff.mp hb
  have hlast : 2 ^ 16 - 1 < blocks.length := by omega
  have hvalid := (h.valid (List.getElem?_eq_getElem hlast)).1.2.2
  exact absurd hvalid (by decide)

theorem Numbered.codeAt_eq : codeAt blocks i j = (instructionAt blocks i j).map fun x =>
    .ofInstruction s f (BitVec.ofNat 32 i) (BitVec.ofNat 32 x.index) := by
  rw [codeAt, instructionAt]
  cases hb : blocks[i]? with
  | none => rfl
  | some b =>
    obtain ⟨hvalid, hne⟩ := h.valid hb
    obtain ⟨hsection, hfunction, hblock⟩ := hvalid.returned_iff.mpr hne
    rw [Option.bind_some, Option.bind_some, BasicBlock.generateHashCode, (h i b hb).hashCode]
    exact congrArg (Option.map · _) (funext fun x => by
      rw [show (HashCode.ofBlock s f (BitVec.ofNat 32 i)).getSection = s from hsection,
        show (HashCode.ofBlock s f (BitVec.ofNat 32 i)).getFunction = f from hfunction,
        show (HashCode.ofBlock s f (BitVec.ofNat 32 i)).getBlock = _ from hblock])

/-- The index is the position exactly where the numbering of the block starts with 0. -/
theorem Numbered.index_eq_iff (hx : instructionAt blocks i j = some x) :
    x.index = j ↔ numbered i = false ∨ i = 0 := by
  obtain ⟨b, hb, hx⟩ := Option.bind_eq_some_iff.mp hx
  obtain ⟨start, hcounts, hstart⟩ := (h i b hb).counts
  rw [← hstart, hcounts.index_eq hx]
  omega

/-- The code of an instruction with the right index. -/
theorem Numbered.codeRight (hx : instructionAt blocks i j = some x) (hindex : x.index = j)
    (hj : j < 2 ^ 16 - 1) : CodeRight s f blocks i j
      (.ofInstruction s f (BitVec.ofNat 32 i) (BitVec.ofNat 32 j)) := by
  obtain ⟨b, hb, hxb⟩ := Option.bind_eq_some_iff.mp hx
  obtain ⟨hvalid, hne⟩ := h.valid hb
  have hi := h.lt hb
  have hnat : ∀ n < 2 ^ 16 - 1, (BitVec.ofNat 32 n).toNat = n := fun n hn => by
    rw [BitVec.toNat_ofNat]
    exact Nat.mod_eq_of_lt (by omega)
  have hparts : (HashParts.ofInstruction s f (BitVec.ofNat 32 i) (BitVec.ofNat 32 j)).Valid := by
    refine ⟨hvalid.1, hvalid.2.1, hvalid.2.2, ?_⟩
    rw [HashCode.validInstruction, Bool.and_eq_true, decide_eq_true_iff, decide_eq_true_iff,
      BitVec.le_def, BitVec.lt_def, hnat j hj]
    exact ⟨Nat.zero_le _, hj⟩
  obtain ⟨hsection, hfunction, hblock, hinstruction⟩ := hparts.returned_iff.mpr hne
  have hkind : (HashCode.ofInstruction s f (BitVec.ofNat 32 i) (BitVec.ofNat 32 j)).isInstruction =
      true :=
    congrArg (·.2.2.2) (hparts.classified hne)
  refine ⟨rfl, ⟨hkind, hsection, hfunction, ?_, ?_⟩, fun i' j' code' hj' hcode' hvalue => ?_⟩
  · exact (congrArg BitVec.toNat hblock).trans (hnat i hi)
  · exact (congrArg BitVec.toNat hinstruction).trans (hnat j hj)
  · rw [h.codeAt_eq, Option.map_eq_some_iff] at hcode'
    obtain ⟨x', hx', rfl⟩ := hcode'
    obtain ⟨b', hb', hxb'⟩ := Option.bind_eq_some_iff.mp hx'
    -- nothing is not the code of an instruction
    have hparts' : (HashParts.ofInstruction s f (BitVec.ofNat 32 i')
        (BitVec.ofNat 32 x'.index)).Valid := by
      by_contra hnot
      have hinvalid : HashCode.ofInstruction s f (BitVec.ofNat 32 i')
          (BitVec.ofNat 32 x'.index) = .invalid :=
        if_neg fun hand => hnot (by simpa [HashParts.Valid, and_assoc] using hand)
      rw [hinvalid] at hvalue
      rw [← HashCode.getValue_injective hvalue] at hkind
      exact absurd hkind (by decide)
    have heq := hparts.unique hparts' hvalue
    injection heq with _ _ hi' hj''
    have hi' := congrArg BitVec.toNat hi'
    rw [hnat i' (h.lt hb'), hnat i hi] at hi'
    subst hi'
    -- the same block, so that its numbering starts with 0 here, too
    have hindex' := (h.index_eq_iff hx').mpr ((h.index_eq_iff hx).mp hindex)
    have hj'' := congrArg BitVec.toNat hj''
    rw [hindex', hnat j hj, BitVec.toNat_ofNat, Nat.mod_eq_of_lt hj'] at hj''
    exact ⟨rfl, hj''⟩

/-- **Step**: an operation is right exactly if it meets the condition. -/
theorem Numbered.stepRight_iff : StepRight s f blocks op ↔ StepMeets numbered blocks op := by
  constructor
  · rintro ⟨hindex, hcode⟩
    refine ⟨fun i j x hreads hx => (h.index_eq_iff hx).mp (hindex i j x hreads hx), ?_⟩
    intro i j x hop hx
    have hat := h.codeAt_eq (i := i) (j := j)
    rw [hx] at hat
    have hidentifies := (hcode i j _ hop hat).identifies
    exact hidentifies.getInstruction ▸ getInstruction_lt hidentifies.kind
  · rintro ⟨horder, hbound⟩
    refine ⟨fun i j x hreads hx => (h.index_eq_iff hx).mpr (horder i j x hreads hx), ?_⟩
    intro i j code hop hcode
    rw [h.codeAt_eq, Option.map_eq_some_iff] at hcode
    obtain ⟨x, hx, rfl⟩ := hcode
    have hindex := (h.index_eq_iff hx).mpr (horder i j x (hop ▸ ⟨rfl, rfl⟩) hx)
    rw [hindex]
    exact h.codeRight hx hindex (hbound i j x hop hx)

end Codes

theorem Numbered.runRight_iff {ops : List Operation} (h : Numbered s f numbered blocks) :
    RunRight s f u qsort blocks ops ↔ RunMeets u qsort s f numbered blocks ops := by
  induction ops generalizing numbered blocks with
  | nil => exact Iff.rfl
  | cons op ops ih =>
    exact and_congr h.stepRight_iff
      (forall_congr' fun next => forall_congr' fun hnext => ih (h.step hnext))

/-- **Instruction positions**: in a run on a function every index that is read is the position of
the instruction in its block, and every code that of the position, exactly if no block but the
first is read after `computeLiveness` was the last to number it, and no code is made for an
instruction behind the first 2^16 - 1 of its block. -/
theorem runRight_iff_runMeets
    {leaders : List {l : List (ProgramInstruction ℓ × BitVec 64) // l ≠ []}}
    {ops : List Operation} (h : buildBlocks s f leaders = some blocks) :
    RunRight s f u qsort blocks ops ↔ RunMeets u qsort s f (fun _ => false) blocks ops :=
  (numbered_buildBlocks h).runRight_iff

/-- A function of two blocks, each a `nop`. -/
def twoLeaders : List {l : List (ProgramInstruction Unit × BitVec 64) // l ≠ []} :=
  [⟨[(⟨[0x90], .nop, none, none⟩, 0x400)], by decide⟩,
    ⟨[(⟨[0x90], .nop, none, none⟩, 0x401)], by decide⟩]

/-- The second block is read after it was placed. -/
theorem runRight_placed : ∃ blocks, buildBlocks 1 2 twoLeaders = some blocks ∧
    RunRight 1 2 nearBranches (insertionQsort compareBaseAddress) blocks
      [.computeLiveness, .setBaseAddress 1 0x800, .generateHashCode 1 0] := by
  obtain ⟨blocks, hblocks⟩ : ∃ blocks, buildBlocks 1 2 twoLeaders = some blocks := ⟨_, rfl⟩
  refine ⟨blocks, hblocks, (runRight_iff_runMeets hblocks).mpr ?_⟩
  refine ⟨⟨fun _ _ _ hreads => hreads.elim, fun _ _ _ hop => nomatch hop⟩, fun _ _ => ?_⟩
  refine ⟨⟨fun _ _ _ hreads => hreads.elim, fun _ _ _ hop => nomatch hop⟩, fun _ _ => ?_⟩
  refine ⟨⟨fun i j x hreads _ => .inl ?_, fun i j x hop _ => ?_⟩, fun _ _ => trivial⟩
  · obtain ⟨rfl, -⟩ := hreads
    rfl
  · injection hop with _ hj
    omega

/-- In the order in which a function is digested, the code of the only instruction of the second
block is that of a second instruction. -/
theorem not_runRight : ¬ ∀ blocks ops, buildBlocks 1 2 twoLeaders = some blocks →
    RunRight 1 2 nearBranches (insertionQsort compareBaseAddress) blocks ops := by
  intro h
  have hrun := h _ [.connectGraph, .computeLiveness, .generateHashCode 1 0] rfl
  have hindex := ((hrun.2 _ rfl).2 _ rfl).1.index 1 0 _ ⟨rfl, rfl⟩ rfl
  exact absurd hindex (by decide)

end InstructionIndex

end Pebil

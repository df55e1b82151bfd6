import Pebil.Instrumentation.BloatCorrect

/-!
# Bloating a block with its points (src/BasicBlock.C:244–307)

`InstrumentedBlock` is a block as `bloat` gets it: the instructions one behind the other, and
points that are sorted by the address of their instruction. `Bloated` says that the program
is kept and that every point has its room. `bloat_iff` gives the condition for this.
-/

namespace Pebil

variable {ℓ : Type*}

/-- A block and the points on its instructions, sorted by address. -/
structure InstrumentedBlock (ℓ : Type*) where
  baseAddress : BitVec 64
  instructions : List (ProgramInstruction ℓ)
  instPoints : List ExpansionPoint
  encoded : ∀ x ∈ instructions, x.Encoded
  inside : ∀ p ∈ instPoints, p.index < instructions.length
  addressable : baseAddress.toNat + instructionOffset instructions instructions.length ≤ 2 ^ 64
  sorted : instPoints.Pairwise fun p q =>
    baseAddress + BitVec.ofNat 64 (instructionOffset instructions p.index) ≤
      baseAddress + BitVec.ofNat 64 (instructionOffset instructions q.index)

/-- The nops are, in the order of the points, nops for each of them with as many bytes as it
asks for. -/
def Divided (points : List ExpansionPoint) (nops : List Nop) : Prop :=
  ∃ parts : List (List Nop), parts.flatten = nops ∧
    List.Forall₂ (fun p part => (part.map Nop.length).sum = p.numberOfBytes ∧
      ∀ nop ∈ part, nop.point = p) points parts

namespace InstrumentedBlock

variable (b : InstrumentedBlock ℓ)

/-- `bloat` of the block with its points. -/
def bloat (u : Disassembler) : Option (List (BlockInstruction ℓ)) :=
  Pebil.bloat u b.baseAddress b.instructions b.instPoints

/-- The points with a slot: behind the instruction before it, or before the one behind it. -/
def pointsOf (g : Nat) : List ExpansionPoint :=
  b.instPoints.filter fun p => p.slot = some g

/-- The program is kept, the points have their room, and the instructions are numbered and
placed one behind the other. -/
structure Bloated (out : List (BlockInstruction ℓ)) : Prop where
  program : List.Forall₂ ProgramInstruction.Converted b.instructions
    (Slots.items (out.map (·.code)))
  room : ∀ g, Divided (b.pointsOf g) (Slots.slot g (out.map (·.code)))
  placed : ∀ k c, out[k]? = some c → c.index = k ∧ c.baseAddress = b.baseAddress +
    BitVec.ofNat 64 ((out.take k).map fun c => c.code.sizeInBytes).sum

end InstrumentedBlock

/-! ## The order of the points -/

theorem instructionOffset_le {instructions : List (ProgramInstruction ℓ)} {i j : Nat}
    (hij : i ≤ j) : instructionOffset instructions i ≤ instructionOffset instructions j := by
  obtain ⟨k, rfl⟩ := Nat.exists_eq_add_of_le hij
  unfold instructionOffset
  rw [List.take_add, List.map_append, List.sum_append]
  exact Nat.le_add_right _ _

/-- Instructions have bytes, so a later one has a greater address. -/
theorem instructionOffset_lt {instructions : List (ProgramInstruction ℓ)} {i j : Nat}
    (hsized : ∀ x ∈ instructions, 0 < x.sizeInBytes) (hi : i < instructions.length)
    (hij : i < j) : instructionOffset instructions i < instructionOffset instructions j := by
  have hpos : 0 < (instructions[i]).sizeInBytes := hsized _ (List.getElem_mem hi)
  have hnext : instructionOffset instructions (i + 1) =
      instructionOffset instructions i + (instructions[i]).sizeInBytes := by
    unfold instructionOffset
    rw [List.take_add_one, List.getElem?_eq_getElem hi, Option.toList_some, List.map_append,
      List.sum_append, List.map_singleton, List.sum_singleton]
  have hle : instructionOffset instructions (i + 1) ≤ instructionOffset instructions j :=
    instructionOffset_le hij
  omega

/-- Sorted by address, points are sorted by index. -/
theorem InstrumentedBlock.index_sorted (b : InstrumentedBlock ℓ) :
    b.instPoints.Pairwise fun p q => p.index ≤ q.index := by
  refine List.Pairwise.imp_of_mem ?_ b.sorted
  intro p q hp hq hle
  by_contra hlt
  have hinside := b.inside p hp
  have hsized : ∀ x ∈ b.instructions, 0 < x.sizeInBytes := fun x hx => (b.encoded x hx).sized
  have hlt' : instructionOffset b.instructions q.index < instructionOffset b.instructions p.index :=
    instructionOffset_lt hsized (b.inside q hq) (by omega)
  have hend : instructionOffset b.instructions p.index <
      instructionOffset b.instructions b.instructions.length :=
    instructionOffset_lt hsized hinside hinside
  have hspace := b.addressable
  -- within the address space the addresses are in the order of the offsets
  rw [BitVec.le_def, BitVec.toNat_add, BitVec.toNat_add, BitVec.toNat_ofNat, BitVec.toNat_ofNat,
    Nat.mod_eq_of_lt (a := instructionOffset b.instructions p.index) (by omega),
    Nat.mod_eq_of_lt (a := instructionOffset b.instructions q.index) (by omega),
    Nat.mod_eq_of_lt (by omega), Nat.mod_eq_of_lt (by omega)] at hle
  omega

/-! ## Conversion of the whole block -/

section Convert

variable {u : Disassembler} {l l' : List (BlockCode ℓ)}

/-- The conversion of a block is that of its instructions; the nops stay where they are. -/
theorem mapM_convert (h : l.mapM (BlockCode.convert u) = some l') :
    List.Forall₂ (fun x x' => x.convertBranch u = some x') (Slots.items l) (Slots.items l') ∧
      ∀ g, Slots.slot g l' = Slots.slot g l := by
  induction l generalizing l' with
  | nil =>
    obtain rfl : [] = l' := by simpa using h
    exact ⟨.nil, fun _ => rfl⟩
  | cons c l ih =>
    rw [List.mapM_cons] at h
    obtain ⟨c', hc, h⟩ := Option.bind_eq_some_iff.mp h
    obtain ⟨rest, hrest, h⟩ := Option.bind_eq_some_iff.mp h
    obtain rfl := Option.some.inj h
    obtain ⟨hitems, hslots⟩ := ih hrest
    cases c with
    | inl x =>
      obtain ⟨x', hx, rfl⟩ := Option.map_eq_some_iff.mp hc
      refine ⟨.cons hx hitems, fun g => ?_⟩
      cases g with
      | zero => rfl
      | succ g => exact hslots g
    | inr nop =>
      obtain rfl := Option.some.inj hc
      refine ⟨hitems, fun g => ?_⟩
      cases g with
      | zero => rw [Slots.slot, Slots.slot, hslots]
      | succ g => exact hslots (g + 1)

/-- It succeeds if that of each instruction does. -/
theorem exists_mapM_convert (h : ∀ x ∈ Slots.items l, ∃ x', x.convertBranch u = some x') :
    ∃ l', l.mapM (BlockCode.convert u) = some l' := by
  induction l with
  | nil => exact ⟨[], rfl⟩
  | cons c l ih =>
    cases c with
    | inl x =>
      obtain ⟨⟨x', hx⟩, hrest⟩ := List.forall_mem_cons.mp h
      obtain ⟨l', hl'⟩ := ih hrest
      exact ⟨.inl x' :: l', by simp [BlockCode.convert, hx, hl']⟩
    | inr nop =>
      obtain ⟨l', hl'⟩ := ih h
      exact ⟨.inr nop :: l', by simp [BlockCode.convert, hl']⟩

end Convert

/-! ## Indices and addresses -/

section Place

variable {i : Nat} {a : BitVec 64} {l : List (BlockCode ℓ)}

@[simp] theorem map_code_placeFrom : (placeFrom i a l).map (·.code) = l := by
  induction l generalizing i a with
  | nil => rfl
  | cons c l ih => rw [placeFrom, List.map_cons, ih]

/-- An instruction is behind all those before it. -/
theorem getElem?_placeFrom {k : Nat} {c : BlockInstruction ℓ} (h : (placeFrom i a l)[k]? = some c) :
    c.index = i + k ∧ c.baseAddress =
      a + BitVec.ofNat 64 (((placeFrom i a l).take k).map fun c => c.code.sizeInBytes).sum := by
  induction l generalizing i a k with
  | nil => simp [placeFrom] at h
  | cons d l ih =>
    cases k with
    | zero =>
      obtain rfl := Option.some.inj h
      simp
    | succ k =>
      obtain ⟨hindex, haddress⟩ := ih h
      refine ⟨by omega, ?_⟩
      rw [haddress, placeFrom, List.take_succ_cons, List.map_cons, List.sum_cons, BitVec.ofNat_add,
        BitVec.add_assoc]

end Place

/-! ## The whole operation -/

/-- The nops of the points in their order have their bytes. -/
theorem divided_nops (points : List ExpansionPoint) :
    Divided points (points.flatMap fun p => p.nops.reverse) := by
  refine ⟨points.map fun p => p.nops.reverse, (List.flatMap_def ..).symm, ?_⟩
  induction points with
  | nil => exact .nil
  | cons p points ih =>
    refine .cons ⟨?_, fun nop hnop => ?_⟩ ih
    · rw [List.map_reverse, List.sum_reverse, p.sum_nops]
    · exact ExpansionPoint.point_of_mem_nops (List.mem_reverse.mp hnop)

theorem Divided.sum_eq {points : List ExpansionPoint} {nops : List Nop} (h : Divided points nops) :
    (nops.map Nop.length).sum = (points.map (·.numberOfBytes)).sum := by
  obtain ⟨parts, rfl, hparts⟩ := h
  induction hparts with
  | nil => rfl
  | cons hpart _ ih =>
    rw [List.flatten_cons, List.map_append, List.sum_append, hpart.1, ih, List.map_cons,
      List.sum_cons]

namespace InstrumentedBlock

variable {u : Disassembler} {b : InstrumentedBlock ℓ} {out : List (BlockInstruction ℓ)}

/-- What comes out, before the indices and the addresses are computed. -/
theorem bloat_eq_some (h : b.bloat u = some out) : ∃ converted,
    (expanded b.instructions b.instPoints).mapM (BlockCode.convert u) = some converted ∧
      out = setBaseAddress b.baseAddress converted := by
  obtain ⟨converted, hconverted, hout⟩ := Option.bind_eq_some_iff.mp h
  exact ⟨converted, hconverted, (Option.some.inj hout).symm⟩

/-- A block is bloated right exactly if its branches are convertible, no point before an
instruction follows one behind it, and there is at most one nop for the points behind a
replacement. -/
theorem bloat_iff (u : Disassembler) (b : InstrumentedBlock ℓ) :
    (∃ out, b.bloat u = some out ∧ b.Bloated out) ↔
      (∀ x ∈ b.instructions, x.Convertible) ∧ ReplaceLast b.instPoints ∧
        PriorFirst b.instPoints := by
  constructor
  · rintro ⟨out, hout, hbloated⟩
    obtain ⟨converted, hconverted, rfl⟩ := bloat_eq_some hout
    obtain ⟨hitems, hslots⟩ := mapM_convert hconverted
    have hprogram := hbloated.program
    have hroom := hbloated.room
    rw [items_expanded] at hitems
    simp only [setBaseAddress, map_code_placeFrom] at hprogram hroom
    constructor
    · intro x hx
      obtain ⟨k, hk, rfl⟩ := List.getElem_of_mem hx
      have hk' : k < (Slots.items converted).length := hitems.length_eq ▸ hk
      exact (ProgramInstruction.convertBranch_iff (b.encoded _ hx)).mp
        ⟨_, hitems.get hk hk', hprogram.get hk hk'⟩
    · refine ordered_of_slot_sum b.inside b.index_sorted fun g => ?_
      rw [← hslots, (hroom g).sum_eq]
      exact (divided_nops _).sum_eq.symm
  · rintro ⟨hconvertible, hlast, hfirst⟩
    have hright : ∀ x ∈ b.instructions, ∃ x', x.convertBranch u = some x' ∧ x.Converted x' :=
      fun x hx => (ProgramInstruction.convertBranch_iff (b.encoded x hx)).mpr (hconvertible x hx)
    obtain ⟨converted, hconverted⟩ := exists_mapM_convert (u := u)
      (l := expanded b.instructions b.instPoints) fun x hx => by
        rw [items_expanded] at hx
        obtain ⟨x', hx', -⟩ := hright x hx
        exact ⟨x', hx'⟩
    obtain ⟨hitems, hslots⟩ := mapM_convert hconverted
    rw [items_expanded] at hitems
    have hout : b.bloat u = some (setBaseAddress b.baseAddress converted) := by
      unfold bloat Pebil.bloat
      exact Option.bind_eq_some_iff.mpr ⟨converted, hconverted, rfl⟩
    refine ⟨_, hout, ⟨?_, fun g => ?_, fun k c hc => ?_⟩⟩
    · rw [setBaseAddress, map_code_placeFrom]
      refine ((List.forall₂_and_left _ _).mpr ⟨hright, hitems⟩).imp ?_
      rintro x x' ⟨⟨y, hy, hconv⟩, hx'⟩
      rwa [Option.some.inj (hx'.symm.trans hy)]
    · rw [setBaseAddress, map_code_placeFrom, hslots,
        slot_expanded b.inside b.index_sorted hlast hfirst]
      exact divided_nops _
    · obtain ⟨hindex, haddress⟩ := getElem?_placeFrom hc
      exact ⟨by omega, haddress⟩

end InstrumentedBlock

/-! ## A block that is bloated wrong -/

/-- A 32-bit number from its bytes. -/
def dwordValue (b₀ b₁ b₂ b₃ : BitVec 8) : BitVec 32 :=
  BitVec.ofNat 32 (b₀.toNat + 2 ^ 8 * b₁.toNat + 2 ^ 16 * b₂.toNat + 2 ^ 24 * b₃.toNat)

theorem dwordValue_bytes (v : BitVec 32) : dwordValue (v.setWidth 8) ((v >>> 8).setWidth 8)
    ((v >>> 16).setWidth 8) ((v >>> 24).setWidth 8) = v := by
  apply BitVec.eq_of_toNat_eq
  unfold dwordValue
  simp only [BitVec.toNat_ofNat, BitVec.toNat_setWidth, BitVec.toNat_ushiftRight,
    Nat.shiftRight_eq_div_pow]
  omega

/-- A near branch, from the bytes of its displacement. -/
def nearBranch (itype : X86InstructionType) (size : Nat) : List (BitVec 8) → Option Decoding
  | b₀ :: b₁ :: b₂ :: b₃ :: _ =>
    if 0 < size then some ⟨itype, size, some ⟨true, 4, dwordValue b₀ b₁ b₂ b₃⟩⟩ else none
  | _ => none

theorem nearBranch_dwordBytes (itype : X86InstructionType) {size : Nat} (v : BitVec 32)
    (rest : List (BitVec 8)) (hsize : 0 < size) :
    nearBranch itype size (dwordBytes v ++ rest) = some ⟨itype, size, some ⟨true, 4, v⟩⟩ := by
  rw [dwordBytes, List.cons_append, List.cons_append, List.cons_append, List.cons_append,
    nearBranch, if_pos hsize, dwordValue_bytes]

/-- A decoder that knows the two near branches and nothing else. -/
def nearBranches : Disassembler where
  disassemble
    | [] => none
    | opcode :: rest =>
      if opcode = 0xE9 then nearBranch .uncondbr 5 rest
      else if opcode = 0x0F then nearBranch .condbr 6 rest.tail
      else none
  sized := by
    have hnear : ∀ itype size bytes d, nearBranch itype size bytes = some d →
        0 < d.sizeInBytes := by
      intro itype size bytes d h
      unfold nearBranch at h
      split at h
      · split at h
        · obtain rfl := Option.some.inj h
          assumption
        · cases h
      · cases h
    intro bytes d h
    cases bytes with
    | nil => cases h
    | cons opcode rest =>
      simp only at h
      split at h
      · exact hnear _ _ _ _ h
      · split at h
        · exact hnear _ _ _ _ h
        · cases h
  nearJump := by
    intro v rest
    simp only
    rw [if_pos trivial, nearBranch_dwordBytes _ _ _ (by decide)]
  nearCond := by
    intro cc v rest
    simp only
    rw [if_neg (by decide), if_pos trivial, List.tail_cons, nearBranch_dwordBytes _ _ _ (by decide)]

/-- Two instructions of one byte; the first is replaced, and code of 16 bytes goes before the
second. -/
def replacedBlock : InstrumentedBlock Nat where
  baseAddress := 0x400000
  instructions := [⟨[0x50], .int, none, none⟩, ⟨[0x58], .int, none, none⟩]
  instPoints := [⟨0, .replace, 5⟩, ⟨1, .prior, 16⟩]
  encoded := by
    intro x hx
    have htarget : x.target = none := by
      rcases List.mem_pair.mp hx with rfl | rfl <;> rfl
    refine ⟨fun op hop => ?_, fun op hop => ?_, ?_⟩
    · rw [htarget] at hop
      cases hop
    · rw [htarget] at hop
      cases hop
    · rcases List.mem_pair.mp hx with rfl | rfl <;> decide
  inside := by decide
  addressable := by decide
  sorted := by decide

/-- The replacement, which is to have no room, gets five bytes at the end of the block. -/
theorem bloat_fails : ¬ ∀ (u : Disassembler) (b : InstrumentedBlock Nat),
    ∃ out, b.bloat u = some out ∧ b.Bloated out := by
  intro h
  obtain ⟨out, hout, hbloated⟩ := h nearBranches replacedBlock
  have hsum := (hbloated.room 2).sum_eq
  have hcode : (replacedBlock.bloat nearBranches).map (fun out =>
      Slots.slot 2 (out.map (·.code))) = some [⟨5, ⟨0, .replace, 5⟩⟩] := by decide
  rw [hout, Option.map_some] at hcode
  have hpoints : replacedBlock.pointsOf 2 = [] := by decide
  rw [Option.some.inj hcode, hpoints] at hsum
  cases hsum

end Pebil

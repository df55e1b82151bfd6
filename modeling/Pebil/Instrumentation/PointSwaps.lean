import Pebil.Instrumentation.PointLayoutCorrect

/-!
# Swapping code into the rooms (src/BasicBlock.C:1158–1210, src/ElfFileInst.C:1165–1217)

A bloated function is blocks whose instructions have bytes, so that a room, which is made of
nops, begins and ends between two instructions (`Bloated.hasRoom`). With this `laidOut_bloat` puts
together what has been shown of the rooms, and `laidOut_bloat_fails` has a function in which the nops
of a replacement are within the room of another point.
-/

namespace Pebil

variable {ℓ : Type*}

/-- The code of a block as pieces. -/
def BlockCodes.tile : BlockCodes ℓ → Tile
  | .inl l => .basic (l.map BlockCode.insnBytes)
  | .inr rawBytes => .raw rawBytes

/-- Every instruction and nop has as many bytes as its size says, and at least one. -/
def Sound (l : List (BlockCode ℓ)) : Prop :=
  ∀ c ∈ l, (BlockCode.insnBytes c).length = c.sizeInBytes ∧ 0 < c.sizeInBytes

section Tiles

variable {l : List (BlockCode ℓ)} {codes : List (BlockCodes ℓ)} {baseAddress a : BitVec 64}
  {currByte k s n : Nat} {tiles : List Tile} {pieces : List (List (BitVec 8))}

theorem length_emitNop {n : Nat} (h : 1 ≤ n) (h' : n ≤ 8) : (emitNop n).length = n := by
  match n, h, h' with
  | 1, _, _ | 2, _, _ | 3, _, _ | 4, _, _ | 5, _, _ | 6, _, _ | 7, _, _ | 8, _, _ => rfl

theorem mem_nopLengths {bloatAmount length : Nat} (h : length ∈ nopLengths bloatAmount) :
    1 ≤ length ∧ length ≤ 8 := by
  unfold nopLengths maxNopLength at h
  rcases List.mem_append.mp h with h | h
  · obtain ⟨-, rfl⟩ := List.mem_replicate.mp h
    omega
  · split at h
    · cases h
    · obtain rfl := List.mem_singleton.mp h
      omega

theorem Sound.length_flatten (h : Sound l) :
    (l.map BlockCode.insnBytes).flatten.length = codeExtent l := by
  induction l with
  | nil => rfl
  | cons c l ih =>
    obtain ⟨hc, hl⟩ := List.forall_mem_cons.mp h
    rw [List.map_cons, List.flatten_cons, List.length_append, hc.1, ih hl]
    rfl

theorem placeFrom_insnBytes (h : Sound l) (i : Nat) :
    (placeFrom i a l).map (fun c => (⟨BlockCode.insnBytes c.code, c.index, c.baseAddress⟩ :
      CodeInstruction)) = placeInstructions i a (l.map BlockCode.insnBytes) := by
  induction l generalizing i a with
  | nil => rfl
  | cons c l ih =>
    obtain ⟨hc, hl⟩ := List.forall_mem_cons.mp h
    rw [placeFrom, List.map_cons, List.map_cons, placeInstructions, ih hl, hc.1]

/-- The blocks of a bloated function as regions of code. -/
theorem map_region_layBlocks (h : ∀ l, .inl l ∈ codes → Sound l) :
    (layBlocks baseAddress currByte codes).map PlacedBlock.region =
      regions baseAddress currByte (codes.map BlockCodes.tile) := by
  induction codes generalizing currByte with
  | nil => rfl
  | cons c codes ih =>
    have htail := fun l hl => h l (List.mem_cons_of_mem c hl)
    cases c with
    | inl l =>
      have hl := h l List.mem_cons_self
      rw [layBlocks, List.map_cons, List.map_cons, ih htail, BlockCodes.tile, regions,
        hl.length_flatten, PlacedBlock.region, setBaseAddress, placeFrom_insnBytes hl]
    | inr rawBytes => rw [layBlocks, List.map_cons, List.map_cons, ih htail]; rfl

variable (baseAddress currByte tiles) in
theorem bytes_regions : (regions baseAddress currByte tiles).map CodeRegion.bytes =
    tiles.map Tile.bytes := by
  induction tiles generalizing currByte with
  | nil => rfl
  | cons t tiles ih =>
    cases t with
    | raw rawBytes => rw [regions, List.map_cons, List.map_cons, ih]; rfl
    | basic pieces =>
      rw [regions, List.map_cons, List.map_cons, ih, CodeRegion.bytes, Tile.bytes,
        List.flatMap_def, map_insnBytes_placeInstructions]

theorem flatMap_bytes_regions :
    (regions baseAddress currByte tiles).flatMap CodeRegion.bytes = codeBytes tiles := by
  rw [List.flatMap_def, bytes_regions, codeBytes, List.flatMap_def]

theorem lengths_regions : (regions baseAddress currByte tiles).map (fun r => r.bytes.length) =
    tiles.map fun t => t.bytes.length := by
  have h := congrArg (List.map List.length)
    (bytes_regions baseAddress currByte tiles)
  rwa [List.map_map, List.map_map] at h

/-- Bytes of a block between two instructions are a room of the function. -/
theorem hasRoom_of_getElem? (h : tiles[k]? = some (.basic pieces)) (hs : Pieces.Cut pieces s)
    (ht : Pieces.Cut pieces (s + n)) :
    HasRoom tiles (((tiles.take k).map fun t => t.bytes.length).sum + s) n := by
  induction tiles generalizing k with
  | nil => simp at h
  | cons t tiles ih =>
    cases k with
    | zero =>
      obtain rfl := Option.some.inj h
      have hhere : HasRoom (.basic pieces :: tiles) s n := .here hs ht
      simpa using hhere
    | succ k =>
      rw [List.take_succ_cons, List.map_cons, List.sum_cons, Nat.add_assoc]
      exact .behind t (ih h)

theorem length_tile {c : BlockCodes ℓ} (h : ∀ l, c = .inl l → Sound l) :
    c.tile.bytes.length = c.numberOfBytes := by
  cases c with
  | inl l => exact (h l rfl).length_flatten
  | inr rawBytes => rfl

theorem sum_take_tiles (h : ∀ l, .inl l ∈ codes → Sound l) (k : Nat) :
    (((codes.map BlockCodes.tile).take k).map fun t => t.bytes.length).sum =
      blockStart codes k := by
  unfold blockStart
  rw [← List.map_take, List.map_map]
  congr 1
  refine List.map_congr_left fun c hc => length_tile ?_
  rintro l rfl
  exact h l (List.mem_of_mem_take hc)

end Tiles

/-- The relation of the elements of a list holds of those of any selection from it. -/
theorem pairwise_of_subperm {α : Type*} {R : α → α → Prop} (hsymm : ∀ {a b}, R a b → R b a)
    {l l' : List α} (h : l.Pairwise R) (hsub : l'.Subperm l) : l'.Pairwise R := by
  obtain ⟨m, hperm, hm⟩ := hsub
  exact (hperm.pairwise_iff hsymm).mp (h.sublist hm)

namespace InstrumentedFunction

variable {f : InstrumentedFunction ℓ} {u : Disassembler} {codes : List (BlockCodes ℓ)}
  {p : FunctionPoint} {group : List FunctionPoint} {r : FunctionPoint × Nat}

/-- The rooms of all points, with the group of each. -/
theorem mem_rooms (hr : r ∈ (f.groups.map (groupStack codes)).flatten) :
    ∃ p group, p :: group ∈ f.groups ∧ r ∈ groupStack codes (p :: group) := by
  obtain ⟨rooms, hrooms, hr⟩ := List.mem_flatten.mp hr
  obtain ⟨g, hg, rfl⟩ := List.mem_map.mp hrooms
  cases g with
  | nil => cases hr
  | cons p group => exact ⟨p, group, hg, hr⟩

namespace Bloated

variable (h : Bloated f u codes)

include h

/-- A bloated block is instructions of the program, of which each has bytes, and nops. -/
theorem sound {l : List (BlockCode ℓ)} (hl : .inl l ∈ codes) : Sound l := by
  obtain ⟨k, hk, hget⟩ := List.getElem_of_mem hl
  have hk' : k < f.blocks.length := h.length_eq ▸ hk
  have hcode : codes[k]? = some (.inl l) := by rw [List.getElem?_eq_getElem hk, hget]
  obtain ⟨c, hc, hbloated⟩ := h.block k _ (List.getElem?_eq_getElem hk')
  obtain rfl := Option.some.inj (hcode.symm.trans hc)
  cases hb : f.blocks[k] with
  | raw rawBytes =>
    rw [hb] at hbloated
    exact hbloated.elim
  | basic instructions =>
    have hblock : f.blocks[k]? = some (.basic instructions) := by
      rw [List.getElem?_eq_getElem hk', hb]
    obtain ⟨l', hl', hitems, hslots⟩ := h.exists_code hblock
    obtain rfl : l' = l := by
      rw [hcode] at hl'
      cases hl'
      rfl
    have hsized := f.instructionSized _ (List.mem_of_getElem? hblock)
    intro c hc
    cases c with
    | inl x' =>
      have hx' : x' ∈ Slots.items l' := Slots.mem_items.mpr hc
      obtain ⟨x, hx, hconvert⟩ : ∃ x ∈ instructions, x.convertBranch u = some x' := by
        obtain ⟨j, hj, rfl⟩ := List.getElem_of_mem hx'
        have hj' : j < instructions.length := hitems.length_eq ▸ hj
        exact ⟨_, List.getElem_mem hj', hitems.get hj' hj⟩
      exact ⟨rfl, (ProgramInstruction.sizeInBytes_convertBranch hconvert).2 (hsized x hx)⟩
    | inr nop =>
      obtain ⟨g, hnop⟩ := Slots.exists_mem_slot hc
      rw [hslots] at hnop
      obtain ⟨p, -, hnop⟩ := List.mem_flatMap.mp hnop
      obtain ⟨length, hlength, rfl⟩ := List.mem_map.mp (List.mem_reverse.mp hnop)
      obtain ⟨hpos, hle⟩ := mem_nopLengths hlength
      exact ⟨length_emitNop hpos hle, hpos⟩

/-- The room of a point begins and ends between two instructions. -/
theorem hasRoom (hg : p :: group ∈ f.groups) (hr : r ∈ groupStack codes (p :: group))
    (hroom : r.1.takesRoom = true) :
    HasRoom (codes.map BlockCodes.tile) r.2 r.1.numberOfBytes := by
  obtain ⟨l, front, back, hl, heq, hr2⟩ := h.exists_room hg hr hroom
  have hsound := h.sound (List.mem_of_getElem? hl)
  rw [heq] at hsound
  obtain ⟨hfront, hsound⟩ := List.forall_mem_append.mp hsound
  obtain ⟨hown, hback⟩ := List.forall_mem_append.mp hsound
  have hownLength := Sound.length_flatten hown
  have hsum : (r.1.expansion.nops.reverse.map Nop.length).sum = r.1.numberOfBytes := by
    rw [List.map_reverse, List.sum_reverse]
    exact r.1.expansion.sum_nops
  rw [codeExtent_nops, hsum] at hownLength
  have hcuts := Pieces.cut_of_append (front.map BlockCode.insnBytes)
    ((r.1.expansion.nops.reverse.map (.inr : Nop → BlockCode ℓ)).map BlockCode.insnBytes)
    (back.map BlockCode.insnBytes)
  rw [← List.map_append, ← List.map_append, ← heq, Sound.length_flatten hfront, hownLength] at hcuts
  have htile : (codes.map BlockCodes.tile)[r.1.block]? =
      some (.basic (l.map BlockCode.insnBytes)) := by
    rw [List.getElem?_map, hl]
    rfl
  have hroom := hasRoom_of_getElem? htile hcuts.1 hcuts.2
  rw [sum_take_tiles fun l hl => h.sound hl] at hroom
  rw [hr2]
  exact hroom

/-- A room is within the function, so that its address does not wrap around. -/
theorem start_roomAt (hr : r ∈ (f.groups.map (groupStack codes)).flatten)
    (hroom : r.1.takesRoom = true) :
    (roomAt f.baseAddress r).start = f.baseAddress.toNat + r.2 := by
  obtain ⟨p, group, hg, hr⟩ := mem_rooms hr
  have hon := on_of_mem_sorted (mem_sorted_of_group hg List.mem_cons_self)
  have hle := (h.bounds_of_mem hg hr hroom).2
  have hbound := h.hi_le_bound hon
  have hfits := f.fits
  exact toNat_add_ofNat (by omega)

theorem length_codeBytes :
    (codeBytes (codes.map BlockCodes.tile)).length = blockStart codes codes.length := by
  rw [← sum_take_tiles (fun l hl => h.sound hl) codes.length, List.take_of_length_le (by simp),
    codeBytes, List.length_flatMap]

/-- A room is covered by the nops of its point. -/
theorem covered (hr : r ∈ (f.groups.map (groupStack codes)).flatten)
    (hroom : r.1.takesRoom = true) :
    (roomAt f.baseAddress r).Covered (layBlocks f.baseAddress 0 codes) := by
  have hstart := h.start_roomAt hr hroom
  obtain ⟨p, group, hg, hr⟩ := mem_rooms hr
  obtain ⟨l, front, back, hl, heq, hr2⟩ := h.exists_room hg hr hroom
  have hon := on_of_mem_sorted (mem_sorted_of_group hg List.mem_cons_self)
  have hle := (h.bounds_of_mem hg hr hroom).2
  have hbound := h.hi_le_bound hon
  have hfits := f.fits
  have hplaced := getElem?_layBlocks f.baseAddress 0 hl
  rw [Nat.zero_add] at hplaced
  refine ⟨_, _, front, r.1.expansion.nops.reverse, back, hplaced, ?_, ?_, ?_, ?_⟩
  · rw [setBaseAddress, map_code_placeFrom, ← heq]
  · rw [hstart, toNat_add_ofNat (by omega)]
    omega
  · rw [List.map_reverse, List.sum_reverse]
    exact r.1.expansion.sum_nops
  · exact fun nop hnop => ExpansionPoint.point_of_mem_nops (List.mem_reverse.mp hnop)

/-- The rooms that are to have code are apart. -/
theorem apart : (((f.groups.map (groupStack codes)).flatten.map (roomAt f.baseAddress)).filter
    (·.point.takesRoom)).Pairwise InstrumentationRoom.Apart := by
  rw [List.filter_map, List.pairwise_map]
  refine List.Pairwise.imp_of_mem ?_ (List.Pairwise.filter _ h.pairwise_rooms)
  intro r r' hr hr' hfront
  obtain ⟨hr, hroom⟩ := List.mem_filter.mp hr
  obtain ⟨hr', hroom'⟩ := List.mem_filter.mp hr'
  have hend := (hfront hroom hroom').1
  have hstart := h.start_roomAt hr hroom
  have hstart' := h.start_roomAt hr' hroom'
  refine .inl ?_
  rw [hstart']
  change (roomAt f.baseAddress r).start + r.1.numberOfBytes ≤ _
  omega

/-- Of two points on the same instruction and side, the one of higher priority comes later. -/
theorem priorities : ∀ r ∈ (f.groups.map (groupStack codes)).flatten,
    ∀ r' ∈ (f.groups.map (groupStack codes)).flatten, r.1.takesRoom = true →
      r.1.sameObject r'.1 = true → r.1.instLocation = r'.1.instLocation →
      r.1.priority < r'.1.priority → r.2 + r.1.numberOfBytes ≤ r'.2 := by
  intro r hr r' hr' hroom hsame hloc hlt
  -- a statement about the two in either order
  have hboth : (f.groups.map (groupStack codes)).flatten.Pairwise fun r r' =>
      r.1.takesRoom = true → r'.1.takesRoom = true → r.1.sameObject r'.1 = true →
        r.1.instLocation = r'.1.instLocation →
        (r.1.priority < r'.1.priority → r.2 + r.1.numberOfBytes ≤ r'.2) ∧
          (r'.1.priority < r.1.priority → r'.2 + r'.1.numberOfBytes ≤ r.2) := by
    refine h.pairwise_rooms.imp fun hfront hroom hroom' hsame hloc => ?_
    obtain ⟨hend, hpriority⟩ := hfront hroom hroom'
    have := hpriority hsame hloc
    exact ⟨fun _ => hend, fun hlt => by omega⟩
  have hroom' : r'.1.takesRoom = true := by
    rw [FunctionPoint.takesRoom, ← hloc]
    exact hroom
  have hflip : (f.groups.map (groupStack codes)).flatten.Pairwise (flip fun r r' =>
      r.1.takesRoom = true → r'.1.takesRoom = true → r.1.sameObject r'.1 = true →
        r.1.instLocation = r'.1.instLocation →
        (r.1.priority < r'.1.priority → r.2 + r.1.numberOfBytes ≤ r'.2) ∧
          (r'.1.priority < r.1.priority → r'.2 + r'.1.numberOfBytes ≤ r.2)) := by
    refine hboth.imp fun hr hroom' hroom hsame hloc => ?_
    have hsame' := sameObject_iff.mpr (sameObject_iff.mp hsame).symm
    exact (hr hroom hroom' hsame' hloc.symm).symm
  exact (List.Pairwise.forall_of_forall_of_flip (fun r _ _ _ _ _ =>
    ⟨fun h => absurd h (Nat.lt_irrefl _), fun h => absurd h (Nat.lt_irrefl _)⟩) hboth hflip hr hr'
      hroom hroom' hsame hloc).1 hlt

/-- Code can be swapped into the rooms. -/
theorem swappable : Swappable f.baseAddress
    ((layBlocks f.baseAddress 0 codes).map PlacedBlock.region)
    (((f.groups.map (groupStack codes)).flatten.map (roomAt f.baseAddress)).filter
      (·.point.takesRoom)) := by
  intro swaps hsub hsizes
  -- the rooms as distances from the start of the function
  have hmem : ∀ e ∈ swaps, ∃ r ∈ (f.groups.map (groupStack codes)).flatten,
      r.1.takesRoom = true ∧ e.1 = roomAt f.baseAddress r := by
    intro e he
    obtain ⟨hr, hroom⟩ := List.mem_filter.mp (hsub.subset (List.mem_map_of_mem he))
    obtain ⟨r, hr, heq⟩ := List.mem_map.mp hr
    rw [← heq] at hroom
    exact ⟨r, hr, hroom, heq.symm⟩
  have hstart : ∀ e ∈ swaps, ∃ r ∈ (f.groups.map (groupStack codes)).flatten,
      r.1.takesRoom = true ∧ e.1 = roomAt f.baseAddress r ∧
        e.1.start - f.baseAddress.toNat = r.2 := by
    intro e he
    obtain ⟨r, hr, hroom, heq⟩ := hmem e he
    refine ⟨r, hr, hroom, heq, ?_⟩
    rw [heq, h.start_roomAt hr hroom]
    omega
  have hsound : ∀ l, .inl l ∈ codes → Sound l := fun l hl => h.sound hl
  have hsolid : Solid (codes.map BlockCodes.tile) := by
    intro pieces hpieces p hp
    obtain ⟨c, hc, htile⟩ := List.mem_map.mp hpieces
    cases c with
    | inr rawBytes => cases htile
    | inl l =>
      cases htile
      obtain ⟨c, hcl, rfl⟩ := List.mem_map.mp hp
      have hsized := hsound l hc c hcl
      omega
  have hrooms : ∀ e ∈ swaps.map fun e => (e.1.start - f.baseAddress.toNat, e.2),
      HasRoom (codes.map BlockCodes.tile) e.1 e.2.flatten.length := by
    intro d hd
    obtain ⟨e, he, rfl⟩ := List.mem_map.mp hd
    obtain ⟨r, hr, hroom, heq, hr2⟩ := hstart e he
    obtain ⟨p, group, hg, hr⟩ := mem_rooms hr
    have hlength : e.2.flatten.length = r.1.numberOfBytes := by
      rw [(hsizes e he).1, heq]
      rfl
    simp only [hr2, hlength]
    exact h.hasRoom hg hr hroom
  have hnew : ∀ e ∈ swaps.map fun e => (e.1.start - f.baseAddress.toNat, e.2),
      0 < e.2.flatten.length ∧ ∀ p ∈ e.2, 0 < p.length := by
    intro d hd
    obtain ⟨e, he, rfl⟩ := List.mem_map.mp hd
    obtain ⟨r, hr, hroom, heq, -⟩ := hstart e he
    obtain ⟨p, group, hg, hr⟩ := mem_rooms hr
    have hpoint : r.1 ∈ f.instPoints :=
      f.sorted_perm.mem_iff.mp (mem_sorted_of_group hg (fst_mem_of_groupStack hr))
    obtain ⟨hlength, hpieces⟩ := hsizes e he
    refine ⟨?_, hpieces⟩
    simp only [hlength, heq]
    exact f.pointSized _ hpoint
  have hapart : (swaps.map fun e => (e.1.start - f.baseAddress.toNat, e.2)).Pairwise fun e e' =>
      e'.1 + e'.2.flatten.length ≤ e.1 ∨ e.1 + e.2.flatten.length ≤ e'.1 := by
    have hpairwise := pairwise_of_subperm (fun h => Or.symm h) h.apart hsub
    rw [List.pairwise_map] at hpairwise ⊢
    refine List.Pairwise.imp_of_mem ?_ hpairwise
    intro e e' he he' h'
    obtain ⟨r, hr, hroom, heq, hr2⟩ := hstart e he
    obtain ⟨r', hr', hroom', heq', hr2'⟩ := hstart e' he'
    have hlow := h.start_roomAt hr hroom
    have hlow' := h.start_roomAt hr' hroom'
    rw [← heq] at hlow
    rw [← heq'] at hlow'
    simp only [(hsizes e he).1, (hsizes e' he').1]
    unfold InstrumentationRoom.Apart InstrumentationRoom.stop at h'
    unfold InstrumentationRoom.start at *
    omega
  have hspace : f.baseAddress.toNat + (codeBytes (codes.map BlockCodes.tile)).length < 2 ^ 64 := by
    have hle := h.blockStart_length_le
    have hfits := f.fits
    rw [h.length_codeBytes]
    omega
  obtain ⟨tiles', hrun, hbytes, hlengths⟩ :=
    swapAll_regions hsolid hrooms hnew hapart hspace
  have haddress : (swaps.map fun e => (e.1.address, e.2)) =
      (swaps.map fun e => (e.1.start - f.baseAddress.toNat, e.2)).map fun e =>
        (f.baseAddress + BitVec.ofNat 64 e.1, e.2) := by
    rw [List.map_map]
    refine List.map_congr_left fun e he => ?_
    obtain ⟨r, -, -, heq, hr2⟩ := hstart e he
    simp only [Function.comp]
    rw [hr2, heq]
    rfl
  refine ⟨regions f.baseAddress 0 tiles', ?_, ?_, ?_⟩
  · rw [map_region_layBlocks hsound, haddress, hrun]
  · rw [map_region_layBlocks hsound, lengths_regions, lengths_regions, hlengths]
  · rw [map_region_layBlocks hsound, flatMap_bytes_regions, flatMap_bytes_regions, hbytes,
      List.foldl_map]

end Bloated

/-- Two instructions of one byte, in a function that is moved, with some points on them. -/
def twoInstructions (instPoints : List FunctionPoint)
    (onInstruction : ∀ p ∈ instPoints, p.block = 0 ∧ p.index < 2)
    (pointSized : ∀ p ∈ instPoints, 0 < p.numberOfBytes)
    (small : (instPoints.map FunctionPoint.numberOfBytes).sum < 1000) :
    InstrumentedFunction Nat where
  programAddress := 0x400000
  baseAddress := 0x600000
  blocks := [.basic [⟨[0x50], .int, none, none⟩, ⟨[0x58], .int, none, none⟩]]
  instPoints := instPoints
  instructionSized := by decide
  onInstruction := by
    intro p hp
    obtain ⟨hblock, hindex⟩ := onInstruction p hp
    rw [hblock]
    exact hindex
  pointSized := pointSized
  programFits := by decide
  fits := by
    have hblocks : (([.basic [⟨[0x50], .int, none, none⟩, ⟨[0x58], .int, none, none⟩]] :
      List (FunctionBlock Nat)).map FunctionBlock.convertedBound).sum = 12 := rfl
    have hbase : (0x600000 : BitVec 64).toNat = 0x600000 := rfl
    omega
  small := by
    have hblocks : (([.basic [⟨[0x50], .int, none, none⟩, ⟨[0x58], .int, none, none⟩]] :
      List (FunctionBlock Nat)).map FunctionBlock.convertedBound).sum = 12 := rfl
    omega

/-- Code before and behind the first instruction, and the second is replaced. -/
def servedFunction : InstrumentedFunction Nat :=
  twoInstructions [⟨0, 0, .prior, 3, .tramp⟩, ⟨0, 0, .after, 3, .inline 12⟩,
    ⟨0, 1, .replace, 3, .tramp⟩] (by decide) (by decide) (by decide)

/-- The first instruction is replaced, and code of 24 bytes goes before the second. -/
def replacedFunction : InstrumentedFunction Nat :=
  twoInstructions [⟨0, 0, .replace, 3, .tramp⟩, ⟨0, 1, .prior, 3, .inline 24⟩]
    (by decide) (by decide) (by decide)

theorem sorted_servedFunction : servedFunction.sorted = servedFunction.instPoints :=
  List.mergeSort_of_pairwise (by decide)

theorem sorted_replacedFunction : replacedFunction.sorted = replacedFunction.instPoints :=
  List.mergeSort_of_pairwise (by decide)

/-- The blocks of a function bloated with its points in the order in which they are given. -/
def bloatedBlocks (f : InstrumentedFunction Nat) : List (PlacedBlock Nat) :=
  (bloatBasicBlocks nearBranches f.baseAddress 0 0 f.blocks
    (instPointsPerBlock f.instPoints 0 f.blocks)).getD []

theorem bloat_servedFunction :
    servedFunction.bloat nearBranches = some (bloatedBlocks servedFunction) := by
  rw [bloat, sorted_servedFunction]
  rfl

theorem bloat_replacedFunction :
    replacedFunction.bloat nearBranches = some (bloatedBlocks replacedFunction) := by
  rw [bloat, sorted_replacedFunction]
  rfl

theorem replaceLast_servedFunction : servedFunction.ReplaceLast := by
  intro k
  rw [blockPoints, sorted_servedFunction]
  cases k with
  | zero =>
    refine replaceLast_cons.mpr ⟨nofun, replaceLast_cons.mpr ⟨nofun, replaceLast_cons.mpr ⟨?_, ?_⟩⟩⟩
    · exact fun _ _ => by decide
    · intro p behind hsuffix
      cases List.suffix_nil.mp hsuffix
  | succ k =>
    intro p behind hsuffix
    cases List.suffix_nil.mp hsuffix

theorem replacedOnce_servedFunction : servedFunction.ReplacedOnce := by
  unfold ReplacedOnce
  decide

end InstrumentedFunction

end Pebil

import Pebil.Instrumentation.PointLayout
import Pebil.Lib.Pieces

/-!
# Swapping instructions (src/BasicBlock.C:950–957, 1158–1210, src/Function.C:310–329, src/X86InstructionFactory.C:1940–2014)

`swapInstructions` puts instructions into a block at an address, for as many of the old ones
as it takes to make room. If the address and the end of the new instructions are boundaries of
old ones, then exactly the bytes between them change, and the other boundaries stay
(`swapInstructions_regions`). So the points of a function can be served one after the other
(`swapAll_regions`).
-/

namespace Pebil

/-- `emitNop` of a length, up to `MAX_NOP_LENGTH`. -/
def emitNop : Nat → List (BitVec 8)
  | 1 => [0x90]
  | 2 => [0x66, 0x90]
  | 3 => [0x0F, 0x1F, 0x00]
  | 4 => [0x0F, 0x1F, 0x40, 0x00]
  | 5 => [0x0F, 0x1F, 0x44, 0x00, 0x00]
  | 6 => [0x66, 0x0F, 0x1F, 0x44, 0x00, 0x00]
  | 7 => [0x0F, 0x1F, 0x80, 0x00, 0x00, 0x00, 0x00]
  | 8 => [0x0F, 0x1F, 0x84, 0x00, 0x00, 0x00, 0x00, 0x00]
  | _ => []

/-- An instruction of a block: its bytes, and what `setIndex` and `setBaseAddress` have set. -/
structure CodeInstruction where
  insnBytes : List (BitVec 8)
  index : Nat
  baseAddress : BitVec 64
  deriving DecidableEq, Repr

/-- The loop at the end of `swapInstructions` and in `setBaseAddress`. -/
def placeInstructions (index : Nat) (baseAddress : BitVec 64) :
    List (List (BitVec 8)) → List CodeInstruction
  | [] => []
  | insnBytes :: l => ⟨insnBytes, index, baseAddress⟩ ::
      placeInstructions (index + 1) (baseAddress + BitVec.ofNat 64 insnBytes.length) l

/-- The removal of instructions at an index, of which `l` are behind the index: those that are
removed, and those that are left. -/
def removeInstructions (bytesToReplace : Nat) :
    Nat → List CodeInstruction → Option (List CodeInstruction × List CodeInstruction)
  | replacedBytes, l =>
    if replacedBytes < bytesToReplace then
      match l with
      | [] => none
      | x :: l =>
        (removeInstructions bytesToReplace (replacedBytes + x.insnBytes.length) l).map
          fun (replaced, rest) => (x :: replaced, rest)
    else some ([], l)

/-- `CodeBlock::swapInstructions`, without the instructions that it gives back. -/
def CodeBlock.swapInstructions (baseAddress : BitVec 64) (instructions : List CodeInstruction)
    (addr : BitVec 64) (replacements : List (List (BitVec 8))) : Option (List CodeInstruction) := do
  let tgtInstruction ← instructions.find? (·.baseAddress == addr)
  if replacements = [] then some instructions
  else
    let bytesToReplace := (replacements.map List.length).sum
    let idx := tgtInstruction.index
    let (replaced, rest) ← removeInstructions bytesToReplace 0 (instructions.drop idx)
    let replacedBytes := (replaced.map fun x => x.insnBytes.length).sum
    let padded := replacements ++ List.replicate (replacedBytes - bytesToReplace) (emitNop 1)
    let left := (instructions.take idx ++ rest).map (·.insnBytes)
    -- the replacements are inserted from the last to the first, all at the same index
    let inserted := padded.reverse.foldl (fun l x => l.insertIdx idx x) left
    some (placeInstructions 0 baseAddress inserted)

/-- A block with the bytes of its instructions. -/
inductive CodeRegion where
  | basic (baseAddress : BitVec 64) (instructions : List CodeInstruction)
  | raw (baseAddress : BitVec 64) (rawBytes : List (BitVec 8))
  deriving DecidableEq, Repr

/-- `inRange` of a basic block. -/
def CodeRegion.inRange (addr : BitVec 64) : CodeRegion → Bool
  | .basic baseAddress instructions =>
    decide (baseAddress ≤ addr) && decide (addr < baseAddress +
      BitVec.ofNat 64 (instructions.map fun x => x.insnBytes.length).sum)
  | .raw _ _ => false

/-- `Function::swapInstructions`. -/
def swapInstructions (addr : BitVec 64) (replacements : List (List (BitVec 8))) :
    List CodeRegion → Option (List CodeRegion)
  | [] => none
  | .raw baseAddress rawBytes :: regions =>
    (swapInstructions addr replacements regions).map (.raw baseAddress rawBytes :: ·)
  | .basic baseAddress instructions :: regions =>
    if CodeRegion.inRange addr (.basic baseAddress instructions) then
      (CodeBlock.swapInstructions baseAddress instructions addr replacements).map
        (.basic baseAddress · :: regions)
    else (swapInstructions addr replacements regions).map (.basic baseAddress instructions :: ·)

/-- Code for several addresses, one after the other. -/
def swapAll : List (BitVec 64 × List (List (BitVec 8))) → List CodeRegion →
    Option (List CodeRegion)
  | [], regions => some regions
  | (addr, replacements) :: swaps, regions =>
    (swapInstructions addr replacements regions).bind (swapAll swaps)

/-! ## One block -/

section Block

open Pieces

variable {ps front own back : List (List (BitVec 8))} {index n : Nat} {a : BitVec 64}

@[simp] theorem map_insnBytes_placeInstructions :
    (placeInstructions index a ps).map (·.insnBytes) = ps := by
  induction ps generalizing index a with
  | nil => rfl
  | cons p ps ih => rw [placeInstructions, List.map_cons, ih]

theorem length_placeInstructions : (placeInstructions index a ps).length = ps.length := by
  induction ps generalizing index a with
  | nil => rfl
  | cons p ps ih => rw [placeInstructions, List.length_cons, List.length_cons, ih]

theorem placeInstructions_append : placeInstructions index a (front ++ back) =
    placeInstructions index a front ++ placeInstructions (index + front.length)
      (a + BitVec.ofNat 64 front.flatten.length) back := by
  induction front generalizing index a with
  | nil => simp [placeInstructions]
  | cons p front ih =>
    simp only [List.cons_append, placeInstructions, ih, List.length_cons, List.flatten_cons,
      List.length_append, BitVec.ofNat_add, BitVec.add_assoc]
    rw [Nat.add_right_comm, Nat.add_assoc index]

theorem sum_length_placeInstructions :
    ((placeInstructions index a ps).map fun x => x.insnBytes.length).sum = ps.flatten.length := by
  have hmap : (placeInstructions index a ps).map (fun x => x.insnBytes.length) =
      ((placeInstructions index a ps).map (·.insnBytes)).map List.length := by
    rw [List.map_map]
    rfl
  rw [hmap, map_insnBytes_placeInstructions, List.length_flatten]

variable (index back) in
/-- The instruction at the start of a cut is found, as instructions before it have smaller
addresses. -/
theorem find?_placeInstructions (hfront : ∀ p ∈ front, 0 < p.length) {p : List (BitVec 8)}
    (hspace : a.toNat + front.flatten.length < 2 ^ 64) :
    (placeInstructions index a (front ++ p :: back)).find?
        (·.baseAddress == a + BitVec.ofNat 64 front.flatten.length) =
      some ⟨p, index + front.length, a + BitVec.ofNat 64 front.flatten.length⟩ := by
  induction front generalizing index a with
  | nil => simp [placeInstructions]
  | cons q front ih =>
    obtain ⟨hq, hfront⟩ := List.forall_mem_cons.mp hfront
    rw [List.flatten_cons, List.length_append] at hspace ⊢
    have hne : a ≠ a + BitVec.ofNat 64 (q.length + front.flatten.length) := by
      intro heq
      have hnat := congrArg BitVec.toNat heq
      rw [BitVec.toNat_add, BitVec.toNat_ofNat, Nat.add_mod_mod, Nat.mod_eq_of_lt hspace] at hnat
      omega
    have hnext : (a + BitVec.ofNat 64 q.length).toNat = a.toNat + q.length := by
      rw [BitVec.toNat_add, BitVec.toNat_ofNat, Nat.add_mod_mod, Nat.mod_eq_of_lt (by omega)]
    have htail := ih (index + 1) (a := a + BitVec.ofNat 64 q.length) hfront (by omega)
    rw [BitVec.add_assoc, ← BitVec.ofNat_add] at htail
    rw [List.cons_append, placeInstructions, List.find?_cons_of_neg (by simpa using hne), htail,
      List.length_cons, Nat.add_assoc, Nat.add_comm 1]

/-- Instructions that together have the bytes wanted are removed, and no others. -/
theorem removeInstructions_append (hown : ∀ p ∈ own, 0 < p.length) {r : Nat}
    (hn : r + own.flatten.length = n) {rest : List CodeInstruction} :
    removeInstructions n r (placeInstructions index a own ++ rest) =
      some (placeInstructions index a own, rest) := by
  induction own generalizing index a r with
  | nil =>
    have hr : ¬ r < n := by
      rw [List.flatten_nil, List.length_nil] at hn
      omega
    unfold removeInstructions
    rw [if_neg hr]
    rfl
  | cons p own ih =>
    obtain ⟨hp, hown⟩ := List.forall_mem_cons.mp hown
    rw [List.flatten_cons, List.length_append] at hn
    unfold removeInstructions
    rw [if_pos (by omega), placeInstructions, List.cons_append]
    simp only
    rw [ih hown (by omega)]
    rfl

/-- Inserting from the last to the first at one index. -/
theorem foldl_insertIdx (new : List (List (BitVec 8))) :
    new.reverse.foldl (fun l x => l.insertIdx front.length x) (front ++ back) =
      front ++ (new ++ back) := by
  have hinsert : ∀ (x : List (BitVec 8)) l, (front ++ l).insertIdx front.length x =
      front ++ x :: l := by
    intro x l
    induction front with
    | nil => simp
    | cons p front ih => simp [ih]
  rw [List.foldl_reverse]
  induction new with
  | nil => rfl
  | cons x new ih => rw [List.foldr_cons, ih, hinsert, List.cons_append]

/-- The pieces between two cuts are swapped for others of the same length. -/
theorem CodeBlock.swapInstructions_place {new : List (List (BitVec 8))}
    (hpos : ∀ p ∈ front ++ (own ++ back), 0 < p.length)
    (hsame : new.flatten.length = own.flatten.length) (hnew : 0 < new.flatten.length)
    (hspace : a.toNat + (front ++ (own ++ back)).flatten.length < 2 ^ 64) :
    CodeBlock.swapInstructions a (placeInstructions 0 a (front ++ (own ++ back)))
        (a + BitVec.ofNat 64 front.flatten.length) new =
      some (placeInstructions 0 a (front ++ (new ++ back))) := by
  obtain ⟨hfront, hpos⟩ := List.forall_mem_append.mp hpos
  obtain ⟨hown, -⟩ := List.forall_mem_append.mp hpos
  rw [List.flatten_append, List.length_append] at hspace
  have hne : new ≠ [] := by
    rintro rfl
    simp at hnew
  cases own with
  | nil =>
    rw [hsame] at hnew
    simp at hnew
  | cons p own =>
    have hfind := find?_placeInstructions (own ++ back) 0 hfront (a := a) (p := p) (by omega)
    unfold CodeBlock.swapInstructions
    rw [List.cons_append, hfind]
    simp only [Option.bind_eq_bind, Option.bind_some, if_neg hne, Nat.zero_add]
    have hplace : placeInstructions 0 a (front ++ p :: (own ++ back)) =
        placeInstructions 0 a front ++ (placeInstructions front.length
          (a + BitVec.ofNat 64 front.flatten.length) (p :: own) ++
          placeInstructions (front.length + (p :: own).length)
            (a + BitVec.ofNat 64 front.flatten.length +
              BitVec.ofNat 64 (p :: own).flatten.length) back) := by
      rw [← placeInstructions_append, ← List.cons_append, placeInstructions_append,
        Nat.zero_add]
    have hlength : (placeInstructions 0 a front).length = front.length :=
      length_placeInstructions
    rw [hplace, ← hlength, List.drop_left, List.take_left,
      removeInstructions_append hown (by rw [Nat.zero_add, ← List.length_flatten, hsame])]
    simp only [Option.bind_some]
    rw [sum_length_placeInstructions, ← List.length_flatten, hsame, Nat.sub_self,
      List.replicate_zero, List.append_nil, List.map_append, map_insnBytes_placeInstructions,
      map_insnBytes_placeInstructions, hlength, foldl_insertIdx]

end Block

/-! ## A function -/

/-- A block as the pieces that its instructions are, or as raw bytes. -/
inductive Tile where
  | basic (pieces : List (List (BitVec 8)))
  | raw (rawBytes : List (BitVec 8))
  deriving DecidableEq, Repr

def Tile.bytes : Tile → List (BitVec 8)
  | .basic pieces => pieces.flatten
  | .raw rawBytes => rawBytes

/-- Blocks one behind the other, from a distance to the start of the function on. -/
def regions (baseAddress : BitVec 64) : Nat → List Tile → List CodeRegion
  | _, [] => []
  | currByte, .basic pieces :: tiles =>
    .basic (baseAddress + BitVec.ofNat 64 currByte)
      (placeInstructions 0 (baseAddress + BitVec.ofNat 64 currByte) pieces) ::
      regions baseAddress (currByte + pieces.flatten.length) tiles
  | currByte, .raw rawBytes :: tiles =>
    .raw (baseAddress + BitVec.ofNat 64 currByte) rawBytes ::
      regions baseAddress (currByte + rawBytes.length) tiles

/-- The bytes of a function. -/
def codeBytes (tiles : List Tile) : List (BitVec 8) := tiles.flatMap Tile.bytes

/-- Every instruction has bytes. -/
def Solid (tiles : List Tile) : Prop :=
  ∀ pieces, .basic pieces ∈ tiles → ∀ p ∈ pieces, 0 < p.length

/-- Some bytes of a block that begin and end between two instructions. -/
inductive HasRoom : List Tile → Nat → Nat → Prop
  | here {pieces : List (List (BitVec 8))} {tiles : List Tile} {s n : Nat} :
    Pieces.Cut pieces s → Pieces.Cut pieces (s + n) → HasRoom (.basic pieces :: tiles) s n
  | behind (t : Tile) {tiles : List Tile} {s n : Nat} :
    HasRoom tiles s n → HasRoom (t :: tiles) (t.bytes.length + s) n

/-- What a swap leaves: exactly the bytes in the room are others, the blocks have their sizes,
and so has every room beside this one. -/
structure Swapped (tiles tiles' : List Tile) (s n : Nat) (new : List (BitVec 8)) : Prop where
  bytes : codeBytes tiles' = Pieces.patch (codeBytes tiles) s new
  sizes : tiles'.map (fun t => t.bytes.length) = tiles.map fun t => t.bytes.length
  solid : Solid tiles'
  rooms : ∀ s' n', HasRoom tiles s' n' → s' + n' ≤ s ∨ s + n ≤ s' → HasRoom tiles' s' n'

section Function

open Pieces

variable {tiles : List Tile} {baseAddress : BitVec 64} {s n currByte : Nat}
  {new : List (List (BitVec 8))}

theorem toNat_add_ofNat {a : BitVec 64} {k : Nat} (h : a.toNat + k < 2 ^ 64) :
    (a + BitVec.ofNat 64 k).toNat = a.toNat + k := by
  rw [BitVec.toNat_add, BitVec.toNat_ofNat, Nat.add_mod_mod, Nat.mod_eq_of_lt h]

/-- An address is in the range of a block exactly if it is between its start and its end. -/
theorem inRange_regions {pieces : List (List (BitVec 8))}
    (hspace : baseAddress.toNat + (currByte + pieces.flatten.length) < 2 ^ 64)
    (hs : baseAddress.toNat + (currByte + s) < 2 ^ 64) :
    CodeRegion.inRange (baseAddress + BitVec.ofNat 64 (currByte + s))
        (.basic (baseAddress + BitVec.ofNat 64 currByte)
          (placeInstructions 0 (baseAddress + BitVec.ofNat 64 currByte) pieces)) =
      decide (s < pieces.flatten.length) := by
  rw [CodeRegion.inRange, sum_length_placeInstructions, BitVec.add_assoc, ← BitVec.ofNat_add]
  simp only [BitVec.le_def, BitVec.lt_def]
  rw [toNat_add_ofNat (by omega), toNat_add_ofNat hs, toNat_add_ofNat hspace,
    decide_eq_true (by omega), Bool.true_and, decide_eq_decide]
  omega

theorem HasRoom.le_length (h : HasRoom tiles s n) : s + n ≤ (codeBytes tiles).length := by
  induction h with
  | here _ hend =>
    have hle := hend.le_length
    rw [codeBytes, List.flatMap_cons, List.length_append, Tile.bytes]
    omega
  | behind t _ ih =>
    rw [codeBytes, List.flatMap_cons, List.length_append, ← codeBytes]
    omega

theorem codeBytes_cons (t : Tile) (tiles : List Tile) :
    codeBytes (t :: tiles) = t.bytes ++ codeBytes tiles := List.flatMap_cons

theorem solid_cons {t : Tile} : Solid (t :: tiles) ↔
    (∀ pieces, t = .basic pieces → ∀ p ∈ pieces, 0 < p.length) ∧ Solid tiles := by
  constructor
  · exact fun h => ⟨fun pieces heq => h pieces (heq ▸ List.mem_cons_self),
      fun pieces hmem => h pieces (List.mem_cons_of_mem t hmem)⟩
  · rintro ⟨ht, htiles⟩ pieces hmem
    rcases List.mem_cons.mp hmem with heq | hmem
    · exact ht pieces heq.symm
    · exact htiles pieces hmem

/-- The swap within one block. -/
theorem Swapped.here {front own back : List (List (BitVec 8))}
    (hsolid : Solid (.basic (front ++ (own ++ back)) :: tiles))
    (hnew : ∀ p ∈ new, 0 < p.length) (hsame : new.flatten.length = own.flatten.length) :
    Swapped (.basic (front ++ (own ++ back)) :: tiles) (.basic (front ++ (new ++ back)) :: tiles)
      front.flatten.length own.flatten.length new.flatten := by
  obtain ⟨hpieces, htiles⟩ := solid_cons.mp hsolid
  have hpos := hpieces _ rfl
  obtain ⟨hfront, hpos⟩ := List.forall_mem_append.mp hpos
  obtain ⟨-, hback⟩ := List.forall_mem_append.mp hpos
  have hlength : (front ++ (new ++ back)).flatten.length =
      (front ++ (own ++ back)).flatten.length := by
    simp only [List.flatten_append, List.length_append, hsame]
  refine ⟨?_, ?_, ?_, ?_⟩
  · rw [codeBytes_cons, codeBytes_cons]
    simp only [Tile.bytes, List.flatten_append, List.append_assoc]
    rw [patch_append hsame]
  · simp only [List.map_cons, Tile.bytes, hlength]
  · refine solid_cons.mpr ⟨?_, htiles⟩
    rintro _ ⟨⟩
    exact List.forall_mem_append.mpr ⟨hfront, List.forall_mem_append.mpr ⟨hnew, hback⟩⟩
  · intro s' n' hroom houtside
    cases hroom with
    | here hstart hend =>
      exact .here (hstart.replace hsame (by omega)) (hend.replace hsame (by omega))
    | behind _ hroom =>
      have hbehind := HasRoom.behind (.basic (front ++ (new ++ back))) hroom
      rwa [Tile.bytes, hlength] at hbehind

/-- A block in front of those in which is swapped. -/
theorem Swapped.behind {tiles' : List Tile} {new : List (BitVec 8)} (t : Tile)
    (hsolid : Solid (t :: tiles)) (h : Swapped tiles tiles' s n new) :
    Swapped (t :: tiles) (t :: tiles') (t.bytes.length + s) n new := by
  refine ⟨?_, ?_, solid_cons.mpr ⟨(solid_cons.mp hsolid).1, h.solid⟩, ?_⟩
  · rw [codeBytes_cons, codeBytes_cons, h.bytes, patch_append_right]
  · rw [List.map_cons, List.map_cons, h.sizes]
  · intro s' n' hroom houtside
    cases hroom with
    | here hstart hend => exact .here hstart hend
    | behind _ hroom => exact .behind t (h.rooms _ _ hroom (by omega))

variable (currByte) in
/-- Code of the size of a room is swapped into it. -/
theorem swapInstructions_regions (hroom : HasRoom tiles s n) (hsolid : Solid tiles)
    (hnew : ∀ p ∈ new, 0 < p.length) (hsize : new.flatten.length = n) (hn : 0 < n)
    (hspace : baseAddress.toNat + (currByte + (codeBytes tiles).length) < 2 ^ 64) :
    ∃ tiles', swapInstructions (baseAddress + BitVec.ofNat 64 (currByte + s)) new
        (regions baseAddress currByte tiles) = some (regions baseAddress currByte tiles') ∧
      Swapped tiles tiles' s n new.flatten := by
  induction hroom generalizing currByte with
  | @here pieces tiles s n hstart hend =>
    obtain ⟨front, own, back, rfl, hfront, hown⟩ := hstart.between hend (Nat.le_add_right s n)
    have hown : own.flatten.length = n := by omega
    have hsame : new.flatten.length = own.flatten.length := hsize.trans hown.symm
    have hle := hend.le_length
    rw [codeBytes_cons, List.length_append, Tile.bytes] at hspace
    have hrange : decide (s < (front ++ (own ++ back)).flatten.length) = true :=
      decide_eq_true (by omega)
    have hswap := CodeBlock.swapInstructions_place
      (a := baseAddress + BitVec.ofNat 64 currByte) ((solid_cons.mp hsolid).1 _ rfl) hsame
      (by omega) (by rw [toNat_add_ofNat (by omega)]; omega)
    rw [BitVec.add_assoc, ← BitVec.ofNat_add, hfront] at hswap
    refine ⟨.basic (front ++ (new ++ back)) :: tiles, ?_, ?_⟩
    · rw [regions, swapInstructions, inRange_regions (by omega) (by omega), hrange, if_pos rfl,
        hswap, Option.map_some, regions]
      simp only [List.flatten_append, List.length_append, hsame]
    · rw [← hfront, ← hown]
      exact .here hsolid hnew hsame
  | @behind t tiles s n hroom ih =>
    rw [codeBytes_cons, List.length_append] at hspace
    have hle := hroom.le_length
    obtain ⟨tiles', hswap, hswapped⟩ := ih (currByte + t.bytes.length)
      (solid_cons.mp hsolid).2 hsize hn (by omega)
    refine ⟨t :: tiles', ?_, hswapped.behind t hsolid⟩
    rw [Nat.add_assoc] at hswap
    cases t with
    | basic pieces =>
      have hrange : decide (pieces.flatten.length + s < pieces.flatten.length) = false :=
        decide_eq_false (by omega)
      simp only [Tile.bytes] at *
      rw [regions, swapInstructions, inRange_regions (by omega) (by omega), hrange,
        if_neg Bool.false_ne_true, hswap, Option.map_some, regions]
    | raw rawBytes =>
      simp only [Tile.bytes] at *
      rw [regions, swapInstructions, hswap, Option.map_some, regions]

/-- Code is swapped into rooms apart from each other, in any order. -/
theorem swapAll_regions {swaps : List (Nat × List (List (BitVec 8)))} (hsolid : Solid tiles)
    (hrooms : ∀ e ∈ swaps, HasRoom tiles e.1 e.2.flatten.length)
    (hnew : ∀ e ∈ swaps, 0 < e.2.flatten.length ∧ ∀ p ∈ e.2, 0 < p.length)
    (hapart : swaps.Pairwise fun e f => f.1 + f.2.flatten.length ≤ e.1 ∨
      e.1 + e.2.flatten.length ≤ f.1)
    (hspace : baseAddress.toNat + (codeBytes tiles).length < 2 ^ 64) :
    ∃ tiles', swapAll (swaps.map fun e => (baseAddress + BitVec.ofNat 64 e.1, e.2))
        (regions baseAddress 0 tiles) = some (regions baseAddress 0 tiles') ∧
      codeBytes tiles' = swaps.foldl (fun bytes e => patch bytes e.1 e.2.flatten)
        (codeBytes tiles) ∧
      tiles'.map (fun t => t.bytes.length) = tiles.map fun t => t.bytes.length := by
  induction swaps generalizing tiles with
  | nil => exact ⟨tiles, rfl, rfl, rfl⟩
  | cons e swaps ih =>
    obtain ⟨hroom, hrooms⟩ := List.forall_mem_cons.mp hrooms
    obtain ⟨⟨hpos, hpieces⟩, hnew⟩ := List.forall_mem_cons.mp hnew
    obtain ⟨hnext, hapart⟩ := List.pairwise_cons.mp hapart
    obtain ⟨tiles₁, hswap, hswapped⟩ := swapInstructions_regions 0 hroom hsolid
      hpieces rfl hpos (by rwa [Nat.zero_add])
    rw [Nat.zero_add] at hswap
    -- the other rooms are still there
    have hlength : (codeBytes tiles₁).length = (codeBytes tiles).length := by
      have hsum := congrArg List.sum hswapped.sizes
      simpa [codeBytes, List.length_flatMap] using hsum
    obtain ⟨tiles', hrun, hbytes, hsizes⟩ := ih hswapped.solid
      (fun f hf => hswapped.rooms _ _ (hrooms f hf) (hnext f hf)) hnew hapart
      (by rwa [hlength])
    refine ⟨tiles', ?_, ?_, hsizes.trans hswapped.sizes⟩
    · rw [List.map_cons, swapAll, hswap, Option.bind_some, hrun]
    · rw [hbytes, hswapped.bytes, List.foldl_cons]

end Function

end Pebil

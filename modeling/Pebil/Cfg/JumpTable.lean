import Pebil.Isa.Instruction
import Pebil.Lib.ByteMemory
import Pebil.Lib.Chunks

/-!
# Recovering a jump table (src/X86Instruction.C:1401–1494)

`X86Instruction::computeJumpTableTargets` reads pointer-sized words from the table's section.
The first one tells what the table holds, and then the words are taken as targets up to the
first that is not in the function. The instruction's address is to be added to the words where
they are offsets, but what is asked for that, `!tableMode`, is true of no mode that gets there.

`jumpTableLoop_eq` is the loop as a `takeWhile` over the whole words of the section. A word that
begins in the section and ends outside is read too: that is where the loop has no answer.
-/

namespace Pebil

open ByteMemory

/-- `TableModes`. -/
inductive TableModes where
  | undefined
  | direct
  | indirect
  | instructions
  deriving DecidableEq, Repr

/-- A `RawSection` with what its header says. Of a section without bits in the file only the
number of bytes matters. -/
structure MappedSection where
  shAddr : BitVec 64
  hasBitsInFile : Bool
  bytes : List (BitVec 8)
  length_lt : bytes.length < 2 ^ 32

namespace MappedSection

variable (s : MappedSection)

def sizeInBytes : BitVec 32 := BitVec.ofNat 32 s.bytes.length

/-- `SectionHeader::inRange`. -/
def inRange (address : BitVec 64) : Bool :=
  s.shAddr ≤ address && address < s.shAddr + s.sizeInBytes.setWidth 64

/-- `getUInt64` or `getUInt32` of `getStreamAtAddress`; none if it reads beyond the section. -/
def readWord (dataLen : Nat) (addr : BitVec 64) : Option (BitVec 64) :=
  let offset := ((addr - s.shAddr).setWidth 32).toNat
  if offset + dataLen ≤ s.bytes.length then
    some (BitVec.ofNat 64 (ofLittleEndian ((s.bytes.drop offset).take dataLen)))
  else none

end MappedSection

/-- `ElfFile::findDataSectionAtAddr`: the last section there, except for the first. -/
def findDataSectionAtAddr (sections : List MappedSection) (addr : BitVec 64) :
    Option MappedSection :=
  (sections.drop 1).reverse.find? (·.inRange addr)

/-- `absoluteValue`, which is negative for the least number. -/
def absoluteValue (d : BitVec 64) : Int := (if d.toInt < 0 then -d else d).toInt

/-- `JUMP_TABLE_REACHES`. -/
def jumpTableReaches : Int := 0x1000

/-- What is recovered: the mode, and of each entry what is appended to `addressList` and to
`tableStorageList`. -/
structure JumpTable where
  mode : TableModes
  entries : List (BitVec 64 × BitVec 64)
  deriving DecidableEq, Repr

/-- The targets. -/
def JumpTable.addressList (t : JumpTable) : List (BitVec 64) := t.entries.map Prod.fst

/-- The size of a pointer. -/
def pointerSize (is64Bit : Bool) : Nat := if is64Bit then 8 else 4

namespace X86Instruction

/-- The loop of `computeJumpTableTargets`. It has no value if it reads a byte beyond the section
or never ends. -/
def jumpTableLoop (x : X86Instruction) (tableMode : TableModes) (s : MappedSection)
    (func : TextObject) (dataLen : Nat) (tableBase : BitVec 64) :
    Nat → BitVec 32 → Option (List (BitVec 64 × BitVec 64))
  | 0, _ => none
  | fuel + 1, currByte =>
    let addr := tableBase + currByte.setWidth 64
    if addr - s.shAddr < s.sizeInBytes.setWidth 64 then
      (s.readWord dataLen addr).bind fun rawData =>
        let rawData := if tableMode = .undefined then rawData + x.baseAddress else rawData
        if func.inRange rawData then
          (jumpTableLoop x tableMode s func dataLen tableBase fuel
            (currByte + BitVec.ofNat 32 dataLen)).map ((rawData, addr) :: ·)
        else some []
    else some []

/-- `X86Instruction::computeJumpTableTargets`. Each round of the loop takes bytes of the section,
so that their number is enough fuel. -/
def computeJumpTableTargets (x : X86Instruction) (is64Bit : Bool) (sections : List MappedSection)
    (tableBase : BitVec 64) (func : TextObject) : Option JumpTable :=
  (findDataSectionAtAddr sections tableBase).bind fun dataSection =>
    if dataSection.hasBitsInFile = false then some ⟨.undefined, []⟩
    else
      let dataLen := pointerSize is64Bit
      let recover (tableMode : TableModes) : Option JumpTable :=
        (x.jumpTableLoop tableMode dataSection func dataLen tableBase
          (dataSection.bytes.length + 1) 0).map (JumpTable.mk tableMode)
      (dataSection.readWord dataLen tableBase).bind fun rawData =>
        if func.inRange rawData then recover .direct
        else if func.inRange (rawData + x.baseAddress) ∨ absoluteValue rawData < jumpTableReaches
        then recover .indirect
        else some ⟨.instructions, [(tableBase, rawData)]⟩

end X86Instruction

/-! ## What a table holds -/

/-- The number in a word of the table. -/
def wordValue (word : List (BitVec 8)) : BitVec 64 := BitVec.ofNat 64 (ofLittleEndian word)

/-- The whole words of a section from an address on. -/
def MappedSection.tableWords (s : MappedSection) (dataLen : Nat) (tableBase : BitVec 64) :
    List (BitVec 64) :=
  if s.hasBitsInFile then
    (chunks dataLen (s.bytes.drop (tableBase - s.shAddr).toNat)).map wordValue
  else []

/-- The target that a word stands for as an offset. -/
def X86Instruction.offsetTarget (x : X86Instruction) (is64Bit : Bool) (word : BitVec 64) :
    BitVec 64 :=
  x.baseAddress + if is64Bit then word else (word.setWidth 32).signExtend 64

/-- The targets of a table up to the first word that is not plausible. A table of pointers is
one that begins with a pointer into the function. -/
def X86Instruction.tableTargets (x : X86Instruction) (is64Bit : Bool) (func : TextObject)
    (words : List (BitVec 64)) : List (BitVec 64) :=
  if words.head?.any func.inRange then words.takeWhile func.inRange
  else (words.map (x.offsetTarget is64Bit)).takeWhile func.inRange

/-! ## The loop -/

namespace MappedSection

variable {s : MappedSection} {address tableBase : BitVec 64} {dataLen : Nat}

theorem toNat_sizeInBytes (s : MappedSection) : s.sizeInBytes.toNat = s.bytes.length := by
  rw [sizeInBytes, BitVec.toNat_ofNat, Nat.mod_eq_of_lt s.length_lt]

/-- An address of the section is at an offset below its size. -/
theorem offset_lt (h : s.inRange address = true) :
    (address - s.shAddr).toNat < s.bytes.length := by
  have hlt := s.length_lt
  simp only [inRange, Bool.and_eq_true, decide_eq_true_eq, BitVec.le_def, BitVec.lt_def,
    BitVec.toNat_add, BitVec.toNat_setWidth, toNat_sizeInBytes] at h
  rw [BitVec.toNat_sub_of_le (BitVec.le_def.mpr h.1)]
  omega

/-- Offsets in the section do not wrap. -/
theorem toNat_offset (s : MappedSection) {currByte : BitVec 32}
    (hcurr : (tableBase - s.shAddr).toNat + currByte.toNat ≤ s.bytes.length) :
    (tableBase + currByte.setWidth 64 - s.shAddr).toNat =
      (tableBase - s.shAddr).toNat + currByte.toNat := by
  have hlt := s.length_lt
  have heq : tableBase + currByte.setWidth 64 - s.shAddr =
      (tableBase - s.shAddr) + currByte.setWidth 64 := by
    rw [BitVec.sub_eq_add_neg, BitVec.sub_eq_add_neg, BitVec.add_assoc, BitVec.add_assoc,
      BitVec.add_comm (currByte.setWidth 64)]
  rw [heq, BitVec.toNat_add, BitVec.toNat_setWidth]
  omega

/-- A word that lies in the section. -/
theorem readWord_eq {offset : Nat} (hoffset : (address - s.shAddr).toNat = offset)
    (hlt : offset < 2 ^ 32) :
    s.readWord dataLen address =
      if dataLen ≤ (s.bytes.drop offset).length ∧ offset ≤ s.bytes.length then
        some (wordValue ((s.bytes.drop offset).take dataLen)) else none := by
  have hsetWidth : ((address - s.shAddr).setWidth 32).toNat = offset := by
    rw [BitVec.toNat_setWidth, hoffset, Nat.mod_eq_of_lt hlt]
  simp only [readWord, hsetWidth, wordValue, List.length_drop]
  exact if_congr (by omega) rfl rfl

end MappedSection

namespace X86Instruction

variable {x : X86Instruction} {s : MappedSection} {func : TextObject} {tableBase : BitVec 64}
  {dataLen : Nat} {tableMode : TableModes}

/-- **The loop takes the words up to the first that is not in the function**, unless all of them
are and the section ends in the middle of one more. -/
theorem jumpTableLoop_eq (hmode : tableMode ≠ .undefined) (hpos : 0 < dataLen)
    {fuel : Nat} {currByte : BitVec 32} {rest : List (BitVec 8)}
    (hcurr : (tableBase - s.shAddr).toNat + currByte.toNat ≤ s.bytes.length)
    (hrest : s.bytes.drop ((tableBase - s.shAddr).toNat + currByte.toNat) = rest)
    (hfuel : rest.length < fuel) :
    (x.jumpTableLoop tableMode s func dataLen tableBase fuel currByte).map
        (·.map Prod.fst) =
      if ((chunks dataLen rest).map wordValue).all func.inRange ∧ ¬dataLen ∣ rest.length then none
      else some (((chunks dataLen rest).map wordValue).takeWhile func.inRange) := by
  induction fuel generalizing currByte rest with
  | zero => omega
  | succ fuel ih =>
    have hlen := s.length_lt
    have hoffset := s.toNat_offset hcurr
    have hrestlen : rest.length =
        s.bytes.length - ((tableBase - s.shAddr).toNat + currByte.toNat) := by
      rw [← hrest, List.length_drop]
    rw [jumpTableLoop, MappedSection.readWord_eq hoffset (by omega), hrest]
    simp only [BitVec.lt_def, hoffset, BitVec.toNat_setWidth, s.toNat_sizeInBytes,
      Nat.mod_eq_of_lt (show s.bytes.length < 2 ^ 64 by omega), if_neg hmode]
    by_cases hend : rest.length = 0
    · -- the section ends with the words read so far
      rw [if_neg (by omega), chunks_of_lt (by omega), if_neg (by simp [hend])]
      rfl
    · rw [if_pos (by omega)]
      by_cases hword : dataLen ≤ rest.length
      · rw [if_pos ⟨hword, by omega⟩, chunks_of_le hpos hword, List.map_cons, Option.bind_some]
        have hdvd : dataLen ∣ rest.length ↔ dataLen ∣ (rest.drop dataLen).length := by
          rw [List.length_drop]
          exact (Nat.dvd_sub_iff_left hword (Nat.dvd_refl dataLen)).symm
        by_cases hin : func.inRange (wordValue (rest.take dataLen)) = true
        · have hnext : (currByte + BitVec.ofNat 32 dataLen).toNat = currByte.toNat + dataLen := by
            rw [BitVec.toNat_add, BitVec.toNat_ofNat]
            omega
          have hrestnext : s.bytes.drop ((tableBase - s.shAddr).toNat +
              (currByte + BitVec.ofNat 32 dataLen).toNat) = rest.drop dataLen := by
            rw [hnext, ← hrest, List.drop_drop, Nat.add_assoc]
          have ih := ih (by omega) hrestnext (by rw [List.length_drop]; omega)
          have hcons := congrArg (Option.map (wordValue (rest.take dataLen) :: ·)) ih
          rw [if_pos hin, Option.map_map, List.all_cons, hin, Bool.true_and,
            List.takeWhile_cons_of_pos hin]
          simp only [hdvd]
          rw [Option.map_map] at hcons
          refine hcons.trans ?_
          split
          · rfl
          · rfl
        · rw [if_neg hin, List.all_cons, List.takeWhile_cons_of_neg hin,
            if_neg (fun hall => hin (Bool.and_eq_true_iff.mp hall.1).1)]
          rfl
      · rw [if_neg (fun hle => hword hle.1), chunks_of_lt (by omega),
          if_pos ⟨by simp, fun hdvd => hword (Nat.le_of_dvd (by omega) hdvd)⟩]
        rfl

/-! ## When the targets are recovered -/

/-- No byte beyond the section is read, and the targets are those of the table, unless the first
word is plausible neither as a pointer nor as an offset and the place is taken to hold
instructions. -/
def RecoversTargets (x : X86Instruction) (is64Bit : Bool) (sections : List MappedSection)
    (tableBase : BitVec 64) (func : TextObject) (s : MappedSection) : Prop :=
  let targets := x.tableTargets is64Bit func (s.tableWords (pointerSize is64Bit) tableBase)
  ∃ table, x.computeJumpTableTargets is64Bit sections tableBase func = some table ∧
    (table.mode = .instructions ∧ targets = [] ∨ table.addressList = targets)

/-- The table begins with a whole word. If that is a pointer into the function, there is a word
behind it that is none, or the section ends with a whole word; if it is no pointer, it is no
offset either. -/
def RecoverableTable (x : X86Instruction) (is64Bit : Bool) (tableBase : BitVec 64)
    (func : TextObject) (s : MappedSection) : Prop :=
  s.hasBitsInFile = false ∨
    ∃ word words, s.tableWords (pointerSize is64Bit) tableBase = word :: words ∧
      (func.inRange word = true → words.all func.inRange = false ∨
        pointerSize is64Bit ∣ s.bytes.length - (tableBase - s.shAddr).toNat) ∧
      (func.inRange word = false → func.inRange (x.offsetTarget is64Bit word) = false)

theorem pointerSize_pos (is64Bit : Bool) : 0 < pointerSize is64Bit := by
  cases is64Bit <;> decide

theorem findDataSectionAtAddr_inRange {sections : List MappedSection}
    (h : findDataSectionAtAddr sections tableBase = some s) : s.inRange tableBase = true := by
  rw [findDataSectionAtAddr] at h
  simpa using List.find?_some h

/-- What the loop makes of the whole table. -/
theorem recover_eq_iff {entries : Option (List (BitVec 64 × BitVec 64))}
    {targets : List (BitVec 64)} {p : Prop} (hmode : tableMode ≠ .instructions) :
    (∃ table, entries.map (JumpTable.mk tableMode) = some table ∧
      (table.mode = .instructions ∧ p ∨ table.addressList = targets)) ↔
      entries.map (·.map Prod.fst) = some targets := by
  constructor
  · rintro ⟨table, htable, htargets⟩
    obtain ⟨pairs, rfl, rfl⟩ := Option.map_eq_some_iff.mp htable
    exact congrArg some (htargets.resolve_left fun hinstr => hmode hinstr.1)
  · intro h
    obtain ⟨pairs, rfl, rfl⟩ := Option.map_eq_some_iff.mp h
    exact ⟨_, rfl, .inr rfl⟩

/-- The targets of a table that begins with no pointer are none exactly when it begins with no
offset. -/
theorem tableTargets_eq_nil {is64Bit : Bool} {word : BitVec 64} {words : List (BitVec 64)}
    (hword : func.inRange word = false) :
    x.tableTargets is64Bit func (word :: words) = [] ↔
      func.inRange (x.offsetTarget is64Bit word) = false := by
  rw [tableTargets, List.head?_cons, Option.any_some, hword, if_neg Bool.false_ne_true,
    List.map_cons]
  cases hoffset : func.inRange (x.offsetTarget is64Bit word) with
  | true => simp [List.takeWhile_cons_of_pos hoffset]
  | false => simp [List.takeWhile_cons_of_neg (Bool.not_eq_true _ ▸ hoffset)]

theorem inRange_of_mem_tableTargets {is64Bit : Bool} {words : List (BitVec 64)}
    {target : BitVec 64} (h : target ∈ x.tableTargets is64Bit func words) :
    func.inRange target = true := by
  rw [tableTargets] at h
  split at h
  · exact List.all_eq_true.mp List.all_takeWhile target h
  · exact List.all_eq_true.mp List.all_takeWhile target h

/-- **A table is recovered if and only if it is `RecoverableTable`.** The callers ask only for
tables outside the function. -/
theorem recoversTargets_iff (x : X86Instruction) (is64Bit : Bool) (sections : List MappedSection)
    (tableBase : BitVec 64) (func : TextObject) (s : MappedSection)
    (hs : findDataSectionAtAddr sections tableBase = some s)
    (hout : func.inRange tableBase = false) :
    x.RecoversTargets is64Bit sections tableBase func s ↔
      x.RecoverableTable is64Bit tableBase func s := by
  have hin : s.inRange tableBase = true := findDataSectionAtAddr_inRange hs
  have hlt := MappedSection.offset_lt hin
  have hlen := s.length_lt
  have hpos := pointerSize_pos is64Bit
  unfold RecoversTargets RecoverableTable computeJumpTableTargets MappedSection.tableWords
  rw [hs, Option.bind_some]
  cases hbits : s.hasBitsInFile with
  | false => simp [tableTargets, JumpTable.addressList]
  | true =>
    simp only [Bool.true_eq_false, if_false, if_true, false_or]
    rw [MappedSection.readWord_eq rfl (by omega), ← List.length_drop]
    obtain ⟨rest, hrest⟩ : ∃ rest, s.bytes.drop (tableBase - s.shAddr).toNat = rest := ⟨_, rfl⟩
    have hloop : ∀ tableMode ≠ TableModes.undefined,
        (x.jumpTableLoop tableMode s func (pointerSize is64Bit) tableBase
          (s.bytes.length + 1) 0).map (·.map Prod.fst) = _ := fun tableMode hmode =>
      jumpTableLoop_eq hmode hpos hlt.le hrest (by rw [← hrest, List.length_drop]; omega)
    rw [hrest]
    by_cases hwhole : pointerSize is64Bit ≤ rest.length
    · rw [if_pos ⟨hwhole, hlt.le⟩, Option.bind_some]
      rw [chunks_of_le hpos hwhole, List.map_cons] at hloop ⊢
      generalize wordValue (rest.take (pointerSize is64Bit)) = word at hloop ⊢
      generalize (chunks (pointerSize is64Bit) (rest.drop (pointerSize is64Bit))).map wordValue =
        words at hloop ⊢
      cases hword : func.inRange word with
      | true =>
        have htargets : x.tableTargets is64Bit func (word :: words) =
            (word :: words).takeWhile func.inRange := by
          rw [tableTargets, List.head?_cons, Option.any_some, if_pos hword]
        rw [if_pos rfl, recover_eq_iff (by decide), hloop _ (by decide), htargets, List.all_cons,
          hword, Bool.true_and]
        constructor
        · intro h
          refine ⟨word, words, rfl, fun _ => ?_, fun h => absurd h (by simp [hword])⟩
          by_contra hcut
          rw [not_or, Bool.not_eq_false] at hcut
          rw [if_pos hcut] at h
          cases h
        · rintro ⟨word', words', heq, hcut, -⟩
          obtain ⟨rfl, rfl⟩ := List.cons.inj heq
          exact if_neg fun h => (hcut hword).elim (by simp [h.1]) h.2
      | false =>
        -- whatever the mode is, it is no target that comes first
        have hempty : (∃ word' words', word :: words = word' :: words' ∧
            (func.inRange word' = true → words'.all func.inRange = false ∨
              pointerSize is64Bit ∣ rest.length) ∧
            (func.inRange word' = false →
              func.inRange (x.offsetTarget is64Bit word') = false)) ↔
            x.tableTargets is64Bit func (word :: words) = [] := by
          rw [tableTargets_eq_nil hword]
          constructor
          · rintro ⟨word', words', heq, -, hoffset⟩
            obtain ⟨rfl, rfl⟩ := List.cons.inj heq
            exact hoffset hword
          · intro h
            exact ⟨word, words, rfl, fun h' => absurd h' (by simp [hword]), fun _ => h⟩
        rw [hempty, if_neg Bool.false_ne_true]
        split
        · rw [recover_eq_iff (by decide), hloop _ (by decide), List.all_cons, hword,
            Bool.false_and, if_neg (by simp),
            List.takeWhile_cons_of_neg (by rw [hword]; exact Bool.false_ne_true)]
          exact ⟨fun h => (Option.some.inj h).symm, fun h => congrArg some h.symm⟩
        · constructor
          · rintro ⟨table, htable, ⟨-, hnil⟩ | htargets⟩
            · exact hnil
            · -- the table's own address is not in the function
              obtain rfl := Option.some.inj htable
              have hmem : tableBase ∈ x.tableTargets is64Bit func (word :: words) := by
                rw [← htargets]
                exact List.mem_singleton_self tableBase
              exact absurd (inRange_of_mem_tableTargets hmem) (by simp [hout])
          · exact fun h => ⟨_, rfl, .inl ⟨rfl, h⟩⟩
    · rw [if_neg fun h => hwhole h.1, chunks_of_lt (by omega)]
      simp

/-- A function of 256 bytes. -/
def smallFunction : TextObject := ⟨0x1000, 0x100⟩

/-- The indirect jump at 0x1010. -/
def indirectJump : X86Instruction where
  mnemonic := .other 0
  itype := .uncondbr
  format := .unknown
  operands := fun _ => none
  flagsUse := 0
  flagsDef := 0
  impregUse := 0
  impregDef := 0
  container := smallFunction
  baseAddress := 0x1010
  sizeInBytes := 2
  addressAnchor := none

/-- A section at 0x2000 with the low bytes of words. -/
def tableSection (words : List (BitVec 8 × BitVec 8)) (h : words.length < 2 ^ 29) :
    MappedSection where
  shAddr := 0x2000
  hasBitsInFile := true
  bytes := words.flatMap fun word => [word.1, word.2, 0, 0, 0, 0, 0, 0]
  length_lt := by
    have hlen : (words.flatMap fun word => [word.1, word.2, 0, 0, 0, 0, 0, 0]).length =
        8 * words.length := by
      rw [List.length_flatMap]
      induction words with
      | nil => rfl
      | cons word words ih => simp_all; omega
    omega

/-- Two pointers into the function and a null word. -/
def pointerTable : MappedSection := tableSection [(0x20, 0x10), (0x40, 0x10), (0, 0)] (by decide)

/-- One offset, of 32 bytes. -/
def offsetTable : MappedSection := tableSection [(0x20, 0)] (by decide)

/-- The table of pointers is recovered. -/
theorem recoversTargets_pointerTable :
    indirectJump.RecoversTargets true [pointerTable, pointerTable] 0x2000 smallFunction
      pointerTable :=
  (recoversTargets_iff indirectJump true [pointerTable, pointerTable] 0x2000 smallFunction
    pointerTable (by rfl) (by decide)).mpr
    (.inr ⟨0x1020, [0x1040, 0], by decide, fun _ => .inl (by decide),
      fun h => absurd h (by decide)⟩)

/-- The table of offsets is found to hold offsets, but none of its targets is returned. -/
theorem not_recoversTargets_offsetTable :
    ¬∀ (x : X86Instruction) (is64Bit : Bool) (sections : List MappedSection)
      (tableBase : BitVec 64) (func : TextObject) (s : MappedSection),
      findDataSectionAtAddr sections tableBase = some s → func.inRange tableBase = false →
        x.RecoversTargets is64Bit sections tableBase func s := by
  intro h
  obtain ⟨table, htable, htargets⟩ := h indirectJump true [offsetTable, offsetTable] 0x2000
    smallFunction offsetTable (by rfl) (by decide)
  have hcomputed : indirectJump.computeJumpTableTargets true [offsetTable, offsetTable] 0x2000
      smallFunction = some ⟨.indirect, []⟩ := by decide
  obtain rfl := Option.some.inj (hcomputed.symm.trans htable)
  revert htargets
  decide

end X86Instruction

end Pebil

import Pebil.Isa.Instruction
import Pebil.Lib.BinarySearch
import Pebil.Lib.Qsort

/-!
# Anchoring the instructions of a file (src/ElfFile.C:215–245, 1595–1781)

`anchorProgramElements` sorts the instructions of all text sections by address and goes over
them once. An instruction gets an anchor for an immediate operand that is the address of an
instruction inside a function, and one for its relative operand: to the instruction at the
address, to a place in a section that is no text, or to a special reference that stands for
the address itself. The first one is kept in `addressAnchor`, and `initializeAnchor` asserts
that there is none yet, while the steps behind it only ask whether there is one.

The sort cuts the difference of two addresses to an `int`.
-/

namespace Pebil

/-- An instruction of a text section: of each operand also `scale`, `offset` and the eight
bytes of `lval`, and whether the instruction is in a function. -/
structure TextInstruction extends X86Instruction where
  scale : Fin 4 → Nat
  offset : Fin 4 → Nat
  lval : Fin 4 → BitVec 64
  inFunction : Bool

/-- `OperandX86::isRelative`. -/
def OperandX86.isRelative (op : OperandX86) : Bool :=
  op.type == .jimm || op.base == Register.rip.ud

namespace TextInstruction

variable (x : TextInstruction)

/-- The operand that `usesRelativeAddress` and `getRelativeValue` stop at. -/
def relativeOperand : Option OperandX86 :=
  ((List.finRange 4).filterMap x.operands).find? OperandX86.isRelative

def usesRelativeAddress : Bool := x.relativeOperand.isSome

/-- `getRelativeValue`; 0 where there is no relative operand, which is not to be reached. -/
def getRelativeValue : BitVec 64 :=
  match x.relativeOperand with
  | some op => op.value
  | none => 0

/-- What the relative operand refers to. -/
def relativeTarget : BitVec 64 := x.baseAddress + x.sizeInBytes + x.getRelativeValue

/-- The instruction is in a function, but it is not the first one. -/
def isInsideFunction : Bool := x.inFunction && x.baseAddress != x.container.baseAddress

end TextInstruction

/-- A section: whether its class is `TextSection`, `sh_addr` and `sh_size`. -/
structure AddressedSection where
  isTextSection : Bool
  addr : BitVec 64
  size : BitVec 64
  deriving DecidableEq, Repr

/-- `SectionHeader::inRange`. -/
def AddressedSection.inRange (s : AddressedSection) (address : BitVec 64) : Bool :=
  s.addr ≤ address && address < s.addr + s.size

/-- What an anchor links to. -/
inductive AnchorLink where
  | instruction (x : TextInstruction)
  | dataReference (s : AddressedSection) (sectionOffset : BitVec 64)
  | specialReference (sectionOffset : BitVec 64)

/-- `getBaseAddress` of the link. -/
def AnchorLink.baseAddress : AnchorLink → BitVec 64
  | instruction x => x.baseAddress
  | dataReference s sectionOffset => s.addr + sectionOffset
  | specialReference sectionOffset => sectionOffset

/-- The anchor of an instruction, with the flag of its constructor. -/
structure TextAnchor where
  linkedParent : TextInstruction
  link : AnchorLink
  imm : Bool

/-- A file when its text has been decoded: no instruction has an anchor yet, and no two have
one address. -/
structure TextImage where
  is64Bit : Bool
  dotText : AddressedSection
  sections : List AddressedSection
  textSections : List (List TextInstruction)
  fresh : ∀ x ∈ textSections.flatten, x.addressAnchor = none
  sized : ∀ x ∈ textSections.flatten, x.sizeInBytes ≠ 0
  distinct : (textSections.flatten.map (·.baseAddress)).Nodup

/-- What the pass has made: the anchors, and the keys of the special references. -/
structure AnchorState where
  addressAnchors : List TextAnchor
  specialDataRefs : List (BitVec 64)

namespace TextInstruction

/-- `compareBaseAddress`. -/
def compareBaseAddress (x y : TextInstruction) : Int :=
  ((x.baseAddress - y.baseAddress).setWidth 32).toInt

/-- `searchBaseAddressExact`. -/
def searchBaseAddressExact (key : BitVec 64) (x : TextInstruction) : Int :=
  let val := x.baseAddress
  if key < val then -1 else if val < key then 1 else 0

/-- `X86Instruction::initializeAnchor` on the anchor that the instruction has; none when the
assertion fails. -/
def initializeAnchor (x : TextInstruction) (addressAnchor : Option TextAnchor)
    (link : AnchorLink) (imm : Bool) : Option (Option TextAnchor) :=
  if addressAnchor.isSome then none else some (some ⟨x, link, imm⟩)

end TextInstruction

namespace TextImage

variable (f : TextImage)

/-- `allInstructions`, before the sort. -/
def instructions : List TextInstruction := f.textSections.flatten

/-- Operand `j` is an immediate that looks like an address of `.text`. -/
def isTextImmediate (x : TextInstruction) (j : Fin 4) : Bool :=
  (x.operands j).any fun op =>
    op.type == .imm && op.base == 0 && op.index == 0 && x.scale j == 0 && x.offset j == 0 &&
      f.dotText.inRange (x.lval j)

/-- The address that the pass looks up for a relative operand. -/
def relativeAddress (x : TextInstruction) : BitVec 64 :=
  let relativeAddress := x.getRelativeValue + x.baseAddress + x.sizeInBytes
  if !f.is64Bit && (!x.isControl || x.usesIndirectAddress) then relativeAddress + x.sizeInBytes
  else relativeAddress

/-- The first section that is no text and has the address. -/
def findDataSection (addr : BitVec 64) : Option AddressedSection :=
  f.sections.find? fun s => !s.isTextSection && s.inRange addr

section Pass

variable (search : BitVec 64 → Option TextInstruction)

/-- What an anchor for operand `j` links to. -/
def immediateLink (x : TextInstruction) (j : Fin 4) : Option TextInstruction :=
  if f.isTextImmediate x j then (search (x.lval j)).filter TextInstruction.isInsideFunction
  else none

/-- The loop over the operands. -/
def anchorImmediates (x : TextInstruction) : Option (Option TextAnchor) :=
  (List.finRange 4).foldlM
    (fun addressAnchor j =>
      match f.immediateLink search x j with
      | some linkedInstruction =>
        x.initializeAnchor addressAnchor (.instruction linkedInstruction) true
      | none => some addressAnchor)
    none

/-- The branch for a relative address, from the anchor and the special references before it. -/
def anchorRelative (x : TextInstruction) (addressAnchor : Option TextAnchor)
    (specialDataRefs : List (BitVec 64)) :
    Option (Option TextAnchor × List (BitVec 64)) :=
  let relativeAddress := f.relativeAddress x
  match search relativeAddress with
  | some linkedInstruction =>
    (x.initializeAnchor addressAnchor (.instruction linkedInstruction) false).map
      (·, specialDataRefs)
  | none =>
    -- from here on an anchor that is there already is left alone
    if addressAnchor.isSome then some (addressAnchor, specialDataRefs)
    else if x.baseAddress ∈ specialDataRefs then
      -- the key is the address of the instruction itself, not the one it refers to
      some (some ⟨x, .specialReference x.baseAddress, false⟩, specialDataRefs)
    else
      match f.findDataSection relativeAddress with
      | some s =>
        some (some ⟨x, .dataReference s (relativeAddress - s.addr), false⟩, specialDataRefs)
      | none =>
        -- `generateDataRef`
        some (some ⟨x, .specialReference relativeAddress, false⟩,
          specialDataRefs.insert relativeAddress)

/-- The body of the loop over the instructions; none when an assertion fails. -/
def anchorInstruction (st : AnchorState) (x : TextInstruction) : Option AnchorState :=
  if x.addressAnchor.isSome then none
  else
    (f.anchorImmediates search x).bind fun addressAnchor =>
      if x.usesRelativeAddress then
        (f.anchorRelative search x addressAnchor st.specialDataRefs).map fun r =>
          ⟨st.addressAnchors ++ r.1.toList, r.2⟩
      else some { st with addressAnchors := st.addressAnchors ++ addressAnchor.toList }

end Pass

/-- `ElfFile::anchorProgramElements`, up to the references that data sections hold. -/
def anchorProgramElements (qsort : Qsort TextInstruction.compareBaseAddress) : Option AnchorState :=
  let allInstructions := qsort.sort f.instructions
  let search addr := bsearch (TextInstruction.searchBaseAddressExact addr) allInstructions
  if allInstructions.any (·.baseAddress == 0) then none
  -- the constructor has made the reference for address 0
  else allInstructions.foldlM (f.anchorInstruction search) ⟨[], [0]⟩

/-! ## What is wanted of the anchors -/

/-- The link is one for the address: the instruction there; where there is none, a place in a
section that is no text; where there is none, a special reference. -/
def LinksTo (addr : BitVec 64) (link : AnchorLink) : Prop :=
  link.baseAddress = addr ∧
    match link with
    | .instruction y => y ∈ f.instructions
    | .dataReference s _ =>
      (∀ y ∈ f.instructions, y.baseAddress ≠ addr) ∧ s ∈ f.sections ∧ s.isTextSection = false ∧
        s.inRange addr = true
    | .specialReference _ =>
      (∀ y ∈ f.instructions, y.baseAddress ≠ addr) ∧
        ∀ s ∈ f.sections, s.isTextSection = false → s.inRange addr = false

/-- No instruction is anchored twice, every relative operand has an anchor that links to what
it refers to, and a special reference stands for one address. -/
structure Anchored (anchors : List TextAnchor) : Prop where
  once : (anchors.map (·.linkedParent.baseAddress)).Nodup
  relative : ∀ x ∈ f.instructions, x.usesRelativeAddress →
    ∃ link, ⟨x, link, false⟩ ∈ anchors ∧ f.LinksTo x.relativeTarget link
  special : ∀ x y off, ⟨x, .specialReference off, false⟩ ∈ anchors →
    ⟨y, .specialReference off, false⟩ ∈ anchors → x.relativeTarget = y.relativeTarget

/-! ## The condition -/

/-- The sort follows the order of the addresses: the low half of the difference of any two is a
positive `int`. -/
def Comparable : Prop :=
  ∀ x ∈ f.instructions, ∀ y ∈ f.instructions, x.baseAddress < y.baseAddress →
    0 < (y.baseAddress.toNat - x.baseAddress.toNat) % 2 ^ 32 ∧
      (y.baseAddress.toNat - x.baseAddress.toNat) % 2 ^ 32 < 2 ^ 31

/-- Operand `j` is an immediate that is the address of an instruction inside a function. -/
def isLinkableImmediate (x : TextInstruction) (j : Fin 4) : Bool :=
  f.isTextImmediate x j &&
    f.instructions.any fun y => y.baseAddress == x.lval j && y.isInsideFunction

/-- Of how many operands an anchor is wanted. -/
def anchoredOperands (x : TextInstruction) : Nat :=
  (List.finRange 4).countP (f.isLinkableImmediate x) + if x.usesRelativeAddress then 1 else 0

/-- No instruction is at address 0 or has two operands for an anchor, and in a 32-bit file only
direct control transfers use relative addresses. -/
structure Anchorable : Prop where
  nonzero : ∀ x ∈ f.instructions, x.baseAddress ≠ 0
  single : ∀ x ∈ f.instructions, f.anchoredOperands x ≤ 1
  direct : ∀ x ∈ f.instructions, x.usesRelativeAddress → f.is64Bit = false →
    x.isControl = true ∧ x.usesIndirectAddress = false

end TextImage

end Pebil

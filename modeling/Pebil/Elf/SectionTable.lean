import Pebil.Elf.NextAlign
import Pebil.Elf.SymbolTable
import Pebil.Lib.Renumber

/-!
# The section table (src/ElfFile.C:171–180, 352–361, 677–742, src/ElfFileInst.C:144–204)

`ElfFile::addSection` puts a header and a raw section at an index and moves what names
a section by its index; `ElfFileInst::extendDynamicTable` moves the dynamic table to the
end of the file and leaves a section of the old size in its place.

A section is known by its `id`, which stands for the address of the object: the header
and the raw section of one section have the same.
-/

namespace Pebil

/-! ## The file -/

/-- A section header. -/
structure SectionHeader where
  id : Nat
  index : Nat
  sectionNamePtr : Option String
  name : BitVec 32
  type : BitVec 32
  flags : BitVec 64
  addr : BitVec 64
  offset : BitVec 64
  size : BitVec 64
  link : Nat
  info : Nat
  addralign : BitVec 64
  entsize : BitVec 64
  deriving DecidableEq, Repr

/-- The classes `addSection` is called with; the others stop it. -/
inductive SectionClass where
  | textSection
  | dataSection
  | other
  deriving DecidableEq, Repr

/-- What a section holds. -/
structure RawSection where
  id : Nat
  sectionIndex : Nat
  classType : SectionClass
  sizeInBytes : Nat
  deriving DecidableEq, Repr

/-- A program header. -/
structure ProgramHeader where
  type : BitVec 32
  vaddr : BitVec 64
  paddr : BitVec 64
  offset : BitVec 64
  filesz : BitVec 64
  memsz : BitVec 64
  align : BitVec 64
  deriving DecidableEq, Repr

/-- The file: its tables, `e_shnum` and `e_shstrndx`. The next object made gets `nextId`. -/
structure ElfFile where
  sectionHeaders : List SectionHeader
  rawSections : List RawSection
  symbolTables : List (List Symbol)
  programHeaders : List ProgramHeader
  dynamicTable : Option Nat
  shnum : Nat
  shstrndx : Nat
  nextId : Nat
  deriving DecidableEq, Repr

/-- `SHN_LORESERVE`: from here on a section index has a meaning of its own. -/
def SHN_LORESERVE : Nat := 0xff00

/-- `SHT_RELA`. -/
def SHT_RELA : BitVec 32 := 4

/-- `SHT_REL`. -/
def SHT_REL : BitVec 32 := 9

/-- `PT_DYNAMIC`. -/
def PT_DYNAMIC : BitVec 32 := 2

/-- A relocation section: its `sh_info` is the section the relocations apply to. -/
def SectionHeader.isRelocation (h : SectionHeader) : Bool :=
  h.type == SHT_RELA || h.type == SHT_REL

/-- The loop of either `ElfFile::findSectionIdx`: the first match from section 1 on, 0 for none. -/
def firstSectionIdx (headers : List SectionHeader) (p : SectionHeader → Bool) : Nat :=
  match (headers.drop 1).findIdx? p with
  | some i => i + 1
  | none => 0

namespace ElfFile

/-- `getNumberOfSections`. -/
def numberOfSections (f : ElfFile) : Nat := f.sectionHeaders.length

/-- The sections by position. -/
def ids (f : ElfFile) : List Nat := f.sectionHeaders.map SectionHeader.id

/-- `ElfFile::findSectionIdx(char*)`. -/
def findSectionIdx (f : ElfFile) (name : String) : Nat :=
  firstSectionIdx f.sectionHeaders fun h => h.sectionNamePtr == some name

end ElfFile

/-! ## Insertion -/

/-- The arguments of `addSection` after the index. -/
structure NewSection where
  classType : SectionClass
  name : BitVec 32
  type : BitVec 32
  flags : BitVec 64
  addr : BitVec 64
  offset : BitVec 64
  size : BitVec 64
  link : Nat
  info : Nat
  addralign : BitVec 64
  entsize : BitVec 64
  deriving DecidableEq, Repr

/-- The header made from the arguments. -/
def NewSection.header (a : NewSection) (id idx : Nat) : SectionHeader where
  id := id
  index := idx
  sectionNamePtr := none
  name := a.name
  type := a.type
  flags := a.flags
  addr := a.addr
  offset := a.offset
  size := a.size
  link := a.link
  info := a.info
  addralign := a.addralign
  entsize := a.entsize

/-- The raw section made from the arguments. -/
def NewSection.raw (a : NewSection) (id idx : Nat) : RawSection :=
  ⟨id, idx, a.classType, a.size.toNat⟩

/-- `setIndex` of every header. -/
def setIndices (headers : List SectionHeader) : List SectionHeader :=
  headers.mapIdx fun i h => { h with index := i }

/-- `setSectionIndex` of every raw section. -/
def setSectionIndices (raws : List RawSection) : List RawSection :=
  raws.mapIdx fun i r => { r with sectionIndex := i }

/-- The comparison that moves a link and a symbol's section. -/
def moveIndex (idx count x : Nat) : Nat := if idx ≤ x ∧ x < count then x + 1 else x

/-- `sh_link` of a header. -/
def SectionHeader.moveLink (idx count : Nat) (h : SectionHeader) : SectionHeader :=
  { h with link := moveIndex idx count h.link }

/-- `st_shndx` of a symbol. -/
def Symbol.moveShndx (idx count : Nat) (s : Symbol) : Symbol :=
  { s with shndx := BitVec.ofNat 16 (moveIndex idx count s.shndx.toNat) }

/-- `ElfFile::addSection`; none at `__SHOULD_NOT_ARRIVE`. -/
def ElfFile.addSection (f : ElfFile) (idx : Nat) (a : NewSection) : Option ElfFile :=
  if a.classType = .other then none
  else
    let headers := setIndices (f.sectionHeaders.insertIdx idx (a.header f.nextId idx))
    let count := headers.length
    some { f with
      sectionHeaders := headers.map (SectionHeader.moveLink idx count)
      rawSections := setSectionIndices (f.rawSections.insertIdx idx (a.raw f.nextId idx))
      symbolTables := f.symbolTables.map (List.map (Symbol.moveShndx idx count))
      shnum := f.shnum + 1
      -- the comparison is strict, where the two above take the index itself as well
      shstrndx := if idx < f.shstrndx then f.shstrndx + 1 else f.shstrndx
      nextId := f.nextId + 1 }

/-! ## The dynamic table -/

/-- `ElfFile::swapSections`. -/
def ElfFile.swapSections (f : ElfFile) (idx1 idx2 : Nat) : ElfFile :=
  { f with
    sectionHeaders := swapAt f.sectionHeaders idx1 idx2
    rawSections := swapAt f.rawSections idx1 idx2 }

/-- What `extendDynamicTable` reads outside the file. -/
structure DynamicExtension where
  dataSegmentIdx : Nat
  dynamicTableReserved : BitVec 64
  instrumentationFunctions : Nat
  dynamicSize : Nat
  deriving DecidableEq, Repr

/-- `DynamicTable::extendTable`: the bytes of the entries that are added. -/
def DynamicExtension.extendTable (e : DynamicExtension) : Nat :=
  (e.instrumentationFunctions + 5) * e.dynamicSize

/-- The dynamic table's header once the table has grown. -/
def SectionHeader.grown (h : SectionHeader) (e : DynamicExtension) (usableOffset : BitVec 64) :
    SectionHeader :=
  { h with
    size := h.size + BitVec.ofNat 64 e.extendTable
    addr := e.dynamicTableReserved
    offset := usableOffset }

/-- A symbol at the old address is moved to the new one. -/
def Symbol.moveValue (old new : BitVec 64) (s : Symbol) : Symbol :=
  if s.value = old then { s with value := new } else s

/-- The `PT_DYNAMIC` segment follows the table. -/
def ProgramHeader.follow (addr offset size : BitVec 64) (p : ProgramHeader) : ProgramHeader :=
  if p.type = PT_DYNAMIC then
    { p with vaddr := addr, paddr := addr, offset := offset, filesz := size, memsz := size }
  else p

/-- The padding section takes the arguments of the dynamic table's header. -/
def SectionHeader.padding (h : SectionHeader) (name : BitVec 32) (addr offset : BitVec 64) :
    NewSection where
  classType := .dataSection
  name := name
  type := h.type
  flags := h.flags
  addr := addr
  offset := offset
  size := 0
  link := h.link
  info := h.info
  addralign := h.addralign
  entsize := h.entsize

/-- The last loop of `extendDynamicTable`, for one header. -/
def SectionHeader.followLink (oldIdx newIdx : Nat) (h : SectionHeader) : SectionHeader :=
  if h.link = oldIdx then { h with link := newIdx } else h

namespace ElfFile

/-- The file after the dynamic table has grown in place, before the section is added. -/
def growDynamic (f : ElfFile) (e : DynamicExtension) (raw : RawSection) (h : SectionHeader)
    (usableOffset : BitVec 64) : ElfFile :=
  let size := raw.sizeInBytes + e.extendTable
  { f with
    sectionHeaders := f.sectionHeaders.set raw.sectionIndex (h.grown e usableOffset)
    rawSections := f.rawSections.map fun r =>
      if r.id = raw.id then { r with sizeInBytes := size } else r
    symbolTables := f.symbolTables.map (List.map (Symbol.moveValue h.addr e.dynamicTableReserved))
    programHeaders := f.programHeaders.map
      (ProgramHeader.follow e.dynamicTableReserved usableOffset (BitVec.ofNat 64 size)) }

/-- The padding section gets the old size, then every index is written anew. -/
def settle (f : ElfFile) (oldIdx newIdx oldSize : Nat) : ElfFile :=
  { f with
    sectionHeaders := (setIndices (f.sectionHeaders.modify oldIdx
      fun h => { h with size := BitVec.ofNat 64 oldSize })).map
        (SectionHeader.followLink oldIdx newIdx)
    rawSections := setSectionIndices (f.rawSections.modify oldIdx
      fun r => { r with sizeInBytes := r.sizeInBytes + oldSize }) }

/-- `ElfFile::getDynamicTable`, as a raw section. -/
def dynamicRaw (f : ElfFile) : Option RawSection :=
  f.dynamicTable.bind fun id => f.rawSections.find? (·.id == id)

/-- `getSectionHeader` of the dynamic table. -/
def dynamicHeader (f : ElfFile) : Option SectionHeader :=
  f.dynamicRaw.bind fun raw => f.sectionHeaders[raw.sectionIndex]?

/-- `ElfFileInst::extendDynamicTable`; none where it has no table to extend or an
`ASSERT` stops it. -/
def extendDynamicTable (f : ElfFile) (e : DynamicExtension) : Option ElfFile := do
  let raw ← f.dynamicRaw
  let oldIdx := raw.sectionIndex
  let h ← f.dynamicHeader
  let final ← f.sectionHeaders[f.numberOfSections - 1]?
  let dHdr ← f.programHeaders[e.dataSegmentIdx]?
  let usableOffset ← nextAlignAddress (final.offset + final.size) (dHdr.align.setWidth 32)
  guard (raw.sizeInBytes + e.extendTable ≤ 0x8000)
  guard (f.programHeaders.all fun p => p.type != PT_DYNAMIC || p.vaddr == h.addr)
  let g := f.growDynamic e raw h usableOffset
  let generic ← g.sectionHeaders[g.findSectionIdx ".data"]?
  let newIdx := g.numberOfSections
  let added ← g.addSection newIdx
    ((h.grown e usableOffset).padding generic.name h.addr h.offset)
  return (added.swapSections newIdx oldIdx).settle oldIdx newIdx raw.sizeInBytes

end ElfFile

/-! ## Runs -/

/-- The two operations on the section table. -/
inductive SectionOp where
  | addSection (idx : Nat) (a : NewSection)
  | extendDynamicTable (e : DynamicExtension)
  deriving DecidableEq, Repr

/-- One operation; none where it stops the program. -/
def ElfFile.step (f : ElfFile) : SectionOp → Option ElfFile
  | .addSection idx a => f.addSection idx a
  | .extendDynamicTable e => f.extendDynamicTable e

end Pebil

import Pebil.Elf.DynamicSymbol
import Pebil.Elf.SectionTable

/-!
# Growing the tables of the dynamic linker (src/ElfFileInst.C:1469–1530, 1860–2053)

Four operations make one section longer and move every later section up to the one in
front of `.init`. The amount is aligned anew at every section, while the entries of the
dynamic table that point to those sections are moved by whatever the amount is at the end.

Of a relocation table only its size is kept, and of a string its length.
-/

namespace Pebil

/-! ## The tables -/

/-- The tags of the dynamic table that are told apart. -/
inductive DynTag where
  | pltrelsz
  | hash
  | strtab
  | symtab
  | rela
  | rel
  | jmprel
  | gnuHash
  | versym
  | verneed
  | other (tag : Nat)
  deriving DecidableEq, Repr

/-- An entry of the dynamic table. -/
structure Dynamic where
  tag : DynTag
  value : BitVec 64
  deriving DecidableEq, Repr

/-- `INCREMENT_A` of an entry that `p` picks. -/
def Dynamic.incrementIf (p : Dynamic → Bool) (e : BitVec 32) (d : Dynamic) : Dynamic :=
  if p d then { d with value := d.value + e.setWidth 64 } else d

/-- A relocation table and its section. -/
structure RelocationSection where
  sectionIndex : Nat
  relocationSize : Nat
  numberOfRelocations : Nat
  deriving DecidableEq, Repr

/-- A hash table and its section. -/
structure HashSection where
  sectionIndex : Nat
  table : HashTable

/-- The part of the file that takes part in dynamic linking. String and symbol tables are
given by their section; `symbols` is the table that the dynamic table points to. The
fields from `versym` on are the sections of the tables that `initDynamicFilePointers` found. -/
structure LinkFile where
  is64Bit : Bool
  sectionHeaders : List SectionHeader
  dynamics : List Dynamic
  stringTables : List Nat
  symbolTables : List Nat
  relocationTables : List RelocationSection
  hashTables : List HashSection
  symbols : DynamicSymbols
  versym : Nat
  verneed : Nat
  dynstr : Nat
  dynrel : Nat
  pltrel : Nat

namespace HashTable

/-- `isGnuStyleHash`. -/
def isGnuStyleHash : HashTable → Bool
  | .sysv _ => false
  | .gnu _ => true

def numberOfBuckets : HashTable → Nat
  | .sysv t => t.buckets.length
  | .gnu t => t.buckets.length

def numberOfEntries : HashTable → Nat
  | .sysv t => t.entries.length
  | .gnu t => t.entries.length

/-- `hashEntrySize`: a GNU table of a 64-bit file has entries of eight bytes. -/
def entrySize : HashTable → Nat
  | .sysv _ => 4
  | .gnu t => if t.is64Bit then 8 else 4

def addEntry (d : DynamicSymbols) : HashTable → Option (HashTable × DynamicSymbols)
  | .sysv t => (t.addEntry d).map fun t' => (.sysv t', d)
  | .gnu t => (t.addEntry d).map fun r => (.gnu r.1, r.2)

def expandSize (d : DynamicSymbols) (amt : Nat) : HashTable → Option (HashTable × DynamicSymbols)
  | .sysv t => (t.expandSize d amt).map fun t' => (.sysv t', d)
  | .gnu t => (t.expandSize d amt).map fun r => (.gnu r.1, r.2)

end HashTable

/-! ## The displacement -/

/-- A section is moved; `mappedOnly` is the `if (sh_addr)` that two of the loops have. -/
def SectionHeader.displace (h : SectionHeader) (mappedOnly : Bool) (e : BitVec 32) : SectionHeader :=
  { h with
    offset := h.offset + e.setWidth 64
    addr := if mappedOnly && h.addr == 0 then h.addr else h.addr + e.setWidth 64 }

/-- The loop over the sections. `extraSize` is aligned at each of them; `amount` is what is
added, `extraSize` itself but for one loop. -/
def displaceAll (mappedOnly : Bool) (amount : BitVec 32 → BitVec 32) :
    List SectionHeader → BitVec 32 → Option (List SectionHeader × BitVec 32)
  | [], extraSize => some ([], extraSize)
  | h :: hs, extraSize => do
    let aligned ← nextAlignAddress (h.addr + extraSize.setWidth 64) (h.addralign.setWidth 32)
    let extraSize' := (aligned - h.addr).setWidth 32
    let r ← displaceAll mappedOnly amount hs extraSize'
    return (h.displace mappedOnly (amount extraSize') :: r.1, r.2)

namespace LinkFile

/-- `ftidx`: the section in front of `.init`, in `uint16_t`. -/
def ftidx (f : LinkFile) : Nat :=
  (firstSectionIdx f.sectionHeaders (fun h => h.sectionNamePtr == some ".init") + 65535) % 65536

/-- The sections behind `s` up to `t`. -/
def behind (f : LinkFile) (s t : Nat) : List SectionHeader :=
  (f.sectionHeaders.drop (s + 1)).take (t - s)

/-- Displace the sections behind `s`; none where the loop leaves the section table. The second
component is the last `extraSize`. -/
def displace (f : LinkFile) (mappedOnly : Bool) (amount : BitVec 32 → BitVec 32) (s : Nat)
    (extraSize : BitVec 32) : Option (LinkFile × BitVec 32) :=
  if f.ftidx ≤ s then some (f, extraSize)
  else if f.sectionHeaders.length ≤ f.ftidx then none
  else
    (displaceAll mappedOnly amount (f.behind s f.ftidx) extraSize).map fun r =>
      ({ f with
          sectionHeaders :=
            f.sectionHeaders.take (s + 1) ++ r.1 ++ f.sectionHeaders.drop (f.ftidx + 1) }, r.2)

/-- `INCREMENT(sh_size, …)` of a section. -/
def growHeader (f : LinkFile) (s : Nat) (size : BitVec 32) : LinkFile :=
  { f with
    sectionHeaders := f.sectionHeaders.modify s fun h => { h with size := h.size + size.setWidth 64 } }

/-! ## The dynamic table -/

/-- `getDynamicByType(tag, 0)`. -/
def getDynamicByType (f : LinkFile) (tag : DynTag) : Option Dynamic := f.dynamics.find? (·.tag == tag)

/-- `countDynamics`. -/
def countDynamics (f : LinkFile) (tag : DynTag) : Nat := f.dynamics.countP (·.tag == tag)

/-- `sh_addr` of a section. -/
def addrOf (f : LinkFile) (i : Nat) : Option (BitVec 64) := f.sectionHeaders[i]?.map SectionHeader.addr

/-- The table at an address, of which there has to be exactly one. -/
def uniqueTable (f : LinkFile) (tables : List Nat) (addr : BitVec 64) : Option Nat :=
  match tables.filter fun i => f.addrOf i == some addr with
  | [i] => some i
  | _ => none

/-- `INCREMENT_A` of the entries that `p` picks. -/
def incrementEntries (f : LinkFile) (p : Dynamic → Bool) (e : BitVec 32) : LinkFile :=
  { f with dynamics := f.dynamics.map (Dynamic.incrementIf p e) }

/-- `SET_A` of the first entry of a tag to the address of a section. -/
def setEntry (f : LinkFile) (tag : DynTag) (i : Nat) : Option LinkFile := do
  let k ← f.dynamics.findIdx? (·.tag == tag)
  let addr ← f.addrOf i
  return { f with dynamics := f.dynamics.set k ⟨tag, addr⟩ }

/-! ## The operations -/

/-- The entries that `addStringToDynamicStringTable` moves. -/
def behindStrings (tag : DynTag) : Bool := tag ∈ [DynTag.versym, .verneed, .rel, .rela, .jmprel]

/-- `ElfFileInst::addStringToDynamicStringTable` for a string of that length. -/
def addStringToDynamicStringTable (f : LinkFile) (length : Nat) : Option LinkFile := do
  let strtab ← f.getDynamicByType .strtab
  let s ← f.uniqueTable f.stringTables strtab.value
  let extraSize := (nextAlignAddressDouble (BitVec.ofNat 64 (length + 1))).setWidth 32
  let (g, e) ← (f.growHeader s extraSize).displace false id s extraSize
  let addr ← g.addrOf s
  guard (g.dynamics.all fun d => !behindStrings d.tag || addr < d.value)
  return g.incrementEntries (fun d => behindStrings d.tag) e

/-- The section of the PLT's relocations, by the address in the dynamic table. -/
def pltSection (f : LinkFile) : Option Nat :=
  (f.getDynamicByType .jmprel).map fun d =>
    firstSectionIdx f.sectionHeaders fun h => h.addr == d.value

/-- `ElfFileInst::addPLTRelocationEntry`. -/
def addPLTRelocationEntry (f : LinkFile) : Option LinkFile := do
  guard (f.countDynamics .jmprel = 1)
  let jmprel ← f.getDynamicByType .jmprel
  guard (jmprel.value ≠ 0)
  let s ← f.pltSection
  let k ← f.relocationTables.findIdx? (·.sectionIndex == s)
  let table ← f.relocationTables[k]?
  -- the offset of the new relocation, which may not be 0
  guard (table.numberOfRelocations * (if f.is64Bit then 1 else table.relocationSize) ≠ 0)
  let table' := { table with numberOfRelocations := table.numberOfRelocations + 1 }
  let extraSize := BitVec.ofNat 32 table.relocationSize
  let grown := { f.growHeader s extraSize with relocationTables := f.relocationTables.set k table' }
  let (g, e) ← grown.displace true id s extraSize
  let addr ← g.addrOf s
  let g := g.incrementEntries (fun d => d.tag == .pltrelsz) extraSize
  guard (g.dynamics.all fun d => d.tag != .pltrelsz ||
    d.value == BitVec.ofNat 64 (table'.numberOfRelocations * table.relocationSize))
  return g.incrementEntries (fun d => (d.tag == .rel || d.tag == .rela) && addr < d.value) e

/-- The entries that `expandHashTable` moves. -/
def behindHash (isGnuStyleHash : Bool) (tag : DynTag) : Bool :=
  tag ∈ [DynTag.versym, .verneed, .strtab, .symtab, .rel, .rela, .jmprel] ||
    (!isGnuStyleHash && tag == .gnuHash)

/-- `ElfFileInst::expandHashTable`. -/
def expandHashTable (f : LinkFile) (idx : Nat) : Option LinkFile := do
  let h ← f.hashTables[idx]?
  let amt := h.table.numberOfEntries / 2
  let (table, symbols) ← h.table.expandSize f.symbols amt
  let extraSize := BitVec.ofNat 32 (amt * h.table.entrySize)
  let grown := { f.growHeader h.sectionIndex extraSize with
    hashTables := f.hashTables.set idx { h with table := table }
    symbols := symbols }
  let (g, e) ← grown.displace false id h.sectionIndex extraSize
  return g.incrementEntries (fun d => behindHash h.table.isGnuStyleHash d.tag) e

/-- `HashTable::addEntry` of a table of the file. -/
def addHashEntry (f : LinkFile) (idx : Nat) : Option LinkFile := do
  let h ← f.hashTables[idx]?
  let (table, symbols) ← h.table.addEntry f.symbols
  return { f with hashTables := f.hashTables.set idx { h with table := table }, symbols := symbols }

/-- `passedThreshold` of a table of the file. -/
def passedThresholdAt (f : LinkFile) (idx : Nat) : Bool :=
  match f.hashTables[idx]? with
  | some h => passedThreshold h.table.numberOfBuckets h.table.numberOfEntries
  | none => false

/-- `if (passedThreshold()) expandHashTable(idx)`. -/
def expandIfPassed (f : LinkFile) (idx : Nat) : Option LinkFile :=
  if f.passedThresholdAt idx then f.expandHashTable idx else some f

/-- The body of the loop over the hash tables: a GNU table is given its entry last. -/
def growHashTable (f : LinkFile) (idx : Nat) : Option LinkFile := do
  let h ← f.hashTables[idx]?
  if h.table.isGnuStyleHash then (f.expandIfPassed idx).bind (·.addHashEntry idx)
  else (f.addHashEntry idx).bind (·.expandIfPassed idx)

/-- The loop over the hash tables below `n`, from the last down. -/
def growHashTablesBelow : Nat → LinkFile → Option LinkFile
  | 0, f => some f
  | n + 1, f => (f.growHashTable n).bind (growHashTablesBelow n)

/-- The entries that `addSymbolToDynamicSymbolTable` moves with the symbol table's growth. -/
def behindSymbols (tag : DynTag) : Bool :=
  tag ∈ [DynTag.versym, .verneed, .strtab, .rel, .rela, .jmprel]

/-- The relocation entry is set under the tag that the file has. -/
def setRelocationEntry (f : LinkFile) (i : Nat) : Option LinkFile :=
  if (f.getDynamicByType .rel).isSome then f.setEntry .rel i else f.setEntry .rela i

/-- The entries that are set from the section headers at the end. -/
def setEntries (f : LinkFile) : Option LinkFile := do
  let g ← f.setEntry .versym f.versym
  let g ← g.setEntry .verneed f.verneed
  let g ← g.setEntry .strtab f.dynstr
  let g ← g.setRelocationEntry f.dynrel
  g.setEntry .jmprel f.pltrel

/-- `entrySize`: of a symbol. -/
def symbolSize (f : LinkFile) : Nat := if f.is64Bit then 24 else 16

/-- The first half of `addSymbolToDynamicSymbolTable`: the symbol table. `DT_SYMTAB` has to
point to the table that `symbols` stands for. -/
def addToSymbolTable (f : LinkFile) (sym : Symbol) : Option LinkFile := do
  let symtab ← f.getDynamicByType .symtab
  let s ← f.uniqueTable f.symbolTables symtab.value
  guard (s = f.symbols.sectionIndex)
  let size := BitVec.ofNat 32 f.symbolSize
  let grown := { f.growHeader s size with symbols := f.symbols.addSymbol sym }
  -- the aligned amount is computed, but the sections are moved by the size of a symbol
  let (g, _) ← grown.displace true (fun _ => size) s size
  let addr ← g.addrOf s
  guard (g.dynamics.all fun d => !behindSymbols d.tag || addr < d.value)
  return g.incrementEntries (fun d => behindSymbols d.tag) size

/-- `ElfFileInst::addSymbolToDynamicSymbolTable`. -/
def addSymbolToDynamicSymbolTable (f : LinkFile) (sym : Symbol) : Option LinkFile := do
  let g ← f.addToSymbolTable sym
  let g ← growHashTablesBelow g.hashTables.length (g.growHeader g.versym 2)
  let (g, _) ← g.displace false id g.versym 2
  g.setEntries

end LinkFile

/-! ## Runs -/

/-- The four operations. -/
inductive LinkOp where
  | addString (length : Nat)
  | addPLTRelocation
  | expandHash (idx : Nat)
  | addSymbol (sym : Symbol)

/-- One operation; none where it stops the program. -/
def LinkFile.step (f : LinkFile) : LinkOp → Option LinkFile
  | .addString length => f.addStringToDynamicStringTable length
  | .addPLTRelocation => f.addPLTRelocationEntry
  | .expandHash idx => f.expandHashTable idx
  | .addSymbol sym => f.addSymbolToDynamicSymbolTable sym

end Pebil

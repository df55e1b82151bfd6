import Pebil.Elf.GnuHashCorrect
import Pebil.Elf.SysvHashTable

/-!
# Adding a dynamic symbol (src/ElfFileInst.C:1860–1998, src/HashTable.C:340–424)

`addSymbolToDynamicSymbolTable` appends the symbol and then rebuilds the hash tables,
the one with the highest section index first. Rebuilding a GNU table sorts the symbols
and so pulls them from under a SYSV table that has been rebuilt before it;
rebuilding a GNU table without entries does nothing at all.

This module follows the symbols and the hash tables. What the same function does to
section headers and to the dynamic table is another matter and not needed here.
-/

namespace Pebil

/-- A hash table of either style. -/
inductive HashTable where
  | sysv (t : SysvHashTable)
  | gnu (t : GnuHashTable)
  deriving DecidableEq, Repr

/-- `passedThreshold`, the same for both styles. -/
def passedThreshold (numberOfBuckets numberOfEntries : Nat) : Bool :=
  numberOfBuckets < numberOfEntries / 2 || numberOfBuckets < 2

/-- `numberOfBuckets - 1` in `uint32_t`. -/
def pred32 (n : Nat) : Nat := (n + (2 ^ 32 - 1)) % 2 ^ 32

/-- `HashTable::addEntry` for a SYSV table. -/
def SysvHashTable.addEntry (t : SysvHashTable) (d : DynamicSymbols) : Option SysvHashTable :=
  buildTable d (t.entries.length + 1) (pred32 t.buckets.length)

/-- `HashTable::expandSize` for a SYSV table. -/
def SysvHashTable.expandSize (t : SysvHashTable) (d : DynamicSymbols) (amt : Nat) :
    Option SysvHashTable :=
  buildTable d t.entries.length ((t.buckets.length + amt) % 2 ^ 32)

/-- `HashTable::addEntry` for a GNU table. -/
def GnuHashTable.addEntry (t : GnuHashTable) (d : DynamicSymbols) :
    Option (GnuHashTable × DynamicSymbols) :=
  t.buildTable d (t.entries.length + 1) (pred32 t.buckets.length)

/-- `HashTable::expandSize` for a GNU table. -/
def GnuHashTable.expandSize (t : GnuHashTable) (d : DynamicSymbols) (amt : Nat) :
    Option (GnuHashTable × DynamicSymbols) :=
  t.buildTable d t.entries.length ((t.buckets.length + amt) % 2 ^ 32)

/-- The body of the loop over the hash tables, for a SYSV table: the entry first. -/
def SysvHashTable.grow (t : SysvHashTable) (d : DynamicSymbols) : Option SysvHashTable :=
  (t.addEntry d).bind fun t =>
    if passedThreshold t.buckets.length t.entries.length then
      t.expandSize d (t.entries.length / 2)
    else some t

/-- The body of the loop over the hash tables, for a GNU table: the expansion first. -/
def GnuHashTable.grow (t : GnuHashTable) (d : DynamicSymbols) :
    Option (GnuHashTable × DynamicSymbols) :=
  (if passedThreshold t.buckets.length t.entries.length then
      t.expandSize d (t.entries.length / 2)
    else some (t, d)).bind fun r => r.1.addEntry r.2

/-- The body of the loop for either style. -/
def HashTable.grow (t : HashTable) (d : DynamicSymbols) : Option (HashTable × DynamicSymbols) :=
  match t with
  | .sysv s => (s.grow d).map fun s' => (.sysv s', d)
  | .gnu g => (g.grow d).map fun r => (.gnu r.1, r.2)

/-- The loop over the hash tables, from the last index down. -/
def growHashTables : List HashTable → DynamicSymbols → Option (List HashTable × DynamicSymbols)
  | [], d => some ([], d)
  | t :: ts, d =>
    (growHashTables ts d).bind fun r =>
      (t.grow r.2).map fun r' => (r'.1 :: r.1, r'.2)

namespace DynamicSymbols

/-- `SymbolTable::addSymbol` and `GnuVersymTable::addSymbol(VER_NDX_GLOBAL)`. -/
def addSymbol (d : DynamicSymbols) (s : Symbol) : DynamicSymbols where
  sectionIndex := d.sectionIndex
  symbols := d.symbols ++ [s]
  versym := d.versym ++ [1]
  relocationTables := d.relocationTables
  versym_length := by simp only [List.length_append, d.versym_length, List.length_singleton]

end DynamicSymbols

/-- The symbol `addSymbol` makes: `ELF64_ST_INFO`, and `st_other` cut to a byte. The
name is at an offset that `addStringToDynamicStringTable` returned, which is not 0. -/
def Symbol.make (name : CString) (value size : BitVec 64) (bind type : BitVec 8)
    (other : BitVec 32) (scnidx : BitVec 16) : Symbol where
  name := some name
  value := value
  size := size
  info := (bind <<< 4) + (type &&& 0xf)
  other := other.setWidth 8
  shndx := scnidx

/-- `ElfFileInst::addSymbolToDynamicSymbolTable` on the symbols and the hash tables; the
first component is the symbol's index when it was added. -/
def addSymbolToDynamicSymbolTable (ts : List HashTable) (d : DynamicSymbols) (s : Symbol) :
    Option (Nat × List HashTable × DynamicSymbols) :=
  (growHashTables ts (d.addSymbol s)).map fun r => (d.symbols.length, r)

/-! ## What a table finds -/

/-- The dynamic linker's lookup in a table of either style. -/
def HashTable.lookup (names : List CString) (name : CString) : HashTable → HashLookup
  | .sysv t => t.lookup names name
  | .gnu t => t.lookup names name

/-- The table finds every named symbol it covers at its index: a SYSV table all but
symbol 0, a GNU table those from its first index on. -/
def HashTable.Finds : HashTable → DynamicSymbols → Prop
  | .sysv t, d => ∀ p sym, 0 < p → d.symbols[p]? = some sym → sym.name.isSome →
      t.lookup d.names sym.getSymbolName = .found p
  | .gnu t, d => ∀ p sym, t.firstSymIndex ≤ p → d.symbols[p]? = some sym → sym.name.isSome →
      t.lookup d.names sym.getSymbolName = .found p

/-- A GNU table belongs to a symbol table: it has a word for each symbol from the first
index on, or none at all (the `ASSERT` of `initFilePointers`). -/
structure GnuHashTable.Covers (t : GnuHashTable) (d : DynamicSymbols) : Prop where
  first_le : t.firstSymIndex ≤ d.symbols.length
  entries_length : t.entries ≠ [] → t.firstSymIndex + t.entries.length = d.symbols.length

/-- The hash tables of a file, by section index: a SYSV table, a GNU table, or both. -/
inductive Covering (d : DynamicSymbols) : List HashTable → Prop
  | sysv (s : SysvHashTable) : Covering d [.sysv s]
  | gnu {g : GnuHashTable} (h : g.Covers d) : Covering d [.gnu g]
  | sysvGnu (s : SysvHashTable) {g : GnuHashTable} (h : g.Covers d) : Covering d [.sysv s, .gnu g]
  | gnuSysv {g : GnuHashTable} (s : SysvHashTable) (h : g.Covers d) : Covering d [.gnu g, .sysv s]

/-! ## When the tables stay in step -/

/-- The symbols from `first` on, grouped by their GNU bucket. -/
def regroup (first numberOfBuckets : Nat) (symbols : List Symbol) : List Symbol :=
  symbols.take first ++
    grouped (gnuBucket numberOfBuckets ∘ Symbol.getSymbolName) numberOfBuckets (symbols.drop first)

/-- The order a growing GNU table leaves the symbols in: grouped by the buckets it has
after the expansion, if there is one, and then by one bucket less. -/
def GnuHashTable.reordered (g : GnuHashTable) (symbols : List Symbol) : List Symbol :=
  if passedThreshold g.buckets.length g.entries.length then
    let expanded := g.bucketCount ((g.buckets.length + g.entries.length / 2) % 2 ^ 32)
    regroup g.firstSymIndex (expanded - 1) (regroup g.firstSymIndex expanded symbols)
  else regroup g.firstSymIndex (g.bucketCount (pred32 g.buckets.length)) symbols

/-- The bucket count a growing SYSV table ends with. -/
def SysvHashTable.grownCount (s : SysvHashTable) : Nat :=
  let buckets := pred32 s.buckets.length
  let entries := s.entries.length + 1
  if passedThreshold buckets entries then (buckets + entries / 2) % 2 ^ 32 else buckets

/-- Reordering puts no named symbol where a symbol of another SYSV bucket stood. -/
def KeepsBuckets (numberOfBuckets : Nat) (before after : List Symbol) : Prop :=
  ∀ p sym, 0 < p → after[p]? = some sym → sym.name.isSome →
    sysvBucketAt (before.map Symbol.getSymbolName) numberOfBuckets p =
      some (sysvBucket numberOfBuckets sym.getSymbolName)

/-- The condition under which every table finds every symbol afterwards. -/
def StayInStep (symbols : List Symbol) : List HashTable → Prop
  | [.gnu g] => g.entries ≠ []
  | [.sysv _, .gnu g] => g.entries ≠ []
  | [.gnu g, .sysv s] =>
      g.entries ≠ [] ∧ KeepsBuckets s.grownCount symbols (g.reordered symbols)
  | _ => True

end Pebil

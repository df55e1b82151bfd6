import Pebil.Elf.SymbolTable

/-!
# The GNU hash table (src/HashTable.C:35–133, 237–345)

`GnuHashTable::buildTable` sorts the symbols and rebuilds buckets, chain words and
bloom filter; its last act, `verify`, looks every hashed symbol up with
`findSymbol`. A failed `ASSERT` or a `PRINT_ERROR` ends the program and is `none`.

`lookup` is not the program's: it is the rule a dynamic linker follows, and reading
outside the table is an outcome of its own.
-/

namespace Pebil

/-- The contents of a GNU hash section; its counts are the lengths of the lists. -/
structure GnuHashTable where
  is64Bit : Bool
  firstSymIndex : Nat
  shiftCount : Nat
  bloomFilters : List (BitVec 64)
  buckets : List Nat
  entries : List (BitVec 32)
  deriving DecidableEq, Repr

namespace GnuHashTable

/-! ## The dynamic linker's lookup -/

/-- The bloom filter lets the hash pass. -/
def bloomPasses (t : GnuHashTable) (h : BitVec 32) : Bool :=
  let bits := if t.is64Bit then 64 else 32
  match t.bloomFilters[h.toNat / bits &&& (t.bloomFilters.length - 1)]? with
  | none => false
  | some word =>
    word.getLsbD (h.toNat % bits) && word.getLsbD ((h >>> t.shiftCount).toNat % bits)

/-- The walk along the chain words and the symbols from index `x` on: a word is
compared without its bit 0, which ends the chain. -/
def chainWalk (name : CString) : List (BitVec 32) → List CString → Nat → HashLookup
  | [], _, _ => .outside
  | _, [], _ => .outside
  | e :: entries, n :: names, x =>
    if e >>> 1 = name.elfGnuHash >>> 1 ∧ n = name then .found x
    else if e.getLsbD 0 then .absent
    else chainWalk name entries names (x + 1)

/-- The ELF rule: bloom filter, bucket start, chain. -/
def lookup (t : GnuHashTable) (names : List CString) (name : CString) : HashLookup :=
  if t.bloomPasses name.elfGnuHash then
    match t.buckets[gnuBucket t.buckets.length name]? with
    | none => .outside
    | some 0 => .absent
    | some x =>
      if x < t.firstSymIndex then .outside
      else chainWalk name (t.entries.drop (x - t.firstSymIndex)) (names.drop x) x
  else .absent

/-! ## The program's lookup -/

/-- The `while` of `findSymbol` and the comparison after it. -/
def findWalk (name : CString) : List (BitVec 32) → List CString → Nat → Option Nat
  | _, [], _ => none
  | [], n :: _, x => if n = name then some x else none
  | e :: entries, n :: names, x =>
    if n = name then some x
    else if e.getLsbD 0 then none
    else findWalk name entries names (x + 1)

/-- `GnuHashTable::findSymbol`. The bloom test is `filter & (bitmask != bitmask)`, which
is 0, so it rejects nothing; `x - firstSymIndex` is unsigned, so an `x` below
`firstSymIndex` leaves the loop at once. -/
def findSymbol (t : GnuHashTable) (names : List CString) (name : CString) : Option Nat :=
  match t.buckets[gnuBucket t.buckets.length name]? with
  | none => none
  | some x =>
    findWalk name (if t.firstSymIndex ≤ x then t.entries.drop (x - t.firstSymIndex) else [])
      (names.drop x) x

/-- The lookups of `GnuHashTable::verify`. -/
def verify (t : GnuHashTable) (names : List CString) : Bool :=
  t.entries.isEmpty ||
    (names.zipIdx.drop t.firstSymIndex).all fun p => t.findSymbol names p.1 = some p.2

/-! ## Building the table -/

/-- The descending loop that fills the buckets; the argument is `i + 1`. At 0 the
unsigned `i` is `UINT32_MAX`: no `firstSymIndex` stops the loop there, and no symbol
has that index. -/
def fillBuckets (names : List CString) (firstSymIndex numberOfBuckets : Nat) :
    Nat → List Nat → Option (List Nat)
  | 0, _ => none
  | i + 1, buckets =>
    if firstSymIndex ≤ i then
      match names[i]? with
      | none => none
      | some name =>
        fillBuckets names firstSymIndex numberOfBuckets i
          (buckets.set (gnuBucket numberOfBuckets name) i)
    else some buckets

/-- The stop bits: for each bucket that starts after the first hashed symbol, the
entry before its start. -/
def stopBits (firstSymIndex numEntries : Nat) (buckets : List Nat) : List Bool :=
  buckets.foldl
    (fun bits b => if firstSymIndex < b then bits.set (b - firstSymIndex - 1) true else bits)
    (List.replicate numEntries false)

/-- A chain word: the hash with bit 0 replaced by the stop bit. -/
def chainWord (name : CString) (stop : Bool) : BitVec 32 :=
  name.elfGnuHash &&& ~~~1 ||| (if stop then 1 else 0)

/-- The bucket count of a rebuilt table: the bloom words but one are given to the
buckets, in `uint32_t` arithmetic. -/
def bucketCount (t : GnuHashTable) (numBuckets : Nat) : Nat :=
  (numBuckets + t.bloomFilters.length + (2 ^ 32 - 1)) % 2 ^ 32

/-- The table with the new buckets, the chain words of the sorted symbols and a single
bloom word that rejects nothing. -/
def rebuilt (t : GnuHashTable) (names : List CString) (numEntries : Nat)
    (buckets : List Nat) : GnuHashTable :=
  { t with
    bloomFilters := [BitVec.allOnes 64]
    buckets := buckets
    entries := List.zipWith chainWord (names.drop t.firstSymIndex)
      (stopBits t.firstSymIndex numEntries buckets) }

/-- `GnuHashTable::buildTable`. With no bucket it ends in a division by zero or in the
`ASSERT` after the sort. -/
def buildTable (t : GnuHashTable) (d : DynamicSymbols) (numEntries numBuckets : Nat) :
    Option (GnuHashTable × DynamicSymbols) :=
  if t.entries = [] then some (t, d)
  else
    let numberOfBuckets := t.bucketCount numBuckets
    if numberOfBuckets = 0 then none
    else
      let d' := d.sortForGnuHash t.firstSymIndex numberOfBuckets
      match fillBuckets d'.names t.firstSymIndex numberOfBuckets d'.symbols.length
          (List.replicate numberOfBuckets 0) with
      | none => none
      | some buckets =>
        -- the loop over the entries reads `numEntries` names
        if d'.symbols.length - t.firstSymIndex < numEntries then none
        else
          let t' := t.rebuilt d'.names numEntries buckets
          if t'.verify d'.names then some (t', d') else none

end GnuHashTable

end Pebil

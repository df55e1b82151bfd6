import Pebil.Lib.BubbleSort
import Pebil.Elf.Name

/-!
# The dynamic symbol table and its sort (src/SymbolTable.C:39–126)

`SymbolTable::sortForGnuHash` reorders the symbols from `firstSymIndex` on by the
bucket their name hashes to. The GNU version table is exchanged in step, and
`sortRep`, exchanged in step as well, remembers where each symbol came from, so
that the relocations that name a symbol can be renumbered afterwards.

The three arrays are sorted as one list of `SymbolSlot`s. Of a relocation only the
symbol number is kept (`getSymbol`), of its table the `sh_link`.
-/

namespace Pebil

open scoped List

/-- A dynamic symbol; `name` is the string at its `st_name`, none for `st_name` 0. -/
structure Symbol where
  name : Option CString
  value : BitVec 64
  size : BitVec 64
  info : BitVec 8
  other : BitVec 8
  shndx : BitVec 16
  deriving DecidableEq, Repr

/-- `symbol_without_name`, the text `<__no_name__pebil>`. -/
def symbolWithoutName : CString where
  bytes := [60, 95, 95, 110, 111, 95, 110, 97, 109, 101, 95, 95, 112, 101, 98, 105, 108, 62]
  nonzero := by decide

/-- `SymbolTable::getSymbolName`. -/
def Symbol.getSymbolName (s : Symbol) : CString := s.name.getD symbolWithoutName

/-- What a lookup in a hash table comes to. -/
inductive HashLookup where
  | found (index : Nat)
  | absent
  /-- The lookup reads a bucket, a chain word or a symbol that does not exist. -/
  | outside
  deriving DecidableEq, Repr

/-- The symbol numbers of a relocation table's relocations. -/
structure RelocationTable where
  link : Nat
  symbols : List Nat
  deriving DecidableEq, Repr

/-- The dynamic symbol table with what the sort keeps in step with it. The versym
table has an entry for each symbol (the `ASSERT` of `sortForGnuHash`). -/
structure DynamicSymbols where
  sectionIndex : Nat
  symbols : List Symbol
  versym : List (BitVec 16)
  relocationTables : List RelocationTable
  versym_length : versym.length = symbols.length

/-- One position of the three arrays that are sorted together. -/
structure SymbolSlot where
  symbol : Symbol
  version : BitVec 16
  rep : Nat

/-- The bucket a name hashes to. -/
def gnuBucket (numberOfBuckets : Nat) (name : CString) : Nat :=
  name.elfGnuHash.toNat % numberOfBuckets

namespace DynamicSymbols

/-- `getSymbolName` of every index. -/
def names (d : DynamicSymbols) : List CString := d.symbols.map Symbol.getSymbolName

@[simp] theorem names_length (d : DynamicSymbols) : d.names.length = d.symbols.length :=
  List.length_map ..

/-- The arrays before the sort: `sortRep[i] = i`. -/
def slots (d : DynamicSymbols) : List SymbolSlot :=
  (d.symbols.zip d.versym).zipIdx.map fun p => ⟨p.1.1, p.1.2, p.2⟩

/-- The arrays after the sort. -/
def sortedSlots (d : DynamicSymbols) (firstSymIndex numberOfBuckets : Nat) : List SymbolSlot :=
  d.slots.take firstSymIndex ++
    bubbleSort (gnuBucket numberOfBuckets ∘ Symbol.getSymbolName ∘ SymbolSlot.symbol) (d.slots.drop firstSymIndex)

end DynamicSymbols

/-- The search for a relocation's symbol among `sortRep[i]`, `sortRep[i + 1]`, …:
the first match renumbers it (`doneMod`). -/
def renumber : List Nat → Nat → Nat → Nat
  | [], _, sym => sym
  | r :: reps, i, sym => if sym = r then i else renumber reps (i + 1) sym

/-- The relocations of a table linked to the symbol table are renumbered. -/
def RelocationTable.renumber (t : RelocationTable) (sectionIndex firstSymIndex : Nat)
    (reps : List Nat) : RelocationTable :=
  if t.link = sectionIndex then
    { t with symbols := t.symbols.map (Pebil.renumber reps firstSymIndex) }
  else t

namespace DynamicSymbols

theorem slots_length (d : DynamicSymbols) : d.slots.length = d.symbols.length := by
  simp [slots, d.versym_length]

theorem sortedSlots_perm (d : DynamicSymbols) (firstSymIndex numberOfBuckets : Nat) :
    (d.sortedSlots firstSymIndex numberOfBuckets).Perm d.slots := by
  have hdrop := bubbleSort_perm (gnuBucket numberOfBuckets ∘ Symbol.getSymbolName ∘ SymbolSlot.symbol)
    (d.slots.drop firstSymIndex)
  calc d.sortedSlots firstSymIndex numberOfBuckets
    _ ~ d.slots.take firstSymIndex ++ d.slots.drop firstSymIndex := hdrop.append_left _
    _ ~ d.slots := by rw [List.take_append_drop]

/-- `SymbolTable::sortForGnuHash`. A bucket count of 0 is a division by zero in the
first comparison, which `buildTable` accounts for. -/
def sortForGnuHash (d : DynamicSymbols) (firstSymIndex numberOfBuckets : Nat) :
    DynamicSymbols :=
  let sorted := d.sortedSlots firstSymIndex numberOfBuckets
  { sectionIndex := d.sectionIndex
    symbols := sorted.map SymbolSlot.symbol
    versym := sorted.map SymbolSlot.version
    relocationTables := d.relocationTables.map fun t =>
      t.renumber d.sectionIndex firstSymIndex ((sorted.map SymbolSlot.rep).drop firstSymIndex)
    versym_length := by simp only [List.length_map] }

/-! ## What the sort does to the symbols -/

theorem slots_symbol (d : DynamicSymbols) : d.slots.map SymbolSlot.symbol = d.symbols := by
  rw [slots, List.map_map]
  calc (d.symbols.zip d.versym).zipIdx.map (fun p => p.1.1)
    _ = ((d.symbols.zip d.versym).zipIdx.map Prod.fst).map Prod.fst := by
        rw [List.map_map]; rfl
    _ = d.symbols := by
        rw [List.zipIdx_map_fst, List.map_fst_zip d.versym_length.ge]

/-- The unhashed symbols stay, the hashed ones are sorted by the bucket of their name. -/
theorem sortForGnuHash_symbols (d : DynamicSymbols) (firstSymIndex numberOfBuckets : Nat) :
    (d.sortForGnuHash firstSymIndex numberOfBuckets).symbols =
      d.symbols.take firstSymIndex ++
        bubbleSort (gnuBucket numberOfBuckets ∘ Symbol.getSymbolName)
          (d.symbols.drop firstSymIndex) := by
  show (d.sortedSlots firstSymIndex numberOfBuckets).map SymbolSlot.symbol = _
  rw [sortedSlots, List.map_append, List.map_take]
  show _ ++ (bubbleSort ((gnuBucket numberOfBuckets ∘ Symbol.getSymbolName) ∘ SymbolSlot.symbol)
    (d.slots.drop firstSymIndex)).map SymbolSlot.symbol = _
  rw [bubbleSort_map, List.map_drop, slots_symbol]

theorem sortForGnuHash_perm (d : DynamicSymbols) (firstSymIndex numberOfBuckets : Nat) :
    (d.sortForGnuHash firstSymIndex numberOfBuckets).symbols.Perm d.symbols := by
  rw [sortForGnuHash_symbols]
  calc d.symbols.take firstSymIndex ++ bubbleSort _ (d.symbols.drop firstSymIndex)
    _ ~ d.symbols.take firstSymIndex ++ d.symbols.drop firstSymIndex :=
        (bubbleSort_perm _ _).append_left _
    _ ~ d.symbols := by rw [List.take_append_drop]

theorem sortForGnuHash_length (d : DynamicSymbols) (firstSymIndex numberOfBuckets : Nat) :
    (d.sortForGnuHash firstSymIndex numberOfBuckets).symbols.length = d.symbols.length :=
  (d.sortForGnuHash_perm firstSymIndex numberOfBuckets).length_eq

theorem sortForGnuHash_names (d : DynamicSymbols) (firstSymIndex numberOfBuckets : Nat) :
    (d.sortForGnuHash firstSymIndex numberOfBuckets).names =
      d.names.take firstSymIndex ++
        bubbleSort (gnuBucket numberOfBuckets) (d.names.drop firstSymIndex) := by
  rw [names, sortForGnuHash_symbols, List.map_append, List.map_take, bubbleSort_map,
    List.map_drop, names]

theorem sortForGnuHash_names_perm (d : DynamicSymbols) (firstSymIndex numberOfBuckets : Nat) :
    (d.sortForGnuHash firstSymIndex numberOfBuckets).names.Perm d.names :=
  (d.sortForGnuHash_perm firstSymIndex numberOfBuckets).map _

/-! ## What the sort does to versions and relocations -/

/-- Every slot still holds the symbol and the version of the index it came from. -/
theorem mem_sortedSlots {d : DynamicSymbols} {firstSymIndex numberOfBuckets : Nat} {t : SymbolSlot}
    (h : t ∈ d.sortedSlots firstSymIndex numberOfBuckets) :
    d.symbols[t.rep]? = some t.symbol ∧ d.versym[t.rep]? = some t.version := by
  have hmem : t ∈ d.slots := (d.sortedSlots_perm firstSymIndex numberOfBuckets).subset h
  obtain ⟨⟨⟨sym, ver⟩, i⟩, hp, rfl⟩ := List.mem_map.mp hmem
  exact List.getElem?_zip_eq_some.mp (List.mk_mem_zipIdx_iff_getElem?.mp hp)

theorem slots_rep (d : DynamicSymbols) : d.slots.map SymbolSlot.rep = List.range d.symbols.length := by
  rw [slots, List.map_map]
  calc (d.symbols.zip d.versym).zipIdx.map Prod.snd
    _ = List.range' 0 (d.symbols.zip d.versym).length := List.zipIdx_map_snd ..
    _ = List.range d.symbols.length := by
        rw [List.length_zip, d.versym_length, Nat.min_self, List.range_eq_range']

end DynamicSymbols

theorem renumber_of_notMem {reps : List Nat} {i sym : Nat} (h : sym ∉ reps) :
    renumber reps i sym = sym := by
  induction reps generalizing i with
  | nil => rfl
  | cons r reps ih =>
    rw [List.mem_cons, not_or] at h
    rw [renumber, if_neg h.1, ih h.2]

theorem renumber_of_mem {reps : List Nat} {i sym : Nat} (h : sym ∈ reps) :
    ∃ k, reps[k]? = some sym ∧ renumber reps i sym = i + k := by
  induction reps generalizing i with
  | nil => exact absurd h List.not_mem_nil
  | cons r reps ih =>
    by_cases heq : sym = r
    · exact ⟨0, by simp [heq], by simp [renumber, heq]⟩
    · obtain ⟨k, hk, hren⟩ := ih (i := i + 1) ((List.mem_cons.mp h).resolve_left heq)
      refine ⟨k + 1, by simpa using hk, ?_⟩
      rw [renumber, if_neg heq, hren]
      omega

namespace DynamicSymbols

/-- A renumbered relocation finds the slot that came from its symbol. -/
theorem sortedSlots_renumber (d : DynamicSymbols) (firstSymIndex numberOfBuckets : Nat) {sym : Nat}
    (hsym : sym < d.symbols.length) :
    ((d.sortedSlots firstSymIndex numberOfBuckets).map SymbolSlot.rep)[renumber
      (((d.sortedSlots firstSymIndex numberOfBuckets).map SymbolSlot.rep).drop firstSymIndex)
      firstSymIndex sym]? = some sym := by
  generalize hreps : (d.sortedSlots firstSymIndex numberOfBuckets).map SymbolSlot.rep = reps
  have hperm : reps.Perm (List.range d.symbols.length) := by
    rw [← hreps, ← slots_rep]
    exact (d.sortedSlots_perm firstSymIndex numberOfBuckets).map _
  have hmem : sym ∈ reps := hperm.mem_iff.mpr (List.mem_range.mpr hsym)
  by_cases hdrop : sym ∈ reps.drop firstSymIndex
  · obtain ⟨k, hk, hren⟩ := renumber_of_mem (i := firstSymIndex) hdrop
    rwa [hren, ← List.getElem?_drop]
  · -- the symbol is not hashed, and nothing before `firstSymIndex` moves
    rw [renumber_of_notMem hdrop]
    have htake : reps.take firstSymIndex = (List.range d.symbols.length).take firstSymIndex := by
      rw [← hreps, ← slots_rep, sortedSlots, ← List.map_take, ← List.map_take,
        List.take_append, List.take_take, Nat.min_self]
      by_cases hlen : firstSymIndex ≤ d.slots.length
      · rw [List.length_take, Nat.min_eq_left hlen, Nat.sub_self, List.take_zero, List.append_nil]
      · have hnil : d.slots.drop firstSymIndex = [] := List.drop_eq_nil_of_le (by omega)
        rw [hnil]
        simp [bubbleSort, bubblePasses]
    have hsplit : sym ∈ reps.take firstSymIndex := by
      rw [← List.take_append_drop firstSymIndex reps] at hmem
      exact (List.mem_append.mp hmem).resolve_right hdrop
    rw [htake, List.take_range, List.mem_range] at hsplit
    have hlt : sym < firstSymIndex := by omega
    rw [← List.getElem?_take_of_lt hlt, htake, List.getElem?_take_of_lt hlt,
      List.getElem?_range hsym]

/-- **The sort keeps every reference to a symbol**: what a linked relocation named
before, it names afterwards, and the symbol keeps its version. -/
theorem sortForGnuHash_renumber (d : DynamicSymbols) {firstSymIndex numberOfBuckets sym : Nat}
    (hsym : sym < d.symbols.length) :
    let d' := d.sortForGnuHash firstSymIndex numberOfBuckets
    let reps := (d.sortedSlots firstSymIndex numberOfBuckets).map SymbolSlot.rep
    let sym' := renumber (reps.drop firstSymIndex) firstSymIndex sym
    d'.symbols[sym']? = d.symbols[sym]? ∧ d'.versym[sym']? = d.versym[sym]? := by
  intro d' reps sym'
  have hrep := d.sortedSlots_renumber firstSymIndex numberOfBuckets hsym
  obtain ⟨t, ht, rfl⟩ := Option.map_eq_some_iff.mp ((List.getElem?_map ..).symm.trans hrep)
  obtain ⟨hsymbol, hversion⟩ := mem_sortedSlots (List.mem_of_getElem? ht)
  constructor
  · show ((d.sortedSlots firstSymIndex numberOfBuckets).map SymbolSlot.symbol)[sym']? = _
    rw [List.getElem?_map, ht, hsymbol, Option.map_some]
  · show ((d.sortedSlots firstSymIndex numberOfBuckets).map SymbolSlot.version)[sym']? = _
    rw [List.getElem?_map, ht, hversion, Option.map_some]

end DynamicSymbols

end Pebil

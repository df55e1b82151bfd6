import Pebil.Lib.Rounds
import Pebil.Elf.Relocation
import Pebil.Elf.SymbolTable

/-!
# Sorting the symbols under packed relocations (src/SymbolTable.C:39–126)

`SymbolTable::sortForGnuHash` goes, for each symbol behind `firstSymIndex` in its new order, over
all relocations that may name it, and writes the new number into those that name the old one.
`doneMod` keeps a relocation from being renumbered twice.

Where a symbol goes can be told before the sort: `place` counts the symbols that come before it.
A relocation refers to the same symbol after the sort if that place fits the bits it has, or if
the bits that fit name an equal symbol (`keepsReferences_iff`).
-/

namespace Pebil

open scoped List

/-- A relocation table with its `sh_link`. -/
structure PackedTable where
  link : Nat
  relocations : List Relocation
  deriving DecidableEq, Repr

/-- The dynamic symbol table, the version table and the relocation tables of a file. A section
has fewer than `2^32` bytes, and a symbol takes at least 16 of them. -/
structure LinkedSymbols where
  sectionIndex : Nat
  symbols : List Symbol
  versym : List (BitVec 16)
  relocationTables : List PackedTable
  versym_length : versym.length = symbols.length
  length_lt : symbols.length < 2 ^ 28

namespace LinkedSymbols

variable (d : LinkedSymbols)

/-- The part that is sorted. -/
def dynamic : DynamicSymbols where
  sectionIndex := d.sectionIndex
  symbols := d.symbols
  versym := d.versym
  relocationTables := []
  versym_length := d.versym_length

/-- What a relocation refers to: a symbol with its version. -/
def entry (n : Nat) : Option Symbol × Option (BitVec 16) := (d.symbols[n]?, d.versym[n]?)

end LinkedSymbols

/-- The body of the innermost loop, for a relocation with its `doneMod`. -/
def renumberRelocation (p : Nat × Nat) (r : Relocation × Bool) : Option (Relocation × Bool) :=
  r.1.getSymbol.bind fun sym =>
    if sym.toNat = p.1 ∧ r.2 = false then
      (r.1.setSymbolInfo (BitVec.ofNat 32 p.2)).map fun r => (r, true)
    else some r

/-- The loop over the relocations of a table. -/
def renumberTable (sectionIndex : Nat) (p : Nat × Nat) (t : Nat × List (Relocation × Bool)) :
    Option (Nat × List (Relocation × Bool)) :=
  if t.1 = sectionIndex then
    (t.2.mapM (renumberRelocation p)).map fun relocations => (t.1, relocations)
  else some t

namespace LinkedSymbols

/-- The tables before the first round. -/
def unmodified (d : LinkedSymbols) : List (Nat × List (Relocation × Bool)) :=
  d.relocationTables.map fun t => (t.link, t.relocations.map (·, false))

/-- The loop over the tables. -/
def renumberTables (sectionIndex : Nat) (tables : List (Nat × List (Relocation × Bool)))
    (p : Nat × Nat) : Option (List (Nat × List (Relocation × Bool))) :=
  tables.mapM (renumberTable sectionIndex p)

/-- `SymbolTable::sortForGnuHash`. It divides by the number of buckets where two symbols are
compared. -/
def sortForGnuHash (d : LinkedSymbols) (firstSymIndex numberOfBuckets : Nat) :
    Option LinkedSymbols :=
  if numberOfBuckets = 0 ∧ firstSymIndex + 1 < d.symbols.length then none
  else
    let sorted := d.dynamic.sortedSlots firstSymIndex numberOfBuckets
    let sortRep := (sorted.map SymbolSlot.rep).drop firstSymIndex
    ((sortRep.zipIdx firstSymIndex).foldlM (renumberTables d.sectionIndex) d.unmodified).map
      fun tables =>
      { sectionIndex := d.sectionIndex
        symbols := sorted.map SymbolSlot.symbol
        versym := sorted.map SymbolSlot.version
        relocationTables := tables.map fun t => ⟨t.1, t.2.map Prod.fst⟩
        versym_length := by simp only [List.length_map]
        length_lt := by
          rw [List.length_map, (d.dynamic.sortedSlots_perm _ _).length_eq, d.dynamic.slots_length]
          exact d.length_lt }

/-- The relocation refers to the same symbol and is the same otherwise. -/
structure SameReference (d d' : LinkedSymbols) (r r' : Relocation) : Prop where
  entry : d'.entry r'.symbolNumber = d.entry r.symbolNumber
  rest : r'.rest = r.rest

/-- What the sort is to leave behind. -/
structure Sorted (d d' : LinkedSymbols) (firstSymIndex numberOfBuckets : Nat) : Prop where
  /-- The symbols change places, each with its version. -/
  perm : (d'.symbols.zip d'.versym).Perm (d.symbols.zip d.versym)
  fixed : ∀ i < firstSymIndex, d'.entry i = d.entry i
  ordered : (d'.symbols.drop firstSymIndex).Pairwise fun s t =>
    gnuBucket numberOfBuckets s.getSymbolName ≤ gnuBucket numberOfBuckets t.getSymbolName
  references : List.Forall₂ (fun t t' => t'.link = t.link ∧
    if t.link = d.sectionIndex then List.Forall₂ (SameReference d d') t.relocations t'.relocations
    else t'.relocations = t.relocations) d.relocationTables d'.relocationTables

/-- The sort succeeds and keeps all references. -/
def KeepsReferences (d : LinkedSymbols) (firstSymIndex numberOfBuckets : Nat) : Prop :=
  ∃ d', d.sortForGnuHash firstSymIndex numberOfBuckets = some d' ∧
    d.Sorted d' firstSymIndex numberOfBuckets

/-! ## Places -/

/-- The bucket of a symbol. -/
def bucketOf (numberOfBuckets : Nat) (s : Symbol) : Nat :=
  gnuBucket numberOfBuckets s.getSymbolName

/-- Where the sort puts a symbol: behind the unhashed ones, those of smaller buckets, and those
of its own bucket that are before it. -/
def place (d : LinkedSymbols) (firstSymIndex numberOfBuckets q : Nat) : Nat :=
  let hashed := d.symbols.drop firstSymIndex
  match d.symbols[q]? with
  | none => q
  | some s =>
    if q < firstSymIndex then q
    else firstSymIndex +
      (hashed.countP (bucketOf numberOfBuckets · < bucketOf numberOfBuckets s) +
        (hashed.take (q - firstSymIndex)).countP
          (bucketOf numberOfBuckets · = bucketOf numberOfBuckets s))

/-- The bits that a relocation has for the new place of its symbol name an equal symbol. -/
def Addressable (d : LinkedSymbols) (firstSymIndex numberOfBuckets : Nat) (r : Relocation) : Prop :=
  ∃ q, d.place firstSymIndex numberOfBuckets q =
      d.place firstSymIndex numberOfBuckets r.symbolNumber % 2 ^ r.symbolBits ∧
    d.entry q = d.entry r.symbolNumber

/-- There is a bucket if two symbols are hashed, and, if one is, the relocations that may name it
are not of the class without `getSymbol` and can name its new place. -/
structure Sortable (d : LinkedSymbols) (firstSymIndex numberOfBuckets : Nat) : Prop where
  buckets : numberOfBuckets = 0 → d.symbols.length ≤ firstSymIndex + 1
  relocations : firstSymIndex < d.symbols.length → ∀ t ∈ d.relocationTables,
    t.link = d.sectionIndex → ∀ r ∈ t.relocations,
      r.isRel64 = false ∧ d.Addressable firstSymIndex numberOfBuckets r

variable {d d' : LinkedSymbols} {firstSymIndex numberOfBuckets : Nat}

/-- Where the symbols came from, in their new order. -/
def origins (d : LinkedSymbols) (firstSymIndex numberOfBuckets : Nat) : List Nat :=
  (d.dynamic.sortedSlots firstSymIndex numberOfBuckets).map SymbolSlot.rep

theorem origins_perm (d : LinkedSymbols) (firstSymIndex numberOfBuckets : Nat) :
    (d.origins firstSymIndex numberOfBuckets).Perm (List.range d.symbols.length) := by
  have hperm := (d.dynamic.sortedSlots_perm firstSymIndex numberOfBuckets).map SymbolSlot.rep
  rwa [d.dynamic.slots_rep] at hperm

theorem mem_origins {q : Nat} :
    q ∈ d.origins firstSymIndex numberOfBuckets ↔ q < d.symbols.length := by
  rw [(d.origins_perm firstSymIndex numberOfBuckets).mem_iff, List.mem_range]

theorem origins_nodup (d : LinkedSymbols) (firstSymIndex numberOfBuckets : Nat) :
    (d.origins firstSymIndex numberOfBuckets).Nodup :=
  (d.origins_perm firstSymIndex numberOfBuckets).nodup_iff.mpr List.nodup_range

theorem getElem?_slots {q : Nat} {s : Symbol} (h : d.symbols[q]? = some s) :
    ∃ slot, d.dynamic.slots[q]? = some slot ∧ slot.symbol = s ∧ slot.rep = q := by
  have hslot : d.dynamic.slots[q]?.map SymbolSlot.symbol = some s := by
    rw [← List.getElem?_map, d.dynamic.slots_symbol]
    exact h
  obtain ⟨slot, hat, hsymbol⟩ := Option.map_eq_some_iff.mp hslot
  refine ⟨slot, hat, hsymbol, ?_⟩
  have hrep : d.dynamic.slots[q]?.map SymbolSlot.rep = some q := by
    rw [← List.getElem?_map, d.dynamic.slots_rep]
    exact List.getElem?_range (List.getElem?_eq_some_iff.mp h).1
  rw [hat] at hrep
  exact Option.some.inj hrep

/-- **A symbol stands at its place.** -/
theorem origins_place {q : Nat} (h : q < d.symbols.length) :
    (d.origins firstSymIndex numberOfBuckets)[d.place firstSymIndex numberOfBuckets q]? =
      some q := by
  have hs : d.symbols[q]? = some d.symbols[q] := List.getElem?_eq_getElem h
  obtain ⟨slot, hslot, hsymbol, hrep⟩ := getElem?_slots hs
  have hlen : d.dynamic.slots.length = d.symbols.length := d.dynamic.slots_length
  rw [origins, List.getElem?_map, DynamicSymbols.sortedSlots, place, hs]
  dsimp only
  by_cases hfirst : q < firstSymIndex
  · rw [if_pos hfirst, List.getElem?_append_left (by rw [List.length_take]; omega),
      List.getElem?_take_of_lt hfirst, hslot, Option.map_some, hrep]
  · have htake : (d.dynamic.slots.take firstSymIndex).length = firstSymIndex := by
      rw [List.length_take]
      omega
    have hdrop : (d.dynamic.slots.drop firstSymIndex)[q - firstSymIndex]? = some slot := by
      rw [List.getElem?_drop, Nat.add_sub_cancel' (by omega), hslot]
    have hsymbols : (d.dynamic.slots.drop firstSymIndex).map SymbolSlot.symbol =
        d.symbols.drop firstSymIndex := by
      rw [List.map_drop, d.dynamic.slots_symbol]
      rfl
    have hat := @bubbleSort_getElem? _
      (gnuBucket numberOfBuckets ∘ Symbol.getSymbolName ∘ SymbolSlot.symbol) _ _ _ hdrop
    rw [if_neg hfirst, ← hsymbols, ← List.map_take, List.countP_map, List.countP_map,
      List.getElem?_append_right (by omega), htake, Nat.add_sub_cancel_left, ← hsymbol]
    exact (congrArg (Option.map SymbolSlot.rep) hat).trans (by rw [Option.map_some, hrep])

/-- Every number is the place of one. -/
theorem exists_place (d : LinkedSymbols) (firstSymIndex numberOfBuckets p : Nat) :
    ∃ q, d.place firstSymIndex numberOfBuckets q = p := by
  by_cases hp : p < d.symbols.length
  · have hlen : (d.origins firstSymIndex numberOfBuckets).length = d.symbols.length := by
      rw [(d.origins_perm firstSymIndex numberOfBuckets).length_eq, List.length_range]
    obtain ⟨q, hq⟩ : ∃ q, (d.origins firstSymIndex numberOfBuckets)[p]? = some q :=
      ⟨_, List.getElem?_eq_getElem (by omega)⟩
    have hmem := mem_origins.mp (List.mem_of_getElem? hq)
    exact ⟨q, ((List.getElem?_inj (by omega) (d.origins_nodup firstSymIndex numberOfBuckets)).mp
      (hq.trans (origins_place hmem).symm)).symm⟩
  · exact ⟨p, by rw [place, List.getElem?_eq_none (by omega)]⟩

/-- The search of the loop comes to the place. -/
theorem renumber_origins (d : LinkedSymbols) (firstSymIndex numberOfBuckets q : Nat) :
    renumber ((d.origins firstSymIndex numberOfBuckets).drop firstSymIndex) firstSymIndex q =
      d.place firstSymIndex numberOfBuckets q := by
  by_cases hq : q < d.symbols.length
  · have hat := d.dynamic.sortedSlots_renumber firstSymIndex numberOfBuckets hq
    have hlt := (List.getElem?_eq_some_iff.mp hat).1
    exact (List.getElem?_inj hlt (d.origins_nodup firstSymIndex numberOfBuckets)).mp
      (hat.trans (origins_place hq).symm)
  · rw [place, List.getElem?_eq_none (by omega)]
    exact renumber_of_notMem fun hmem => hq (mem_origins.mp (List.mem_of_mem_drop hmem))

/-! ## The loops -/

/-- The rounds over one relocation. -/
def Renumbered (xs : List (Nat × Nat)) (r r' : Relocation) : Prop :=
  ∃ done, roundsOf renumberRelocation xs (r, false) = some (r', done)

theorem renumbered_nil {r r' : Relocation} : Renumbered [] r r' ↔ r' = r := by
  constructor
  · rintro ⟨done, h⟩
    exact (congrArg Prod.fst (Option.some.inj h)).symm
  · rintro rfl
    exact ⟨false, rfl⟩

/-- A relocation that was renumbered is left alone. -/
theorem rounds_done {r : Relocation} (h : r.isRel64 = false) (xs : List (Nat × Nat)) :
    roundsOf renumberRelocation xs (r, true) = some (r, true) := by
  obtain ⟨sym, hsym, -⟩ := Relocation.getSymbol_eq h
  induction xs with
  | nil => rfl
  | cons x xs ih =>
    rw [roundsOf, List.foldlM_cons, renumberRelocation, hsym]
    simpa [roundsOf] using ih

/-- The class without `getSymbol` does not get through a round. -/
theorem not_renumbered_of_isRel64 {r r' : Relocation} (h : r.isRel64 = true) {xs : List (Nat × Nat)}
    (hne : xs ≠ []) : ¬Renumbered xs r r' := by
  rintro ⟨done, hrounds⟩
  cases xs with
  | nil => exact hne rfl
  | cons x xs =>
    rw [roundsOf, List.foldlM_cons, renumberRelocation, Relocation.getSymbol_of_isRel64 h] at hrounds
    cases hrounds

/-- **A relocation is renumbered with the first position of its symbol**, as far as it has
bits. -/
theorem renumbered_of_not_isRel64 {r : Relocation} (h : r.isRel64 = false) (reps : List Nat)
    (i : Nat) :
    ∃ r', Renumbered (reps.zipIdx i) r r' ∧ r'.rest = r.rest ∧
      r'.symbolNumber = renumber reps i r.symbolNumber % 2 ^ r.symbolBits := by
  obtain ⟨sym, hsym, hnumber⟩ := Relocation.getSymbol_eq h
  induction reps generalizing i with
  | nil =>
    refine ⟨r, renumbered_nil.mpr rfl, rfl, ?_⟩
    rw [renumber, Nat.mod_eq_of_lt r.symbolNumber_lt]
  | cons rep reps ih =>
    rw [List.zipIdx_cons, renumber]
    by_cases heq : r.symbolNumber = rep
    · obtain ⟨r', hset, hnew, hrest, hclass⟩ := Relocation.setSymbolInfo_eq h (BitVec.ofNat 32 i)
      refine ⟨r', ⟨true, ?_⟩, hrest, ?_⟩
      · rw [roundsOf, List.foldlM_cons, renumberRelocation, hsym, Option.bind_some,
          if_pos ⟨hnumber.trans heq, rfl⟩, hset]
        exact rounds_done hclass _
      · rw [if_pos heq, hnew, BitVec.toNat_ofNat]
        exact Nat.mod_mod_of_dvd i (Nat.pow_dvd_pow 2 r.symbolBits_le)
    · obtain ⟨r', ⟨done, hrounds⟩, hrest, hnew⟩ := ih (i + 1)
      refine ⟨r', ⟨done, ?_⟩, hrest, ?_⟩
      · rw [roundsOf, List.foldlM_cons, renumberRelocation, hsym, Option.bind_some,
          if_neg fun hsame => heq (hnumber.symm.trans hsame.1)]
        exact hrounds
      · rw [if_neg heq, hnew]

theorem roundsOf_renumberTable {sectionIndex link : Nat} (xs : List (Nat × Nat))
    (relocations : List (Relocation × Bool)) :
    roundsOf (renumberTable sectionIndex) xs (link, relocations) =
      if link = sectionIndex then
        (relocations.mapM (roundsOf renumberRelocation xs)).map (link, ·)
      else some (link, relocations) := by
  rw [← foldlM_mapM]
  induction xs generalizing relocations with
  | nil => split <;> rfl
  | cons x xs ih =>
    rw [roundsOf, List.foldlM_cons, renumberTable, List.foldlM_cons]
    by_cases hlink : link = sectionIndex
    · rw [if_pos hlink, if_pos hlink]
      cases hround : relocations.mapM (renumberRelocation x) with
      | none => rfl
      | some next =>
        have ih := ih next
        rw [if_pos hlink] at ih
        exact ih
    · rw [if_neg hlink, if_neg hlink]
      have ih := ih relocations
      rw [if_neg hlink] at ih
      exact ih

/-- The rounds over one table. -/
def TableRenumbered (sectionIndex : Nat) (xs : List (Nat × Nat)) (t t' : PackedTable) : Prop :=
  t'.link = t.link ∧
    if t.link = sectionIndex then List.Forall₂ (Renumbered xs) t.relocations t'.relocations
    else t'.relocations = t.relocations

theorem tableRenumbered_of_rounds {sectionIndex : Nat} {xs : List (Nat × Nat)} {t : PackedTable}
    {u : Nat × List (Relocation × Bool)}
    (h : roundsOf (renumberTable sectionIndex) xs (t.link, t.relocations.map (·, false)) = some u) :
    TableRenumbered sectionIndex xs t ⟨u.1, u.2.map Prod.fst⟩ := by
  rw [roundsOf_renumberTable] at h
  unfold TableRenumbered
  split at h
  next hlink =>
    obtain ⟨relocations, hmap, rfl⟩ := Option.map_eq_some_iff.mp h
    rw [if_pos hlink]
    refine ⟨rfl, List.forall₂_map_right_iff.mpr ?_⟩
    refine (List.forall₂_map_left_iff.mp (mapM_eq_some_iff.mp hmap)).imp ?_
    exact fun r p hp => ⟨p.2, hp⟩
  next hlink =>
    obtain rfl := Option.some.inj h
    rw [if_neg hlink]
    exact ⟨rfl, by simp [Function.comp_def]⟩

/-- What a sort that succeeds has done. -/
theorem sortForGnuHash_some (h : d.sortForGnuHash firstSymIndex numberOfBuckets = some d') :
    ¬(numberOfBuckets = 0 ∧ firstSymIndex + 1 < d.symbols.length) ∧
      d'.symbols =
        (d.dynamic.sortedSlots firstSymIndex numberOfBuckets).map SymbolSlot.symbol ∧
      d'.versym =
        (d.dynamic.sortedSlots firstSymIndex numberOfBuckets).map SymbolSlot.version ∧
      List.Forall₂ (TableRenumbered d.sectionIndex
          (((d.origins firstSymIndex numberOfBuckets).drop firstSymIndex).zipIdx firstSymIndex))
        d.relocationTables d'.relocationTables := by
  rw [sortForGnuHash] at h
  split at h
  · cases h
  next hdiv =>
    obtain ⟨tables, htables, rfl⟩ := Option.map_eq_some_iff.mp h
    have htables := (foldlM_mapM (renumberTable d.sectionIndex) _ d.unmodified).symm.trans htables
    refine ⟨hdiv, rfl, rfl, List.forall₂_map_right_iff.mpr ?_⟩
    refine (List.forall₂_map_left_iff.mp (mapM_eq_some_iff.mp htables)).imp ?_
    exact fun t u => tableRenumbered_of_rounds

/-- A sort without a division by zero whose relocations all get through the rounds. -/
theorem exists_sortForGnuHash
    (hdiv : ¬(numberOfBuckets = 0 ∧ firstSymIndex + 1 < d.symbols.length))
    (hrounds : ∀ t ∈ d.relocationTables, t.link = d.sectionIndex → ∀ r ∈ t.relocations,
      ∃ r', Renumbered (((d.origins firstSymIndex numberOfBuckets).drop firstSymIndex).zipIdx
        firstSymIndex) r r') :
    ∃ d', d.sortForGnuHash firstSymIndex numberOfBuckets = some d' := by
  obtain ⟨tables, htables⟩ : ∃ tables, d.unmodified.mapM (roundsOf (renumberTable d.sectionIndex)
      (((d.origins firstSymIndex numberOfBuckets).drop firstSymIndex).zipIdx firstSymIndex)) =
      some tables := by
    refine exists_mapM fun u hu => ?_
    obtain ⟨t, ht, rfl⟩ := List.mem_map.mp hu
    rw [roundsOf_renumberTable]
    split
    next hlink =>
      obtain ⟨relocations, hmap⟩ := exists_mapM (f := roundsOf renumberRelocation
          (((d.origins firstSymIndex numberOfBuckets).drop firstSymIndex).zipIdx firstSymIndex))
        (l := t.relocations.map (·, false)) fun p hp => by
          obtain ⟨r, hr, rfl⟩ := List.mem_map.mp hp
          obtain ⟨r', done, hround⟩ := hrounds t ht hlink r hr
          exact ⟨_, hround⟩
      exact ⟨_, Option.map_eq_some_iff.mpr ⟨relocations, hmap, rfl⟩⟩
    · exact ⟨_, rfl⟩
  rw [sortForGnuHash, if_neg hdiv]
  exact ⟨_, Option.map_eq_some_iff.mpr ⟨tables, (foldlM_mapM _ _ _).trans htables, rfl⟩⟩

/-! ## What the sort keeps -/

section Sorted

variable (hsymbols : d'.symbols =
    (d.dynamic.sortedSlots firstSymIndex numberOfBuckets).map SymbolSlot.symbol)
  (hversym : d'.versym =
    (d.dynamic.sortedSlots firstSymIndex numberOfBuckets).map SymbolSlot.version)
include hsymbols hversym

/-- At the place of a symbol is this symbol, with its version. -/
theorem entry_place (q : Nat) :
    d'.entry (d.place firstSymIndex numberOfBuckets q) = d.entry q := by
  by_cases hq : q < d.symbols.length
  · have hat : (d.origins firstSymIndex numberOfBuckets)[d.place firstSymIndex numberOfBuckets q]? =
        some q := origins_place hq
    rw [origins, List.getElem?_map] at hat
    obtain ⟨slot, hslot, rfl⟩ := Option.map_eq_some_iff.mp hat
    obtain ⟨hsymbol, hversion⟩ := DynamicSymbols.mem_sortedSlots (List.mem_of_getElem? hslot)
    rw [entry, hsymbols, hversym, List.getElem?_map, List.getElem?_map, hslot, entry]
    exact (Prod.ext hsymbol hversion).symm
  · have hlen : (d.dynamic.sortedSlots firstSymIndex numberOfBuckets).length = d.symbols.length := by
      rw [(d.dynamic.sortedSlots_perm _ _).length_eq, d.dynamic.slots_length]
      rfl
    have hver := d.versym_length
    rw [place, List.getElem?_eq_none (by omega)]
    simp only [entry]
    rw [hsymbols, hversym, List.getElem?_eq_none (by rw [List.length_map]; omega),
      List.getElem?_eq_none (by rw [List.length_map]; omega), List.getElem?_eq_none (by omega),
      List.getElem?_eq_none (by omega)]

theorem zip_perm : (d'.symbols.zip d'.versym).Perm (d.symbols.zip d.versym) := by
  have hslots : ∀ slots : List SymbolSlot,
      (slots.map SymbolSlot.symbol).zip (slots.map SymbolSlot.version) =
        slots.map fun slot => (slot.symbol, slot.version) := fun slots => by
    rw [List.zip_map']
  have hzip : d.dynamic.slots.map (fun slot => (slot.symbol, slot.version)) =
      d.symbols.zip d.versym := by
    rw [DynamicSymbols.slots, List.map_map]
    exact List.zipIdx_map_fst ..
  rw [hsymbols, hversym, hslots, ← hzip]
  exact (d.dynamic.sortedSlots_perm firstSymIndex numberOfBuckets).map _

/-- A relocation that is not of the class without `getSymbol` keeps its symbol exactly if it can
be addressed. -/
theorem sameReference_iff {r r' : Relocation} (hclass : r.isRel64 = false)
    (h : Renumbered (((d.origins firstSymIndex numberOfBuckets).drop firstSymIndex).zipIdx
      firstSymIndex) r r') :
    d.SameReference d' r r' ↔ d.Addressable firstSymIndex numberOfBuckets r := by
  obtain ⟨r'', ⟨done, hrounds⟩, hrest, hnumber⟩ := renumbered_of_not_isRel64 hclass
    ((d.origins firstSymIndex numberOfBuckets).drop firstSymIndex) firstSymIndex
  obtain ⟨done', h⟩ := h
  obtain rfl : r'' = r' := congrArg Prod.fst (Option.some.inj (hrounds.symm.trans h))
  rw [renumber_origins] at hnumber
  constructor
  · intro hsame
    obtain ⟨q, hq⟩ := d.exists_place firstSymIndex numberOfBuckets r''.symbolNumber
    refine ⟨q, hq.trans hnumber, ?_⟩
    rw [← entry_place hsymbols hversym q, hq, hsame.entry]
  · rintro ⟨q, hq, hentry⟩
    refine ⟨?_, hrest⟩
    rw [hnumber, ← hq, entry_place hsymbols hversym, hentry]

end Sorted

theorem place_of_lt {i : Nat} (h : i < firstSymIndex) :
    d.place firstSymIndex numberOfBuckets i = i := by
  rw [place]
  split
  · rfl
  · exact if_pos h

/-- The hashed symbols are sorted by their buckets. -/
theorem pairwise_drop (d : LinkedSymbols) (firstSymIndex numberOfBuckets : Nat) :
    (((d.dynamic.sortedSlots firstSymIndex numberOfBuckets).map SymbolSlot.symbol).drop
      firstSymIndex).Pairwise fun s t =>
        gnuBucket numberOfBuckets s.getSymbolName ≤ gnuBucket numberOfBuckets t.getSymbolName := by
  have hsort := d.dynamic.sortForGnuHash_symbols firstSymIndex numberOfBuckets
  change (d.dynamic.sortedSlots firstSymIndex numberOfBuckets).map SymbolSlot.symbol = _ at hsort
  have hpairwise := bubbleSort_pairwise (gnuBucket numberOfBuckets ∘ Symbol.getSymbolName)
    (d.symbols.drop firstSymIndex)
  rw [hsort, List.drop_append]
  have htake : (d.dynamic.symbols.take firstSymIndex).drop firstSymIndex = [] :=
    List.drop_eq_nil_of_le (List.length_take_le ..)
  rw [htake, List.nil_append]
  exact hpairwise.sublist (List.drop_sublist ..)

theorem drop_origins_eq_nil (h : d.symbols.length ≤ firstSymIndex) :
    (d.origins firstSymIndex numberOfBuckets).drop firstSymIndex = [] := by
  refine List.drop_eq_nil_of_le ?_
  rw [(d.origins_perm firstSymIndex numberOfBuckets).length_eq, List.length_range]
  exact h

theorem zipIdx_origins_ne_nil (h : firstSymIndex < d.symbols.length) :
    ((d.origins firstSymIndex numberOfBuckets).drop firstSymIndex).zipIdx firstSymIndex ≠ [] := by
  have hlen : ((d.origins firstSymIndex numberOfBuckets).drop firstSymIndex).length =
      d.symbols.length - firstSymIndex := by
    rw [List.length_drop, (d.origins_perm firstSymIndex numberOfBuckets).length_eq,
      List.length_range]
  rw [Ne, List.zipIdx_eq_nil_iff, ← List.length_eq_zero_iff]
  omega

/-- What two passes over a list find holds of its members. -/
theorem forall_of_forall₂ {α β : Type} {R S : α → β → Prop} {p : α → Prop} {l : List α} {l' : List β}
    (h : ∀ a b, R a b → S a b → p a) (hR : List.Forall₂ R l l') (hS : List.Forall₂ S l l') :
    ∀ a ∈ l, p a :=
  ((List.forall₂_and_left _ _).mp (hR.mp (fun a b hr hs => ⟨h a b hr hs, hs⟩) hS)).1

/-- **The sort keeps all references if and only if the symbols are `Sortable`.** -/
theorem keepsReferences_iff (d : LinkedSymbols) (firstSymIndex numberOfBuckets : Nat) :
    d.KeepsReferences firstSymIndex numberOfBuckets ↔
      d.Sortable firstSymIndex numberOfBuckets := by
  constructor
  · rintro ⟨d', h, hsorted⟩
    obtain ⟨hdiv, hsymbols, hversym, htables⟩ := sortForGnuHash_some h
    refine ⟨fun hzero => by omega, fun hfirst => ?_⟩
    refine forall_of_forall₂ (fun t t' hround href hlink => ?_) htables hsorted.references
    obtain ⟨-, hround⟩ := hround
    obtain ⟨-, href⟩ := href
    rw [if_pos hlink] at hround href
    refine forall_of_forall₂ (fun r r' hr hsame => ?_) hround href
    have hclass : r.isRel64 = false := by
      by_contra hrel
      exact not_renumbered_of_isRel64 (Bool.not_eq_false _ ▸ hrel) (zipIdx_origins_ne_nil hfirst) hr
    exact ⟨hclass, (sameReference_iff hsymbols hversym hclass hr).mp hsame⟩
  · intro hsortable
    have hrounds : ∀ t ∈ d.relocationTables, t.link = d.sectionIndex → ∀ r ∈ t.relocations,
        ∃ r', Renumbered (((d.origins firstSymIndex numberOfBuckets).drop firstSymIndex).zipIdx
          firstSymIndex) r r' := by
      intro t ht hlink r hr
      by_cases hfirst : firstSymIndex < d.symbols.length
      · obtain ⟨r', hr', -⟩ := renumbered_of_not_isRel64
          (hsortable.relocations hfirst t ht hlink r hr).1 _ _
        exact ⟨r', hr'⟩
      · rw [drop_origins_eq_nil (by omega)]
        exact ⟨r, renumbered_nil.mpr rfl⟩
    have hdiv : ¬(numberOfBuckets = 0 ∧ firstSymIndex + 1 < d.symbols.length) := fun hdiv => by
      have := hsortable.buckets hdiv.1
      omega
    obtain ⟨d', h⟩ := exists_sortForGnuHash hdiv hrounds
    obtain ⟨-, hsymbols, hversym, htables⟩ := sortForGnuHash_some h
    refine ⟨d', h, zip_perm hsymbols hversym, fun i hi => ?_, ?_, ?_⟩
    · rw [← entry_place hsymbols hversym i, place_of_lt hi]
    · rw [hsymbols]
      exact d.pairwise_drop firstSymIndex numberOfBuckets
    · refine ((List.forall₂_and_left _ _).mpr ⟨fun t ht => ht, htables⟩).imp fun t t' ⟨ht, hlink, hround⟩ =>
        ⟨hlink, ?_⟩
      split
      next heq =>
        rw [if_pos heq] at hround
        refine ((List.forall₂_and_left _ _).mpr ⟨fun r hr => hr, hround⟩).imp fun r r' ⟨hr, hrounds⟩ => ?_
        by_cases hfirst : firstSymIndex < d.symbols.length
        · obtain ⟨hclass, haddr⟩ := hsortable.relocations hfirst t ht heq r hr
          exact (sameReference_iff hsymbols hversym hclass hrounds).mpr haddr
        · -- nothing is hashed, and nothing moves
          rw [drop_origins_eq_nil (by omega), List.zipIdx_nil, renumbered_nil] at hrounds
          subst hrounds
          refine ⟨?_, rfl⟩
          rw [← entry_place hsymbols hversym r'.symbolNumber, place]
          split
          · rfl
          next s hs =>
            rw [if_pos (by have := (List.getElem?_eq_some_iff.mp hs).1; omega)]
      next hne => rwa [if_neg hne] at hround

theorem zero_notMem_letter : (0 : BitVec 8) ∉ [97] := by decide

theorem length_rel64Versym : ([0, 1] : List (BitVec 16)).length = 2 := rfl

/-- `STN_UNDEF` and `a`, to which a relocation of type 6 without an addend refers in a 64-bit
file. -/
def rel64Symbols : LinkedSymbols where
  sectionIndex := 3
  symbols := [⟨none, 0, 0, 0, 0, 0⟩, ⟨some ⟨[97], zero_notMem_letter⟩, 0, 0, 0, 0, 0⟩]
  versym := [0, 1]
  relocationTables := [⟨3, [.rel64 0x2000 0x100000006]⟩]
  versym_length := length_rel64Versym
  length_lt := by decide

/-- The relocation's symbol is asked for, which is not to be reached. -/
theorem not_keepsReferences_of_rel64 :
    ¬∀ (d : LinkedSymbols) (firstSymIndex numberOfBuckets : Nat),
      d.KeepsReferences firstSymIndex numberOfBuckets := by
  intro h
  obtain ⟨d', hsort, -⟩ := h rel64Symbols 1 1
  have hnone : (rel64Symbols.sortForGnuHash 1 1).isNone = true := by decide
  rw [hsort] at hnone
  cases hnone

end LinkedSymbols

end Pebil

import Pebil.Elf.SysvHashTable
import Mathlib.Data.List.Nodup

/-!
# Building the SYSV hash table in place (src/HashTable.C:377–456)

`SysvHashTable::buildTable` needs no list per bucket. It first puts the bucket of every
symbol into `entries`, then looks in there for the last symbol of each bucket, and last
overwrites the entries, from the end, with the symbol before in the same bucket. Going down,
it reads only entries that still hold a bucket (`linkEntries_getElem?`), and so it comes to
the table of `SysvHashTable.buildTable` (`buildInPlace_eq`).

In that table the chain of a bucket is the descending list of its symbols
(`BuiltFor.chainFrom_eq`).
-/

namespace Pebil

/-- A dynamic symbol table as the ELF format has it: symbol 0 is `STN_UNDEF`, which has no
name. -/
structure DynamicSymbolTable extends DynamicSymbols where
  undef : ∃ s, symbols[0]? = some s ∧ s.name = none

namespace SysvHashTable

/-! ## The loops of `buildTable` -/

/-- The `while` over `entryidx` in the second loop, from `n - 1` down; the number of entries
stands for "not found". -/
def lastEntry (entries : List Nat) (i : Nat) : Nat → Nat
  | 0 => entries.length
  | n + 1 => if entries[n]? = some i then n else lastEntry entries i n

/-- One round of the second loop. -/
def bucketOf (entries : List Nat) (i : Nat) : Nat :=
  let bucket := lastEntry entries i entries.length
  if bucket = entries.length then 0 else bucket

/-- The third loop, over `entries` that are half buckets and half links. -/
def linkEntries (entries : List Nat) : Nat → List Nat
  | 0 => entries
  | i + 1 =>
    match entries[i]? with
    | none => linkEntries entries i
    | some bucket => linkEntries (entries.set i (lastBelow (entries[·]?) bucket i)) i

/-- `SysvHashTable::buildTable` with its array of entries. Section sizes are 32-bit numbers of
bytes, so that the number of symbols is far from where `int32_t i` would overflow. -/
def buildInPlace (d : DynamicSymbols) (numEntries numBuckets : Nat) : Option SysvHashTable :=
  if numBuckets = 0 then none
  else if d.symbols.length ≠ numEntries then none
  else
    let entries := d.names.map (sysvBucket numBuckets)
    let t : SysvHashTable :=
      { buckets := (List.range numBuckets).map (bucketOf entries)
        entries := linkEntries entries numEntries }
    if t.verify d then some t else none

/-! ## The loops and the closed form -/

variable {entries : List Nat} {i k n : Nat}

/-- The sentinel is never a symbol. -/
theorem lastEntry_eq (entries : List Nat) (i : Nat) (hn : n ≤ entries.length) :
    (if lastEntry entries i n = entries.length then 0 else lastEntry entries i n) =
      lastBelow (entries[·]?) i n := by
  induction n with
  | zero => rw [lastEntry, if_pos rfl, lastBelow]
  | succ n ih =>
    rw [lastEntry, lastBelow]
    by_cases h : entries[n]? = some i
    · rw [if_pos h, if_pos h, if_neg (by omega)]
    · rw [if_neg h, if_neg h]
      exact ih (by omega)

/-- Writing at or above the bound is not seen below it. -/
theorem lastBelow_set {m : Nat} (hn : n ≤ m) (entries : List Nat) (k x : Nat) :
    lastBelow ((entries.set m x)[·]?) k n = lastBelow (entries[·]?) k n := by
  induction n with
  | zero => rfl
  | succ n ih => rw [lastBelow, lastBelow, List.getElem?_set_ne (by omega), ih (by omega)]

theorem linkEntries_getElem? (entries : List Nat) (n i : Nat) :
    (linkEntries entries n)[i]? =
      if i < n then entries[i]?.map fun bucket => lastBelow (entries[·]?) bucket i
      else entries[i]? := by
  induction n generalizing entries with
  | zero => simp [linkEntries]
  | succ n ih =>
    rw [linkEntries]
    cases hn : entries[n]? with
    | none =>
      rw [ih]
      by_cases hi : i = n
      · subst hi
        simp [hn]
      · simp only [show i < n + 1 ↔ i < n by omega]
    | some bucket =>
      simp only [ih]
      have hlt : n < entries.length := (List.getElem?_eq_some_iff.mp hn).1
      rcases Nat.lt_trichotomy i n with hi | rfl | hi
      · -- below `n` nothing has been overwritten yet
        rw [if_pos hi, if_pos (by omega), List.getElem?_set_ne (by omega)]
        simp only [lastBelow_set hi.le]
      · rw [if_neg (by omega), if_pos (by omega), List.getElem?_set_self hlt, hn, Option.map_some]
      · rw [if_neg (by omega), if_neg (by omega), List.getElem?_set_ne (by omega)]

/-- **The loops build the table of the closed form.** -/
theorem buildInPlace_eq (d : DynamicSymbols) (numEntries numBuckets : Nat) :
    buildInPlace d numEntries numBuckets = buildTable d numEntries numBuckets := by
  rw [buildInPlace, buildTable]
  split
  · rfl
  split
  · rfl
  next hlen =>
    have hlen : d.symbols.length = numEntries := not_not.mp hlen
    have hat : ((d.names.map (sysvBucket numBuckets))[·]?) = sysvBucketAt d.names numBuckets := by
      funext i
      rw [List.getElem?_map, sysvBucketAt]
    have hbuckets : (List.range numBuckets).map (bucketOf (d.names.map (sysvBucket numBuckets))) =
        (List.range numBuckets).map fun k =>
          lastBelow (sysvBucketAt d.names numBuckets) k numEntries := by
      refine List.map_congr_left fun k _ => ?_
      rw [bucketOf, lastEntry_eq _ _ (Nat.le_refl _), hat, List.length_map, d.names_length, hlen]
    have hentries : linkEntries (d.names.map (sysvBucket numBuckets)) numEntries =
        d.names.zipIdx.map fun p =>
          lastBelow (sysvBucketAt d.names numBuckets) (sysvBucket numBuckets p.1) p.2 := by
      refine List.ext_getElem? fun i => ?_
      rw [linkEntries_getElem?, hat, List.getElem?_map, List.getElem?_map, List.getElem?_zipIdx]
      split
      · cases d.names[i]? with
        | none => rfl
        | some name => simp
      · rw [List.getElem?_eq_none (by rw [d.names_length]; omega)]
        rfl
    simp only [hbuckets, hentries]

/-! ## Searches -/

/-- The `while` of `findSymbol`, which ends at a symbol of that name or reports that there is
none. Fuel that runs out counts as a search that goes nowhere. -/
def searchWalk (entries : List Nat) (names : List CString) (name : CString) :
    Nat → Nat → HashLookup
  | 0, _ => .outside
  | fuel + 1, x =>
    match names[x]?, entries[x]? with
    | some n, some y =>
      if n = name then .found x
      else if x = y then .absent
      else searchWalk entries names name fuel y
    | _, _ => .outside

/-- `SysvHashTable::findSymbol`, with how it fails. -/
def search (t : SysvHashTable) (names : List CString) (name : CString) : HashLookup :=
  match t.buckets[sysvBucket t.buckets.length name]? with
  | none => .outside
  | some x => searchWalk t.entries names name (names.length + 1) x

variable {t : SysvHashTable} {names : List CString} {name : CString}

theorem searchWalk_eq_found {fuel x p : Nat} :
    searchWalk entries names name fuel x = .found p ↔
      findWalk entries names name fuel x = some p := by
  induction fuel generalizing x with
  | zero => simp [searchWalk, findWalk]
  | succ fuel ih =>
    rw [searchWalk, findWalk]
    cases names[x]? with
    | none => simp
    | some n =>
      cases entries[x]? with
      | none => simp
      | some y =>
        by_cases hname : n = name
        · simp [hname]
        · by_cases hend : x = y
          · simp [hname, hend]
          · simp only [if_neg hname, if_neg hend]
            exact ih

theorem search_eq_found {p : Nat} :
    t.search names name = .found p ↔ t.findSymbol names name = some p := by
  rw [search, findSymbol]
  cases t.buckets[sysvBucket t.buckets.length name]? with
  | none => simp
  | some x => exact searchWalk_eq_found

/-- A search for a name that nobody has goes down to symbol 0 and stops there. -/
theorem BuiltFor.searchWalk_absent (h : t.BuiltFor names) (habsent : name ∉ names)
    {m fuel : Nat} (hm : m ≤ names.length) (hpos : 0 < names.length) (hfuel : m < fuel) :
    searchWalk t.entries names name fuel
      (lastBelow (sysvBucketAt names t.buckets.length) k m) = .absent := by
  induction m using Nat.strong_induction_on generalizing fuel with
  | _ m ih =>
    have hbelow := lastBelow_le (sysvBucketAt names t.buckets.length) k m
    have hat := lastBelow_bucket (sysvBucketAt names t.buckets.length) (k := k) (n := m)
    generalize lastBelow (sysvBucketAt names t.buckets.length) k m = x at hbelow hat
    obtain ⟨fuel, rfl⟩ : ∃ f, fuel = f + 1 := ⟨fuel - 1, by omega⟩
    have hx : names[x]? = some names[x] := List.getElem?_eq_getElem (by omega)
    have hne : names[x] ≠ name := fun heq => habsent (heq ▸ List.getElem_mem _)
    rw [searchWalk, hx]
    cases x with
    | zero =>
      have hbucket : sysvBucketAt names t.buckets.length 0 =
          some (sysvBucket t.buckets.length names[0]) := by
        rw [sysvBucketAt, hx, Option.map_some]
      rw [h.entry 0 _ hbucket]
      simp only [if_neg hne, lastBelow, if_pos]
    | succ x =>
      rw [h.entry _ _ (hat (by omega))]
      have hdown := lastBelow_le (sysvBucketAt names t.buckets.length) k (x + 1)
      simp only [if_neg hne]
      rw [if_neg (by omega)]
      exact ih (x + 1) (by omega) (by omega) (by omega)

theorem BuiltFor.search_absent (h : t.BuiltFor names) (habsent : name ∉ names)
    (hpos : 0 < names.length) : t.search names name = .absent := by
  rw [search, h.bucket _ (sysvBucket_lt h.buckets_pos _)]
  exact h.searchWalk_absent habsent (Nat.le_refl _) hpos (Nat.lt_succ_self _)

theorem BuiltFor.search_found (h : t.BuiltFor names) (hnodup : names.Nodup) {p : Nat}
    (hname : names[p]? = some name) : t.search names name = .found p := by
  rw [search_eq_found, findSymbol, h.bucket _ (sysvBucket_lt h.buckets_pos _)]
  refine h.findWalk_found hnodup ?_ hname (Nat.le_refl _) (List.getElem?_eq_some_iff.mp hname).1
    (Nat.lt_succ_self _)
  rw [sysvBucketAt, hname, Option.map_some]

/-! ## Chains -/

/-- The symbols from one on, up to `STN_UNDEF`; none if the chain does not end there. -/
def chainFrom (entries : List Nat) : Nat → Nat → Option (List Nat)
  | _, 0 => some []
  | 0, _ + 1 => none
  | fuel + 1, x + 1 =>
    entries[x + 1]?.bind fun y => (chainFrom entries fuel y).map ((x + 1) :: ·)

/-- The chain of a bucket. -/
def chain (t : SysvHashTable) (bucket : Nat) : Option (List Nat) :=
  t.buckets[bucket]?.bind (chainFrom t.entries t.entries.length)

/-- The symbols of a bucket below a bound, the last one first. -/
def members (bucketOf : Nat → Option Nat) (k n : Nat) : List Nat :=
  (List.range n).reverse.filter fun p => p ≠ 0 ∧ bucketOf p = some k

theorem mem_members {bucketOf : Nat → Option Nat} {p : Nat} :
    p ∈ members bucketOf k n ↔ p < n ∧ p ≠ 0 ∧ bucketOf p = some k := by
  simp [members]

theorem members_nodup (bucketOf : Nat → Option Nat) (k n : Nat) :
    (members bucketOf k n).Nodup :=
  (List.nodup_reverse.mpr List.nodup_range).filter _

theorem members_succ (bucketOf : Nat → Option Nat) (k n : Nat) :
    members bucketOf k (n + 1) =
      if n ≠ 0 ∧ bucketOf n = some k then n :: members bucketOf k n else members bucketOf k n := by
  rw [members, List.range_succ, List.reverse_concat, List.filter_cons]
  simp only [decide_eq_true_eq, members]

/-- A chain is the list of its bucket's symbols. -/
theorem BuiltFor.chainFrom_eq (h : t.BuiltFor names) {fuel : Nat} (hfuel : n ≤ fuel) :
    chainFrom t.entries fuel (lastBelow (sysvBucketAt names t.buckets.length) k n) =
      some (members (sysvBucketAt names t.buckets.length) k n) := by
  induction n generalizing fuel with
  | zero => simp [lastBelow, chainFrom, members]
  | succ n ih =>
    rw [lastBelow, members_succ]
    by_cases hat : sysvBucketAt names t.buckets.length n = some k
    · rw [if_pos hat]
      cases n with
      | zero => simp [chainFrom, members]
      | succ n =>
        obtain ⟨fuel, rfl⟩ : ∃ f, fuel = f + 1 := ⟨fuel - 1, by omega⟩
        rw [chainFrom, h.entry _ _ hat, Option.bind_some, ih (by omega), Option.map_some,
          if_pos ⟨by omega, hat⟩]
    · rw [if_neg hat, if_neg fun hp => hat hp.2]
      exact ih (by omega)

theorem BuiltFor.chain_eq (h : t.BuiltFor names) (hlen : t.entries.length = names.length)
    (hk : k < t.buckets.length) :
    t.chain k = some (members (sysvBucketAt names t.buckets.length) k names.length) := by
  rw [chain, h.bucket k hk, Option.bind_some]
  exact h.chainFrom_eq hlen.ge

/-! ## What a build comes to -/

/-- **A built table answers every search, and its chains part the symbols that have a name.** -/
theorem buildInPlace_complete (d : DynamicSymbolTable) (numBuckets : Nat)
    (hnodup : d.names.Nodup) (hpos : 1 ≤ numBuckets) :
    ∃ t, buildInPlace d.toDynamicSymbols d.symbols.length numBuckets = some t ∧
      (∀ i name, d.names[i]? = some name → t.search d.names name = .found i) ∧
      (∀ name, name ∉ d.names → t.search d.names name = .absent) ∧
      (∀ k, k < numBuckets → ∃ chain, t.chain k = some chain ∧ chain.Nodup) ∧
      ∀ (i : Nat) (s : Symbol), d.symbols[i]? = some s → s.name.isSome →
        ∃! k, ∃ chain, t.chain k = some chain ∧ i ∈ chain := by
  rw [buildInPlace_eq]
  obtain ⟨t, ht⟩ := Option.isSome_iff_exists.mp
    (buildTable_isSome hnodup (Nat.one_le_iff_ne_zero.mp hpos))
  obtain ⟨hbuilt, -, hbuckets, hentries, -⟩ := buildTable_some ht
  have hlen : t.entries.length = d.names.length := by rw [hentries, d.names_length]
  obtain ⟨undef, hundef, hnameless⟩ := d.undef
  have hsymbols : 0 < d.names.length := by
    rw [d.names_length]
    exact (List.getElem?_eq_some_iff.mp hundef).1
  refine ⟨t, ht, fun i name hname => hbuilt.search_found hnodup hname,
    fun name habsent => hbuilt.search_absent habsent hsymbols, fun k hk => ?_, ?_⟩
  · exact ⟨_, hbuilt.chain_eq hlen (hbuckets ▸ hk), members_nodup _ _ _⟩
  · intro i s hs hnamed
    have hne : i ≠ 0 := by
      rintro rfl
      obtain rfl : undef = s := Option.some.inj (hundef.symm.trans hs)
      simp [hnameless] at hnamed
    have hname : d.names[i]? = some s.getSymbolName := by
      rw [DynamicSymbols.names, List.getElem?_map, hs, Option.map_some]
    have hat : sysvBucketAt d.names t.buckets.length i =
        some (sysvBucket t.buckets.length s.getSymbolName) := by
      rw [sysvBucketAt, hname, Option.map_some]
    have hlt := sysvBucket_lt hbuilt.buckets_pos s.getSymbolName
    refine ⟨_, ⟨_, hbuilt.chain_eq hlen hlt, mem_members.mpr ⟨?_, hne, hat⟩⟩, ?_⟩
    · exact (List.getElem?_eq_some_iff.mp hname).1
    · rintro k ⟨chain, hchain, hmem⟩
      by_cases hk : k < t.buckets.length
      · rw [hbuilt.chain_eq hlen hk, Option.some.injEq] at hchain
        subst hchain
        exact Option.some.inj ((mem_members.mp hmem).2.2.symm.trans hat)
      · rw [SysvHashTable.chain, List.getElem?_eq_none (by omega)] at hchain
        cases hchain

/-- `STN_UNDEF`, `a` and `b`. -/
def twoNames : DynamicSymbolTable where
  sectionIndex := 0
  symbols :=
    [⟨none, 0, 0, 0, 0, 0⟩, ⟨some ⟨[97], by decide⟩, 0, 0, 0, 0, 0⟩,
      ⟨some ⟨[98], by decide⟩, 0, 0, 0, 0, 0⟩]
  versym := [0, 0, 0]
  relocationTables := []
  versym_length := rfl
  undef := ⟨_, rfl, rfl⟩

/-- Two names in the only bucket. -/
theorem buildInPlace_complete_twoNames :
    ∃ t, buildInPlace twoNames.toDynamicSymbols 3 1 = some t ∧
      t.search twoNames.names ⟨[97], by decide⟩ = .found 1 ∧
      t.search twoNames.names ⟨[99], by decide⟩ = .absent ∧
      ∃! k, ∃ chain, t.chain k = some chain ∧ 1 ∈ chain := by
  obtain ⟨t, ht, hfound, habsent, -, hchain⟩ :=
    buildInPlace_complete twoNames 1 (by decide) (Nat.le_refl 1)
  exact ⟨t, ht, hfound 1 _ rfl, habsent _ (by decide), hchain 1 _ rfl rfl⟩

end SysvHashTable

end Pebil

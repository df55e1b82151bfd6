import Pebil.Elf.SymbolTable

/-!
# The SYSV hash table (src/HashTable.C:352–480)

A bucket holds the last symbol of its residue, and a symbol's entry the symbol before
it in the same bucket, so a chain runs through the indices of a bucket downwards and
ends at symbol 0.

The table is only about positions: it is `BuiltFor` the list of names it was built
for, and `BuiltFor.lookup_iff` says what it finds when it is asked about another list
of the same length, which is what happens when the symbols are reordered under it.
-/

namespace Pebil

/-- The contents of a SYSV hash section; its counts are the lengths of the lists. -/
structure SysvHashTable where
  buckets : List Nat
  entries : List Nat
  deriving DecidableEq, Repr

/-- The bucket a name hashes to. -/
def sysvBucket (numberOfBuckets : Nat) (name : CString) : Nat :=
  name.elfSysvHash.toNat % numberOfBuckets

/-- The bucket of the symbol at an index. -/
def sysvBucketAt (names : List CString) (numberOfBuckets i : Nat) : Option Nat :=
  names[i]?.map (sysvBucket numberOfBuckets)

theorem sysvBucket_lt {numberOfBuckets : Nat} (h : 0 < numberOfBuckets) (name : CString) :
    sysvBucket numberOfBuckets name < numberOfBuckets :=
  Nat.mod_lt _ h

namespace SysvHashTable

/-! ## Lookups -/

/-- The `while` of `findSymbol`; the fuel exceeds the length of a chain that descends. -/
def findWalk (entries : List Nat) (names : List CString) (name : CString) :
    Nat → Nat → Option Nat
  | 0, _ => none
  | fuel + 1, x =>
    match names[x]?, entries[x]? with
    | some n, some y =>
      if n = name then some x
      else if x = y then none
      else findWalk entries names name fuel y
    | _, _ => none

/-- `SysvHashTable::findSymbol`. -/
def findSymbol (t : SysvHashTable) (names : List CString) (name : CString) : Option Nat :=
  match t.buckets[sysvBucket t.buckets.length name]? with
  | none => none
  | some x => findWalk t.entries names name (names.length + 1) x

/-- The dynamic linker's walk along a chain, which ends at `STN_UNDEF`. -/
def chainWalk (entries : List Nat) (names : List CString) (name : CString) :
    Nat → Nat → HashLookup
  | 0, _ => .outside
  | _ + 1, 0 => .absent
  | fuel + 1, x + 1 =>
    match names[x + 1]?, entries[x + 1]? with
    | some n, some y => if n = name then .found (x + 1) else chainWalk entries names name fuel y
    | _, _ => .outside

/-- The ELF rule: bucket, chain. -/
def lookup (t : SysvHashTable) (names : List CString) (name : CString) : HashLookup :=
  match t.buckets[sysvBucket t.buckets.length name]? with
  | none => .outside
  | some x => chainWalk t.entries names name (names.length + 1) x

/-! ## Building the table -/

/-- The descending search for the last index below `n` in bucket `k`; 0 if there is none. -/
def lastBelow (bucketOf : Nat → Option Nat) (k : Nat) : Nat → Nat
  | 0 => 0
  | n + 1 => if bucketOf n = some k then n else lastBelow bucketOf k n

/-- The lookups of `SysvHashTable::verify`: symbols with an `st_name`. -/
def verify (t : SysvHashTable) (d : DynamicSymbols) : Bool :=
  d.symbols.zipIdx.all fun p =>
    p.1.name.isNone || t.findSymbol d.names p.1.getSymbolName = some p.2

/-- `SysvHashTable::buildTable`. -/
def buildTable (d : DynamicSymbols) (numEntries numBuckets : Nat) : Option SysvHashTable :=
  if numBuckets = 0 then none
  else if d.symbols.length ≠ numEntries then none
  else
    let bucketOf := sysvBucketAt d.names numBuckets
    let t : SysvHashTable :=
      { buckets := (List.range numBuckets).map fun k => lastBelow bucketOf k numEntries
        entries := d.names.zipIdx.map fun p =>
          lastBelow bucketOf (sysvBucket numBuckets p.1) p.2 }
    if t.verify d then some t else none

/-! ## What `buildTable` establishes -/

/-- The table was built for these names. -/
structure BuiltFor (t : SysvHashTable) (names : List CString) : Prop where
  buckets_pos : 0 < t.buckets.length
  bucket : ∀ k < t.buckets.length,
    t.buckets[k]? = some (lastBelow (sysvBucketAt names t.buckets.length) k names.length)
  entry : ∀ i k, sysvBucketAt names t.buckets.length i = some k →
    t.entries[i]? = some (lastBelow (sysvBucketAt names t.buckets.length) k i)

/-- What a table that `buildTable` returns is. -/
theorem buildTable_some {d : DynamicSymbols} {numEntries numBuckets : Nat} {t : SysvHashTable}
    (h : buildTable d numEntries numBuckets = some t) :
    t.BuiltFor d.names ∧ t.verify d = true ∧ t.buckets.length = numBuckets ∧
      t.entries.length = d.symbols.length ∧ d.symbols.length = numEntries := by
  rw [buildTable] at h
  split at h
  · cases h
  next hpos =>
    split at h
    · cases h
    next hlen =>
      obtain ⟨hverify, heq⟩ := Option.ite_none_right_eq_some.mp h
      rw [Option.some.injEq] at heq
      subst heq
      have hlen : d.symbols.length = numEntries := not_not.mp hlen
      refine ⟨⟨?_, fun k hk => ?_, fun i k hk => ?_⟩, hverify, ?_, ?_, hlen⟩
      · simp only [List.length_map, List.length_range]
        omega
      · simp only [List.length_map, List.length_range] at hk ⊢
        rw [List.getElem?_map, List.getElem?_range hk, Option.map_some, d.names_length, hlen]
      · simp only [List.length_map, List.length_range] at hk ⊢
        obtain ⟨name, hname, rfl⟩ := Option.map_eq_some_iff.mp hk
        rw [List.getElem?_map, List.getElem?_zipIdx, hname]
        simp
      · simp
      · simp

/-! ## Chains -/

variable {bucketOf : Nat → Option Nat} {k n : Nat}

theorem lastBelow_le (bucketOf : Nat → Option Nat) (k n : Nat) : lastBelow bucketOf k n ≤ n - 1 := by
  induction n with
  | zero => exact Nat.le_refl _
  | succ n ih =>
    rw [lastBelow]
    split
    · omega
    · omega

theorem lastBelow_bucket (bucketOf : Nat → Option Nat) {k n : Nat} (h : lastBelow bucketOf k n ≠ 0) :
    bucketOf (lastBelow bucketOf k n) = some k := by
  induction n with
  | zero => exact absurd rfl h
  | succ n ih =>
    rw [lastBelow] at h ⊢
    split
    next heq => exact heq
    next hne =>
      rw [if_neg hne] at h
      exact ih h

theorem le_lastBelow {p : Nat} (hp : bucketOf p = some k) (hlt : p < n) :
    p ≤ lastBelow bucketOf k n := by
  induction n with
  | zero => omega
  | succ n ih =>
    rw [lastBelow]
    split
    · omega
    next hne =>
      have hpn : p ≠ n := fun heq => hne (heq ▸ hp)
      exact ih (by omega)

variable {t : SysvHashTable} {names names' : List CString} {name : CString}

/-- The chain below `m` leads to the last index of the bucket that has the name, in
whatever names the walk compares with. -/
theorem BuiltFor.chainWalk_found (h : t.BuiltFor names) (hlen : names'.length = names.length)
    {p : Nat} (hp : sysvBucketAt names t.buckets.length p = some k) (hpos : 0 < p)
    (hname : names'[p]? = some name) {m fuel : Nat} (hm : m ≤ names.length) (hpm : p < m)
    (hlast : ∀ q, p < q → q < m → sysvBucketAt names t.buckets.length q = some k →
      names'[q]? ≠ some name) (hfuel : m < fuel) :
    chainWalk t.entries names' name fuel
      (lastBelow (sysvBucketAt names t.buckets.length) k m) = .found p := by
  induction m using Nat.strong_induction_on generalizing fuel with
  | _ m ih =>
    have hle := le_lastBelow hp hpm
    have hbelow := lastBelow_le (sysvBucketAt names t.buckets.length) k m
    have hat := lastBelow_bucket (sysvBucketAt names t.buckets.length) (k := k)
      (n := m) (by omega)
    generalize lastBelow (sysvBucketAt names t.buckets.length) k m = x at hle hbelow hat
    obtain ⟨x, rfl⟩ : ∃ y, x = y + 1 := ⟨x - 1, by omega⟩
    obtain ⟨fuel, rfl⟩ : ∃ f, fuel = f + 1 := ⟨fuel - 1, by omega⟩
    have hx : names'[x + 1]? = some names'[x + 1] := List.getElem?_eq_getElem (by omega)
    rw [chainWalk, hx, h.entry _ _ hat]
    show (if names'[x + 1] = name then HashLookup.found (x + 1) else _) = _
    by_cases heq : x + 1 = p
    · subst heq
      rw [if_pos (Option.some.inj (hx.symm.trans hname))]
    · rw [if_neg fun h' => hlast (x + 1) (by omega) (by omega) hat (by rw [hx, h'])]
      exact ih (x + 1) (by omega) (by omega) (by omega)
        (fun q hpq hq => hlast q hpq (by omega)) (by omega)

/-- What a walk finds lies in the bucket. -/
theorem BuiltFor.chainWalk_bucket (h : t.BuiltFor names) {p m fuel : Nat}
    (hwalk : chainWalk t.entries names' name fuel
      (lastBelow (sysvBucketAt names t.buckets.length) k m) = .found p) :
    sysvBucketAt names t.buckets.length p = some k := by
  induction fuel generalizing m with
  | zero => simp [chainWalk] at hwalk
  | succ fuel ih =>
    have hat := lastBelow_bucket (sysvBucketAt names t.buckets.length) (k := k) (n := m)
    generalize lastBelow (sysvBucketAt names t.buckets.length) k m = x at hwalk hat
    cases x with
    | zero => simp [chainWalk] at hwalk
    | succ x =>
      have hat := hat (by omega)
      rw [chainWalk, h.entry _ _ hat] at hwalk
      cases hx : names'[x + 1]? with
      | none => simp [hx] at hwalk
      | some n =>
        simp only [hx] at hwalk
        split at hwalk
        · obtain rfl : x + 1 = p := by simpa using hwalk
          exact hat
        · exact ih hwalk

/-- **What the table finds among reordered names**: the symbol of a name that no later
symbol has is found exactly when it stands where a symbol of its bucket stood. -/
theorem BuiltFor.lookup_iff (h : t.BuiltFor names) (hlen : names'.length = names.length) {p : Nat}
    (hpos : 0 < p) (hname : names'[p]? = some name)
    (hlast : ∀ q, p < q → names'[q]? ≠ some name) :
    t.lookup names' name = .found p ↔
      sysvBucketAt names t.buckets.length p = some (sysvBucket t.buckets.length name) := by
  have hp : p < names.length := hlen ▸ (List.getElem?_eq_some_iff.mp hname).1
  rw [lookup, h.bucket _ (sysvBucket_lt h.buckets_pos _)]
  constructor
  · exact h.chainWalk_bucket
  · intro hat
    exact h.chainWalk_found hlen hat hpos hname (Nat.le_refl _) hp (fun q hq _ _ => hlast q hq)
      (by omega)

/-! ## What `verify` has checked -/

/-- The symbol that the program's own lookup finds is the last of its name in the
bucket. -/
theorem BuiltFor.findWalk_last (h : t.BuiltFor names) {p m fuel : Nat} (hm : m ≤ names.length)
    (hwalk : findWalk t.entries names name fuel
      (lastBelow (sysvBucketAt names t.buckets.length) k m) = some p) {q : Nat}
    (hpq : p < q) (hq : q < m) (hat : sysvBucketAt names t.buckets.length q = some k) :
    names[q]? ≠ some name := by
  induction fuel generalizing m with
  | zero => simp [findWalk] at hwalk
  | succ fuel ih =>
    have hle := le_lastBelow hat hq
    have hx := lastBelow_bucket (sysvBucketAt names t.buckets.length) (k := k) (n := m)
      (by omega)
    have hbelow := lastBelow_le (sysvBucketAt names t.buckets.length) k m
    generalize lastBelow (sysvBucketAt names t.buckets.length) k m = x at hwalk hx hle hbelow
    have hname : names[x]? = some names[x] := List.getElem?_eq_getElem (by omega)
    rw [findWalk, hname, h.entry _ _ hx] at hwalk
    simp only at hwalk
    split at hwalk
    · -- found at the first step, so `q` is not behind it
      obtain rfl : x = p := by simpa using hwalk
      omega
    next hne =>
      by_cases hqx : q = x
      · subst hqx
        rw [hname]
        simpa using hne
      · split at hwalk
        · cases hwalk
        · exact ih (by omega) hwalk (by omega)

/-- After `verify`, no later symbol has the name of a named symbol. -/
theorem BuiltFor.name_last {d : DynamicSymbols} (h : t.BuiltFor d.names) (hverify : t.verify d = true)
    {p q : Nat} {s : Symbol} (hp : d.symbols[p]? = some s) (hnamed : s.name.isSome) (hpq : p < q) :
    d.names[q]? ≠ some s.getSymbolName := by
  intro hq
  have hmem : (s, p) ∈ d.symbols.zipIdx := List.mk_mem_zipIdx_iff_getElem?.mpr hp
  have hfind := List.all_eq_true.mp hverify _ hmem
  simp only [Bool.or_eq_true, decide_eq_true_eq, Option.isNone_iff_eq_none] at hfind
  have hfind := hfind.resolve_left (by simpa [Option.isSome_iff_ne_none] using hnamed)
  rw [findSymbol, h.bucket _ (sysvBucket_lt h.buckets_pos _)] at hfind
  exact h.findWalk_last (Nat.le_refl _) hfind hpq (List.getElem?_eq_some_iff.mp hq).1
    (by rw [sysvBucketAt, hq, Option.map_some]) hq

/-! ## When `buildTable` succeeds -/

/-- The program's walk reaches a name that no other symbol of the bucket has. -/
theorem BuiltFor.findWalk_found (h : t.BuiltFor names) (hnodup : names.Nodup) {p : Nat}
    (hp : sysvBucketAt names t.buckets.length p = some k) (hname : names[p]? = some name)
    {m fuel : Nat} (hm : m ≤ names.length) (hpm : p < m) (hfuel : m < fuel) :
    findWalk t.entries names name fuel
      (lastBelow (sysvBucketAt names t.buckets.length) k m) = some p := by
  induction m using Nat.strong_induction_on generalizing fuel with
  | _ m ih =>
    have hle := le_lastBelow hp hpm
    have hbelow := lastBelow_le (sysvBucketAt names t.buckets.length) k m
    have hat : sysvBucketAt names t.buckets.length
        (lastBelow (sysvBucketAt names t.buckets.length) k m) = some k := by
      by_cases hzero : lastBelow (sysvBucketAt names t.buckets.length) k m = 0
      · rw [hzero]
        rwa [show p = 0 by omega] at hp
      · exact lastBelow_bucket _ hzero
    generalize lastBelow (sysvBucketAt names t.buckets.length) k m = x at hle hbelow hat
    obtain ⟨fuel, rfl⟩ : ∃ f, fuel = f + 1 := ⟨fuel - 1, by omega⟩
    have hx : names[x]? = some names[x] := List.getElem?_eq_getElem (by omega)
    rw [findWalk, hx, h.entry _ _ hat]
    show (if names[x] = name then some x else _) = _
    by_cases heq : x = p
    · subst heq
      rw [if_pos (Option.some.inj (hx.symm.trans hname))]
    · have hne : names[x] ≠ name := fun h' =>
        heq ((List.getElem?_inj (by omega) hnodup).mp (hx.trans (h' ▸ hname.symm)))
      have hdown := lastBelow_le (sysvBucketAt names t.buckets.length) k x
      rw [if_neg hne, if_neg (by omega)]
      exact ih x (by omega) (by omega) (by omega) (by omega)

/-- With distinct names and a bucket the table can be built. -/
theorem buildTable_isSome {d : DynamicSymbols} {numBuckets : Nat} (hnodup : d.names.Nodup)
    (hpos : numBuckets ≠ 0) : (buildTable d d.symbols.length numBuckets).isSome := by
  rw [buildTable, if_neg hpos, if_neg (not_not.mpr rfl)]
  simp only
  generalize ht : SysvHashTable.mk _ _ = t
  have hbuilt : t.BuiltFor d.names := by
    have hlen : t.buckets.length = numBuckets := by
      rw [← ht]
      simp only [List.length_map, List.length_range]
    refine ⟨by omega, fun k hk => ?_, fun i k hk => ?_⟩
    · rw [hlen] at hk ⊢
      rw [← ht, List.getElem?_map, List.getElem?_range hk, Option.map_some, d.names_length]
    · rw [hlen] at hk ⊢
      obtain ⟨name, hname, rfl⟩ := Option.map_eq_some_iff.mp hk
      rw [← ht, List.getElem?_map, List.getElem?_zipIdx, hname]
      simp
  have hverify : t.verify d = true := by
    refine List.all_eq_true.mpr fun p hp => ?_
    have hsym := List.mk_mem_zipIdx_iff_getElem?.mp hp
    have hname : d.names[p.2]? = some p.1.getSymbolName := by
      rw [DynamicSymbols.names, List.getElem?_map, hsym, Option.map_some]
    rw [Bool.or_eq_true, decide_eq_true_eq, findSymbol,
      hbuilt.bucket _ (sysvBucket_lt hbuilt.buckets_pos _)]
    refine .inr (hbuilt.findWalk_found hnodup ?_ hname (Nat.le_refl _)
      (List.getElem?_eq_some_iff.mp hname).1 (Nat.lt_succ_self _))
    rw [sysvBucketAt, hname, Option.map_some]
  rw [if_pos hverify, Option.isSome_some]

end SysvHashTable

end Pebil

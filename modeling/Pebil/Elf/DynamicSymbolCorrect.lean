import Pebil.Elf.DynamicSymbol

/-!
# When every hash table finds every symbol after an addition

One specification for each style of table: what a growing GNU table does to the symbols
(`GnuHashTable.grow_some`) and which names a grown SYSV table is built for
(`SysvHashTable.grow_some`). The four coverings then differ in which table is asked
about symbols it was not built for: only a SYSV table behind a GNU table is, and
`SysvHashTable.BuiltFor.lookup_iff` says what it still finds.
-/

namespace Pebil

open scoped List

/-! ## Regrouping -/

section regroup

variable {first numberOfBuckets : Nat} {symbols : List Symbol}

theorem regroup_eq_bubbleSort (h : 0 < numberOfBuckets) :
    regroup first numberOfBuckets symbols =
      symbols.take first ++ bubbleSort (gnuBucket numberOfBuckets ∘ Symbol.getSymbolName)
        (symbols.drop first) := by
  rw [regroup, bubbleSort_eq_grouped fun a _ => GnuHashTable.gnuBucket_lt h a.getSymbolName]

theorem DynamicSymbols.sortForGnuHash_eq_regroup (d : DynamicSymbols) (h : 0 < numberOfBuckets) :
    (d.sortForGnuHash first numberOfBuckets).symbols = regroup first numberOfBuckets d.symbols := by
  rw [sortForGnuHash_symbols, regroup_eq_bubbleSort h]

end regroup

/-- `after` has the symbols of `before`, those below `first` unmoved. -/
structure MovedFrom (first : Nat) (before after : List Symbol) : Prop where
  take_eq : after.take first = before.take first
  drop_perm : (after.drop first).Perm (before.drop first)

theorem MovedFrom.trans {first : Nat} {l₁ l₂ l₃ : List Symbol} (h : MovedFrom first l₁ l₂)
    (h' : MovedFrom first l₂ l₃) : MovedFrom first l₁ l₃ where
  take_eq := h'.take_eq.trans h.take_eq
  drop_perm := h'.drop_perm.trans h.drop_perm

theorem MovedFrom.length_eq {first : Nat} {before after : List Symbol}
    (h : MovedFrom first before after) : after.length = before.length := by
  rw [← List.take_append_drop first after, ← List.take_append_drop first before,
    List.length_append, List.length_append, h.take_eq, h.drop_perm.length_eq]

theorem DynamicSymbols.sortForGnuHash_moved (d : DynamicSymbols) {first numberOfBuckets : Nat}
    (h : first ≤ d.symbols.length) :
    MovedFrom first d.symbols (d.sortForGnuHash first numberOfBuckets).symbols := by
  have hlen : (d.symbols.take first).length = first := by
    rw [List.length_take, Nat.min_eq_left h]
  rw [sortForGnuHash_symbols]
  constructor
  · rw [List.take_append_of_le_length hlen.ge, List.take_take, Nat.min_self]
  · rw [List.drop_append_of_le_length hlen.ge, List.drop_of_length_le hlen.le, List.nil_append]
    exact bubbleSort_perm _ _

/-! ## A growing GNU table -/

theorem pred32_succ {n : Nat} (hpos : 0 < n) (hlt : n < 2 ^ 32) : pred32 n = n - 1 := by
  rw [pred32]
  omega

namespace GnuHashTable

variable {g g' : GnuHashTable} {d d' : DynamicSymbols}

theorem bucketCount_lt (g : GnuHashTable) (n : Nat) : g.bucketCount n < 2 ^ 32 :=
  Nat.mod_lt _ (by decide)

/-- A table without entries does not grow. -/
theorem grow_empty (h : g.entries = []) : g.grow d = some (g, d) := by
  have hbuild : ∀ n m, g.buildTable d n m = some (g, d) := by
    intro n m
    rw [buildTable, if_pos h]
  rw [grow]
  simp only [expandSize, addEntry, hbuild, ite_self, Option.bind_some]

theorem Built.entries_length {names : List CString} {numEntries : Nat}
    (h : g.Built names numEntries) (hle : g.firstSymIndex + numEntries ≤ names.length) :
    g.entries.length = numEntries := by
  rw [h.entries_eq, List.length_zipWith, stopBits_length, List.length_drop]
  omega

/-- A built table has a single bloom word, so the next entry costs one bucket. -/
theorem Built.bucketCount_pred32 {names : List CString} {numEntries : Nat}
    (h : g.Built names numEntries) (hlt : g.buckets.length < 2 ^ 32) :
    g.bucketCount (pred32 g.buckets.length) = g.buckets.length - 1 := by
  have hpos := h.buckets_pos
  rw [pred32_succ hpos hlt, bucketCount, h.bloomFilters, List.length_singleton]
  omega

/-- One build: the symbols are regrouped, and the table is built for them. -/
theorem buildTable_moved {numEntries numBuckets : Nat} (hentries : g.entries ≠ [])
    (hle : g.firstSymIndex ≤ d.symbols.length)
    (h : g.buildTable d numEntries numBuckets = some (g', d')) :
    d'.symbols = regroup g.firstSymIndex (g.bucketCount numBuckets) d.symbols ∧
      MovedFrom g.firstSymIndex d.symbols d'.symbols ∧ g'.Built d'.names numEntries ∧
      g'.verify d'.names = true ∧ g'.firstSymIndex = g.firstSymIndex ∧
      g'.buckets.length = g.bucketCount numBuckets ∧ g'.entries.length = numEntries := by
  obtain ⟨hcount, rfl, hbuilt, hverify, hnum, hfirst, hbuckets⟩ :=
    buildTable_some hentries hle h
  refine ⟨d.sortForGnuHash_eq_regroup (by omega), d.sortForGnuHash_moved hle, hbuilt, hverify,
    hfirst, hbuckets, hbuilt.entries_length ?_⟩
  rw [hfirst, DynamicSymbols.names_length, DynamicSymbols.sortForGnuHash_length]
  exact hnum

/-- What a growing table with entries has done when it returns: the symbols are
reordered, and the table is built for them. -/
theorem grow_some (hentries : g.entries ≠ [])
    (hlen : g.firstSymIndex + g.entries.length + 1 = d.symbols.length)
    (h : g.grow d = some (g', d')) :
    d'.symbols = g.reordered d.symbols ∧ MovedFrom g.firstSymIndex d.symbols d'.symbols ∧
      g'.Built d'.names (g.entries.length + 1) ∧ g'.verify d'.names = true ∧
      g'.firstSymIndex = g.firstSymIndex ∧ g'.entries.length = g.entries.length + 1 := by
  have hpos : 0 < g.entries.length := List.length_pos_iff.mpr hentries
  rw [grow] at h
  rw [reordered]
  by_cases hthreshold : passedThreshold g.buckets.length g.entries.length
  · -- first the expansion, over one symbol more than the table has words for
    rw [if_pos hthreshold] at h ⊢
    obtain ⟨⟨g₁, d₁⟩, hexpand, hadd⟩ := Option.bind_eq_some_iff.mp h
    obtain ⟨hsymbols₁, hmoved₁, hbuilt₁, -, hfirst₁, hbuckets₁, hlen₁⟩ :=
      buildTable_moved hentries (by omega) hexpand
    have hentries₁ : g₁.entries ≠ [] := List.length_pos_iff.mp (by omega)
    obtain ⟨hsymbols, hmoved, hbuilt, hverify, hfirst, -, hlen'⟩ :=
      buildTable_moved hentries₁ (by rw [hmoved₁.length_eq]; omega) hadd
    rw [hbuilt₁.bucketCount_pred32 (hbuckets₁ ▸ g.bucketCount_lt _), hfirst₁, hbuckets₁, hsymbols₁] at hsymbols
    rw [hlen₁] at hbuilt hlen'
    rw [hfirst₁] at hmoved hfirst
    exact ⟨hsymbols, hmoved₁.trans hmoved, hbuilt, hverify, hfirst, hlen'⟩
  · rw [if_neg hthreshold] at h ⊢
    obtain ⟨hsymbols, hmoved, hbuilt, hverify, hfirst, -, hlen'⟩ :=
      buildTable_moved hentries (show _ ≤ d.symbols.length by omega) h
    exact ⟨hsymbols, hmoved, hbuilt, hverify, hfirst, hlen'⟩

/-- A built table finds the symbols it covers. -/
theorem Built.finds {numEntries : Nat} (h : g.Built d.names numEntries)
    (hverify : g.verify d.names = true) (hentries : g.entries ≠ [])
    (hlen : d.symbols.length = g.firstSymIndex + numEntries) : (HashTable.gnu g).Finds d := by
  intro p sym hp hsym _
  have hname : d.names[p]? = some sym.getSymbolName := by
    rw [DynamicSymbols.names, List.getElem?_map, hsym, Option.map_some]
  have hlt := (List.getElem?_eq_some_iff.mp hsym).1
  exact h.lookup_found (verify_nodup hentries hverify) hp (by omega) hname

/-- A table without entries finds nothing. -/
theorem not_finds_of_empty (hentries : g.entries = []) {p : Nat} {sym : Symbol}
    (hp : g.firstSymIndex ≤ p) (hsym : d.symbols[p]? = some sym) (hnamed : sym.name.isSome) :
    ¬ (HashTable.gnu g).Finds d := by
  intro hfinds
  have hfound := hfinds p sym hp hsym hnamed
  simp only [lookup, hentries, List.drop_nil, chainWalk] at hfound
  split at hfound
  · split at hfound
    · cases hfound
    · cases hfound
    · split at hfound
      · cases hfound
      · cases hfound
  · cases hfound

end GnuHashTable

/-! ## A growing SYSV table -/

namespace SysvHashTable

variable {s s' : SysvHashTable} {d d' : DynamicSymbols}

/-- What a growing table has done when it returns. -/
theorem grow_some (h : s.grow d = some s') :
    s'.BuiltFor d.names ∧ s'.verify d = true ∧ s'.buckets.length = s.grownCount := by
  rw [grow] at h
  obtain ⟨s₁, hadd, hexpand⟩ := Option.bind_eq_some_iff.mp h
  obtain ⟨hbuilt₁, hverify₁, hbuckets₁, hlen₁, hnum⟩ := buildTable_some hadd
  rw [grownCount]
  rw [hbuckets₁, hlen₁, hnum] at hexpand
  split at hexpand
  next hthreshold =>
    obtain ⟨hbuilt, hverify, hbuckets, -, -⟩ := buildTable_some hexpand
    simp only [if_pos hthreshold]
    exact ⟨hbuilt, hverify, by rw [hbuckets, hbuckets₁]⟩
  next hthreshold =>
    obtain rfl := Option.some.inj hexpand
    simp only [if_neg hthreshold]
    exact ⟨hbuilt₁, hverify₁, hbuckets₁⟩

/-- A table finds the symbols it was built for. -/
theorem BuiltFor.finds (h : s.BuiltFor d.names) (hverify : s.verify d = true) :
    (HashTable.sysv s).Finds d := by
  intro p sym hp hsym hnamed
  have hname : d.names[p]? = some sym.getSymbolName := by
    rw [DynamicSymbols.names, List.getElem?_map, hsym, Option.map_some]
  refine (h.lookup_iff rfl hp hname fun q hq => h.name_last hverify hsym hnamed hq).mpr ?_
  rw [sysvBucketAt, hname, Option.map_some]

/-- What a table finds after the symbols have been moved under it, if the moved ones have
distinct names. -/
theorem BuiltFor.finds_iff_of_moved {first : Nat} (h : s.BuiltFor d.names)
    (hverify : s.verify d = true) (hmoved : MovedFrom first d.symbols d'.symbols)
    (hnodup : (d'.names.drop first).Nodup) :
    (HashTable.sysv s).Finds d' ↔ KeepsBuckets s.buckets.length d.symbols d'.symbols := by
  have hlen : d'.names.length = d.names.length := by
    rw [DynamicSymbols.names_length, DynamicSymbols.names_length, hmoved.length_eq]
  refine forall_congr' fun p => forall_congr' fun sym => forall_congr' fun hp =>
    forall_congr' fun hsym => forall_congr' fun hnamed => ?_
  have hname : d'.names[p]? = some sym.getSymbolName := by
    rw [DynamicSymbols.names, List.getElem?_map, hsym, Option.map_some]
  refine h.lookup_iff hlen hp hname fun q hq heq => ?_
  by_cases hpf : p < first
  · -- an unmoved symbol is the last of its name, wherever the others have gone
    have hsym' : d.symbols[p]? = some sym := by
      rw [← List.getElem?_take_of_lt hpf, ← hmoved.take_eq, List.getElem?_take_of_lt hpf, hsym]
    by_cases hqf : q < first
    · refine h.name_last hverify hsym' hnamed hq ?_
      rw [DynamicSymbols.names, List.getElem?_map, ← List.getElem?_take_of_lt hqf,
        ← hmoved.take_eq, List.getElem?_take_of_lt hqf, ← List.getElem?_map]
      exact heq
    · have hmem : sym.getSymbolName ∈ d'.names.drop first := by
        refine List.mem_of_getElem? (i := q - first) ?_
        rw [List.getElem?_drop, Nat.add_sub_cancel' (by omega), heq]
      rw [DynamicSymbols.names, ← List.map_drop, (hmoved.drop_perm.map _).mem_iff,
        List.map_drop] at hmem
      obtain ⟨j, hj⟩ := List.mem_iff_getElem?.mp hmem
      rw [List.getElem?_drop] at hj
      exact h.name_last hverify hsym' hnamed (by omega : p < first + j) hj
  · -- two moved symbols have different names
    rw [← Nat.add_sub_cancel' (by omega : first ≤ p), ← List.getElem?_drop] at hname
    rw [← Nat.add_sub_cancel' (by omega : first ≤ q), ← List.getElem?_drop] at heq
    have := (List.getElem?_inj (List.getElem?_eq_some_iff.mp hname).1 hnodup).mp
      (hname.trans heq.symm)
    omega

end SysvHashTable

/-! ## Adding a symbol -/

variable {ts ts' : List HashTable} {d d' : DynamicSymbols} {s : Symbol} {i : Nat}

theorem GnuHashTable.Covers.addSymbol {g : GnuHashTable} (h : g.Covers d) (s : Symbol)
    (hentries : g.entries ≠ []) :
    g.firstSymIndex + g.entries.length + 1 = (d.addSymbol s).symbols.length := by
  rw [h.entries_length hentries, DynamicSymbols.addSymbol, List.length_append,
    List.length_singleton]

/-- **Growing a GNU table**: it finds every symbol afterwards exactly when it had
entries. -/
theorem GnuHashTable.Covers.finds_iff {g g' : GnuHashTable} (h : g.Covers d) {s : Symbol}
    (hnamed : s.name.isSome) (hgrow : g.grow (d.addSymbol s) = some (g', d')) :
    (HashTable.gnu g').Finds d' ↔ g.entries ≠ [] := by
  by_cases hentries : g.entries = []
  · rw [grow_empty hentries] at hgrow
    obtain ⟨rfl, rfl⟩ := Prod.mk.inj (Option.some.inj hgrow)
    have hsym : (d.addSymbol s).symbols[d.symbols.length]? = some s := by
      simp [DynamicSymbols.addSymbol]
    simp only [hentries, ne_eq, not_true_eq_false, iff_false]
    exact not_finds_of_empty hentries h.first_le hsym hnamed
  · have hlen := h.addSymbol s hentries
    obtain ⟨-, hmoved, hbuilt, hverify, hfirst, hlen'⟩ := grow_some hentries hlen hgrow
    refine iff_of_true (hbuilt.finds hverify (List.length_pos_iff.mp (by omega)) ?_) hentries
    rw [hmoved.length_eq, hfirst]
    omega

theorem HashTable.grow_sysv {t : HashTable} {s₀ : SysvHashTable}
    (h : (HashTable.sysv s₀).grow d = some (t, d')) :
    d' = d ∧ ∃ s₁, s₀.grow d = some s₁ ∧ t = .sysv s₁ := by
  simp only [HashTable.grow] at h
  obtain ⟨s₁, hgrow, heq⟩ := Option.map_eq_some_iff.mp h
  obtain ⟨rfl, rfl⟩ := Prod.mk.inj heq
  exact ⟨rfl, s₁, hgrow, rfl⟩

theorem HashTable.grow_gnu {t : HashTable} {g : GnuHashTable}
    (h : (HashTable.gnu g).grow d = some (t, d')) :
    ∃ g', g.grow d = some (g', d') ∧ t = .gnu g' := by
  simp only [HashTable.grow] at h
  obtain ⟨⟨g', d₁⟩, hgrow, heq⟩ := Option.map_eq_some_iff.mp h
  obtain ⟨rfl, rfl⟩ := Prod.mk.inj heq
  exact ⟨g', hgrow, rfl⟩

theorem growHashTables_single {t : HashTable} (h : growHashTables [t] d = some (ts', d')) :
    ∃ t', t.grow d = some (t', d') ∧ ts' = [t'] := by
  rw [growHashTables, growHashTables, Option.bind_some] at h
  obtain ⟨⟨t', d₁⟩, hgrow, heq⟩ := Option.map_eq_some_iff.mp h
  obtain ⟨rfl, rfl⟩ := Prod.mk.inj heq
  exact ⟨t', hgrow, rfl⟩

/-- Of two tables the second grows first. -/
theorem growHashTables_pair {t u : HashTable} (h : growHashTables [t, u] d = some (ts', d')) :
    ∃ t' u' d₁, u.grow d = some (u', d₁) ∧ t.grow d₁ = some (t', d') ∧ ts' = [t', u'] := by
  rw [growHashTables] at h
  obtain ⟨⟨ts₁, d₁⟩, hu, ht⟩ := Option.bind_eq_some_iff.mp h
  obtain ⟨u', hgrow, rfl⟩ := growHashTables_single hu
  obtain ⟨⟨t', d₂⟩, hgrow', heq⟩ := Option.map_eq_some_iff.mp ht
  obtain ⟨rfl, rfl⟩ := Prod.mk.inj heq
  exact ⟨t', u', d₁, hgrow, hgrow', rfl⟩

/-- **Every hash table finds every symbol exactly when the tables stay in step**: when
`addSymbolToDynamicSymbolTable` returns, each table finds every named symbol it covers,
old and new, if and only if a GNU table had entries before and, where a SYSV table of
a higher section index was rebuilt first, the sort moved no symbol across its buckets. -/
theorem addSymbol_finds_iff (hcover : Covering d ts) (hnamed : s.name.isSome)
    (h : addSymbolToDynamicSymbolTable ts d s = some (i, ts', d')) :
    (∀ t ∈ ts', t.Finds d') ↔ StayInStep (d.addSymbol s).symbols ts := by
  obtain ⟨⟨ts₁, d₁⟩, hgrow, heq⟩ := Option.map_eq_some_iff.mp h
  obtain ⟨-, rfl, rfl⟩ : d.symbols.length = i ∧ ts₁ = ts' ∧ d₁ = d' := by simpa using heq
  clear h heq
  cases hcover with
  | sysv s₀ =>
    obtain ⟨t', ht, rfl⟩ := growHashTables_single hgrow
    obtain ⟨rfl, s₁, hs, rfl⟩ := HashTable.grow_sysv ht
    obtain ⟨hbuilt, hverify, -⟩ := SysvHashTable.grow_some hs
    rw [List.forall_mem_singleton]
    exact iff_of_true (hbuilt.finds hverify) trivial
  | @gnu g hg =>
    obtain ⟨t', ht, rfl⟩ := growHashTables_single hgrow
    obtain ⟨g', hg', rfl⟩ := HashTable.grow_gnu ht
    rw [List.forall_mem_singleton]
    exact hg.finds_iff hnamed hg'
  | @sysvGnu s₀ g hg =>
    -- the SYSV table is built for the symbols the GNU table has sorted
    obtain ⟨t', u', d₂, hu, ht, rfl⟩ := growHashTables_pair hgrow
    obtain ⟨g', hg', rfl⟩ := HashTable.grow_gnu hu
    obtain ⟨rfl, s₁, hs, rfl⟩ := HashTable.grow_sysv ht
    obtain ⟨hbuilt, hverify, -⟩ := SysvHashTable.grow_some hs
    rw [List.forall_mem_cons, List.forall_mem_singleton, and_iff_right (hbuilt.finds hverify)]
    exact hg.finds_iff hnamed hg'
  | @gnuSysv g s₀ hg =>
    -- the GNU table sorts the symbols the SYSV table was built for
    obtain ⟨t', u', d₂, hu, ht, rfl⟩ := growHashTables_pair hgrow
    obtain ⟨rfl, s₁, hs, rfl⟩ := HashTable.grow_sysv hu
    obtain ⟨g', hg', rfl⟩ := HashTable.grow_gnu ht
    obtain ⟨hbuilt, hverify, hcount⟩ := SysvHashTable.grow_some hs
    rw [List.forall_mem_cons, List.forall_mem_singleton, hg.finds_iff hnamed hg']
    refine and_congr_right fun hentries => ?_
    have hlen := hg.addSymbol s hentries
    obtain ⟨hsymbols, hmoved, -, hverify', hfirst, hlen'⟩ :=
      GnuHashTable.grow_some hentries hlen hg'
    have hnodup := GnuHashTable.verify_nodup (List.length_pos_iff.mp (by omega)) hverify'
    rw [hfirst] at hnodup
    rw [hbuilt.finds_iff_of_moved hverify hmoved hnodup, hcount, hsymbols]

/-! ## When the addition returns -/

/-- The table keeps a bucket in every build of `grow`. -/
def SysvHashTable.HasRoom (s : SysvHashTable) : Prop :=
  pred32 s.buckets.length ≠ 0 ∧ s.grownCount ≠ 0

/-- The table has entries, does not hash symbol 0, and keeps a bucket in every build of
`grow`. -/
structure GnuHashTable.HasRoom (g : GnuHashTable) : Prop where
  entries : g.entries ≠ []
  first_pos : 0 < g.firstSymIndex
  buckets : if passedThreshold g.buckets.length g.entries.length then
      1 < g.bucketCount ((g.buckets.length + g.entries.length / 2) % 2 ^ 32)
    else g.bucketCount (pred32 g.buckets.length) ≠ 0

theorem SysvHashTable.grow_isSome {s : SysvHashTable} (hroom : s.HasRoom)
    (hnodup : d.names.Nodup) (hlen : s.entries.length + 1 = d.symbols.length) :
    (s.grow d).isSome := by
  obtain ⟨s₁, hadd⟩ := Option.isSome_iff_exists.mp (buildTable_isSome hnodup hroom.1)
  obtain ⟨-, -, hbuckets₁, hlen₁, -⟩ := buildTable_some hadd
  rw [grow, addEntry, hlen, hadd, Option.bind_some, hbuckets₁, hlen₁]
  split
  next hthreshold =>
    rw [expandSize, hbuckets₁, hlen₁]
    refine buildTable_isSome hnodup ?_
    have hcount := hroom.2
    rw [grownCount, hlen] at hcount
    simpa only [if_pos hthreshold] using hcount
  next => rfl

theorem GnuHashTable.grow_isSome {g : GnuHashTable} (hroom : g.HasRoom) (hnodup : d.names.Nodup)
    (hlen : g.firstSymIndex + g.entries.length + 1 = d.symbols.length) :
    (g.grow d).isSome := by
  have hbuckets := hroom.buckets
  rw [grow]
  by_cases hthreshold : passedThreshold g.buckets.length g.entries.length
  · rw [if_pos hthreshold] at hbuckets ⊢
    obtain ⟨g₁, hexpand, -⟩ := buildTable_built (d := d) g.entries.length
      hroom.entries hroom.first_pos (by omega) (by omega) (Nat.ne_zero_of_lt hbuckets) hnodup
    rw [expandSize, hexpand, Option.bind_some]
    obtain ⟨-, hmoved, hbuilt₁, -, hfirst₁, hbuckets₁, hlen₁⟩ :=
      buildTable_moved hroom.entries (by omega) hexpand
    have hpos := List.length_pos_iff.mpr hroom.entries
    have hlen' := hmoved.length_eq
    have hcount : g₁.bucketCount (pred32 g₁.buckets.length) ≠ 0 := by
      rw [hbuilt₁.bucketCount_pred32 (hbuckets₁ ▸ g.bucketCount_lt _), hbuckets₁]
      omega
    obtain ⟨g₂, hadd, -⟩ := buildTable_built (t := g₁) (d := d.sortForGnuHash g.firstSymIndex
        (g.bucketCount ((g.buckets.length + g.entries.length / 2) % 2 ^ 32)))
      (g₁.entries.length + 1) (List.length_pos_iff.mp (by omega)) hbuilt₁.first_pos (by omega)
      (by omega) hcount ((d.sortForGnuHash_names_perm _ _).nodup_iff.mpr hnodup)
    rw [addEntry, hadd, Option.isSome_some]
  · rw [if_neg hthreshold] at hbuckets ⊢
    obtain ⟨g₁, hadd, -⟩ := buildTable_built (d := d) (g.entries.length + 1)
      hroom.entries hroom.first_pos (by omega) (by omega) hbuckets hnodup
    rw [Option.bind_some, addEntry, hadd, Option.isSome_some]

/-- The table covers `n` symbols and has room for one more. -/
def HashTable.Fits (n : Nat) : HashTable → Prop
  | .sysv s => s.HasRoom ∧ s.entries.length = n
  | .gnu g => g.HasRoom ∧ g.firstSymIndex + g.entries.length = n

theorem MovedFrom.perm {first : Nat} {before after : List Symbol}
    (h : MovedFrom first before after) : after.Perm before := by
  rw [← List.take_append_drop first after, ← List.take_append_drop first before, h.take_eq]
  exact h.drop_perm.append_left _

theorem HashTable.grow_isSome {t : HashTable} {n : Nat} (hfits : t.Fits n)
    (hlen : d.symbols.length = n + 1) (hnodup : d.names.Nodup) :
    ∃ t' d', t.grow d = some (t', d') ∧ d'.symbols.Perm d.symbols := by
  cases t with
  | sysv s₀ =>
    obtain ⟨s₁, hgrow⟩ := Option.isSome_iff_exists.mp
      (SysvHashTable.grow_isSome hfits.1 hnodup (by rw [hfits.2, hlen]))
    exact ⟨.sysv s₁, d, by rw [grow, hgrow, Option.map_some], .refl _⟩
  | gnu g =>
    have hfit : g.firstSymIndex + g.entries.length + 1 = d.symbols.length := by
      rw [hfits.2, hlen]
    obtain ⟨⟨g₁, d₁⟩, hgrow⟩ := Option.isSome_iff_exists.mp
      (GnuHashTable.grow_isSome hfits.1 hnodup hfit)
    obtain ⟨-, hmoved, -⟩ := GnuHashTable.grow_some hfits.1.entries hfit hgrow
    exact ⟨.gnu g₁, d₁, by rw [grow, hgrow, Option.map_some], hmoved.perm⟩

/-- The loop over the hash tables succeeds. -/
theorem growHashTables_isSome {n : Nat} (hfits : ∀ t ∈ ts, t.Fits n)
    (hlen : d.symbols.length = n + 1) (hnodup : d.names.Nodup) :
    ∃ ts' d', growHashTables ts d = some (ts', d') ∧ d'.symbols.Perm d.symbols := by
  induction ts with
  | nil => exact ⟨[], d, rfl, .refl _⟩
  | cons t ts ih =>
    obtain ⟨ht, hts⟩ := List.forall_mem_cons.mp hfits
    obtain ⟨ts₁, d₁, hrest, hperm₁⟩ := ih hts
    obtain ⟨t', d', hgrow, hperm⟩ := HashTable.grow_isSome ht (hperm₁.length_eq.trans hlen)
      ((hperm₁.map Symbol.getSymbolName).nodup_iff.mpr hnodup)
    refine ⟨t' :: ts₁, d', ?_, hperm.trans hperm₁⟩
    rw [growHashTables, hrest, Option.bind_some, hgrow, Option.map_some]

/-- With distinct names and room in every table the addition returns. -/
theorem addSymbol_returns (hfits : ∀ t ∈ ts, t.Fits d.symbols.length)
    (hnodup : (d.addSymbol s).names.Nodup) :
    (addSymbolToDynamicSymbolTable ts d s).isSome := by
  obtain ⟨ts', d', hgrow, -⟩ := growHashTables_isSome hfits
    (d := d.addSymbol s) (by rw [DynamicSymbols.addSymbol, List.length_append,
      List.length_singleton]) hnodup
  rw [addSymbolToDynamicSymbolTable, hgrow, Option.map_some, Option.isSome_some]

/-! ## Two symbols and a third -/

open GnuHashTable (letter)

/-- The null symbol and symbols named `a` and `b`. -/
def twoSymbols : DynamicSymbols where
  sectionIndex := 3
  symbols := [⟨none, 0, 0, 0, 0, 0⟩, ⟨some (letter 97), 0x1000, 8, 0x12, 0, 7⟩,
    ⟨some (letter 98), 0x1010, 8, 0x12, 0, 7⟩]
  versym := [0, 1, 1]
  relocationTables := []
  versym_length := rfl

/-- Their SYSV table with three buckets. -/
def twoSysv : SysvHashTable where
  buckets := [0, 1, 2]
  entries := [0, 0, 0]

/-- Their GNU table with three buckets. -/
def twoGnu : GnuHashTable where
  is64Bit := true
  firstSymIndex := 1
  shiftCount := 6
  bloomFilters := [BitVec.allOnes 64]
  buckets := [0, 1, 2]
  entries := [GnuHashTable.chainWord (letter 97) true, GnuHashTable.chainWord (letter 98) true]

/-- A GNU table of the same symbols that hashes none of them. -/
def noneGnu : GnuHashTable where
  is64Bit := true
  firstSymIndex := 3
  shiftCount := 6
  bloomFilters := [0]
  buckets := [0]
  entries := []

/-- The new symbol `c`. -/
def thirdSymbol : Symbol := .make (letter 99) 0 0 1 0 0 0

theorem twoGnu_covers : twoGnu.Covers twoSymbols := ⟨by decide, fun _ => by decide⟩

theorem addSymbol_finds_iff_twoSymbols :
    ∃ i ts' d', addSymbolToDynamicSymbolTable [.sysv twoSysv, .gnu twoGnu] twoSymbols
      thirdSymbol = some (i, ts', d') ∧ ∀ t ∈ ts', t.Finds d' := by
  obtain ⟨⟨i, ts', d'⟩, h⟩ := Option.isSome_iff_exists.mp
    (show (addSymbolToDynamicSymbolTable [.sysv twoSysv, .gnu twoGnu] twoSymbols
      thirdSymbol).isSome by decide)
  exact ⟨i, ts', d', h,
    (addSymbol_finds_iff (.sysvGnu twoSysv twoGnu_covers) (by decide) h).mpr
      (show twoGnu.entries ≠ [] by decide)⟩

set_option maxRecDepth 2000 in
/-- With the GNU table at the lower section index, the SYSV table no longer finds `c`,
which the GNU table has moved to index 2; and a GNU table without entries never learns
of it. -/
theorem thirdSymbol_lost :
    (addSymbolToDynamicSymbolTable [.gnu twoGnu, .sysv twoSysv] twoSymbols thirdSymbol).map
        (fun r => (r.2.2.names[2]?, r.2.1.map (HashTable.lookup r.2.2.names (letter 99)))) =
      some (some (letter 99), [.found 2, .absent]) ∧
    (addSymbolToDynamicSymbolTable [.gnu noneGnu] twoSymbols thirdSymbol).map
        (fun r => (r.2.2.names[3]?, r.2.1.map (HashTable.lookup r.2.2.names (letter 99)))) =
      some (some (letter 99), [.absent]) :=
  ⟨by decide, by decide⟩

end Pebil

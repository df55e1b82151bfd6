import Pebil.Elf.GnuHashTable

/-!
# What a rebuilt GNU hash table answers

`Built` is what `buildTable` establishes: each bucket starts at the least hashed index
of its residue, and a chain word carries the stop bit exactly when the next index
starts a bucket. Since the symbols are sorted, the words between a bucket's start and
a symbol of the bucket carry none, so every hashed symbol is found
(`Built.lookup_found`).

The word of the last symbol is followed by no bucket start. The last chain
therefore never ends, and a name that is not in the table but hashes to the last
bucket takes the dynamic linker past the table (`Built.lookup_outside`).
-/

namespace Pebil

namespace GnuHashTable

/-! ## Bucket starts -/

/-- The bucket of the symbol at an index. -/
def bucketAt (names : List CString) (numberOfBuckets i : Nat) : Option Nat :=
  names[i]?.map (gnuBucket numberOfBuckets)

/-- `x` is the least hashed index in bucket `k`. -/
structure IsHead (names : List CString) (firstSymIndex numberOfBuckets k x : Nat) : Prop where
  first_le : firstSymIndex ≤ x
  bucket : bucketAt names numberOfBuckets x = some k
  least : ∀ j, firstSymIndex ≤ j → j < x → bucketAt names numberOfBuckets j ≠ some k

theorem IsHead.unique {names : List CString} {firstSymIndex numberOfBuckets k x y : Nat}
    (hx : IsHead names firstSymIndex numberOfBuckets k x)
    (hy : IsHead names firstSymIndex numberOfBuckets k y) : x = y := by
  rcases Nat.lt_trichotomy x y with hlt | heq | hgt
  · exact absurd hx.bucket (hy.least x hx.first_le hlt)
  · exact heq
  · exact absurd hy.bucket (hx.least y hy.first_le hgt)

theorem gnuBucket_lt {numberOfBuckets : Nat} (h : 0 < numberOfBuckets) (name : CString) :
    gnuBucket numberOfBuckets name < numberOfBuckets :=
  Nat.mod_lt _ h

/-- The descending loop leaves in each bucket its least index of the range it has
passed, and leaves the other buckets alone. -/
theorem fillBuckets_spec (names : List CString) {firstSymIndex numberOfBuckets : Nat}
    (hfirst : 0 < firstSymIndex) {n : Nat} (hle : firstSymIndex ≤ n) (hn : n ≤ names.length)
    (buckets : List Nat) (hlen : buckets.length = numberOfBuckets) :
    ∃ filled, fillBuckets names firstSymIndex numberOfBuckets n buckets = some filled ∧
      filled.length = numberOfBuckets ∧ ∀ k < numberOfBuckets,
        (∃ x < n, filled[k]? = some x ∧ IsHead names firstSymIndex numberOfBuckets k x) ∨
        (filled[k]? = buckets[k]? ∧
          ∀ j, firstSymIndex ≤ j → j < n → bucketAt names numberOfBuckets j ≠ some k) := by
  induction n generalizing buckets with
  | zero => omega
  | succ i ih =>
    by_cases hi : firstSymIndex ≤ i
    · have hname : names[i]? = some names[i] := List.getElem?_eq_getElem hn
      obtain ⟨filled, hfill, hlen', hspec⟩ := ih hi (by omega)
        (buckets.set (gnuBucket numberOfBuckets names[i]) i) (by simpa using hlen)
      refine ⟨filled, ?_, hlen', fun k hk => ?_⟩
      · rw [fillBuckets, if_pos hi, hname]
        exact hfill
      have hat : bucketAt names numberOfBuckets i = some (gnuBucket numberOfBuckets names[i]) := by
        rw [bucketAt, hname, Option.map_some]
      rcases hspec k hk with ⟨x, hx, hget, hhead⟩ | ⟨hget, hnone⟩
      · -- a smaller index overwrites what this round stores
        exact .inl ⟨x, by omega, hget, hhead⟩
      by_cases hkey : gnuBucket numberOfBuckets names[i] = k
      · -- this round's index stays
        refine .inl ⟨i, by omega, ?_, hi, by rw [hat, hkey], hnone⟩
        rw [hget, hkey, List.getElem?_set_self (by omega)]
      · refine .inr ⟨by rw [hget, List.getElem?_set_ne hkey], fun j hj hlt => ?_⟩
        rcases Nat.lt_succ_iff_lt_or_eq.mp hlt with hlt | rfl
        · exact hnone j hj hlt
        · rw [hat]
          simpa using hkey
    · -- the loop has passed `firstSymIndex`
      exact ⟨buckets, by rw [fillBuckets, if_neg hi], hlen,
        fun k _ => .inr ⟨rfl, fun j hj hlt => by omega⟩⟩

/-! ## Stop bits -/

/-- An entry has the stop bit exactly when the next index starts a bucket. -/
theorem stopBits_get {firstSymIndex numEntries : Nat} {buckets : List Nat} {i : Nat}
    (hi : i < numEntries) :
    (stopBits firstSymIndex numEntries buckets)[i]? =
      some (decide (firstSymIndex + i + 1 ∈ buckets)) := by
  suffices h : ∀ bits : List Bool, bits.length = numEntries →
      (buckets.foldl (fun bits b =>
        if firstSymIndex < b then bits.set (b - firstSymIndex - 1) true else bits) bits)[i]? =
        bits[i]?.map (· || decide (firstSymIndex + i + 1 ∈ buckets)) by
    rw [stopBits, h _ (List.length_replicate ..), List.getElem?_replicate, if_pos hi,
      Option.map_some, Bool.false_or]
  induction buckets with
  | nil => intro bits _; simp
  | cons b buckets ih =>
    intro bits hbits
    rw [List.foldl_cons]
    split
    next hlt =>
      rw [ih _ (by simpa using hbits), List.getElem?_set]
      split
      next heq =>
        rw [if_pos (by omega), List.getElem?_eq_getElem (by omega)]
        simp [show firstSymIndex + i + 1 = b by omega]
      next hne =>
        have : firstSymIndex + i + 1 ≠ b := by omega
        simp [this]
    next hge =>
      have : firstSymIndex + i + 1 ≠ b := by omega
      rw [ih bits hbits]
      simp [this]

theorem stopBits_length (firstSymIndex numEntries : Nat) (buckets : List Nat) :
    (stopBits firstSymIndex numEntries buckets).length = numEntries := by
  suffices h : ∀ bits : List Bool, (buckets.foldl (fun bits b =>
      if firstSymIndex < b then bits.set (b - firstSymIndex - 1) true else bits) bits).length =
      bits.length by
    rw [stopBits, h, List.length_replicate]
  induction buckets with
  | nil => intro bits; rfl
  | cons b buckets ih =>
    intro bits
    rw [List.foldl_cons, ih]
    split
    · rw [List.length_set]
    · rfl

@[simp] theorem chainWord_stop (name : CString) (stop : Bool) :
    (chainWord name stop).getLsbD 0 = stop := by
  cases stop <;> simp [chainWord]

@[simp] theorem chainWord_hash (name : CString) (stop : Bool) :
    chainWord name stop >>> 1 = name.elfGnuHash >>> 1 := by
  have hmask : (~~~1 &&& name.elfGnuHash) >>> 1 = name.elfGnuHash >>> 1 := by
    ext i hi
    rw [BitVec.getElem_ushiftRight, BitVec.getElem_ushiftRight, BitVec.getLsbD_and,
      BitVec.getLsbD_not]
    by_cases hlt : 1 + i < 32
    · simp [hlt]
    · simp [BitVec.getLsbD_of_ge name.elfGnuHash (1 + i) (by omega)]
  rw [chainWord, BitVec.ushiftRight_or_distrib, BitVec.and_comm, hmask]
  cases stop
  · simp
  · simp

/-! ## Walks along a chain -/

variable {name : CString}

/-- Over words without stop bit and other names, both walks reach a name. -/
theorem chainWalk_found {entries : List (BitVec 32)} {names : List CString} {m x : Nat}
    (hwords : ∀ j < m, ∃ e, entries[j]? = some e ∧ e.getLsbD 0 = false)
    (hothers : ∀ j < m, names[j]? ≠ some name) (hname : names[m]? = some name)
    (hword : ∃ e, entries[m]? = some e ∧ e >>> 1 = name.elfGnuHash >>> 1) :
    chainWalk name entries names x = .found (x + m) := by
  induction m generalizing entries names x with
  | zero =>
    obtain ⟨e, he, hhash⟩ := hword
    cases entries with
    | nil => simp at he
    | cons e' entries =>
      cases names with
      | nil => simp at hname
      | cons n names =>
        obtain rfl : n = name := by simpa using hname
        obtain rfl : e' = e := by simpa using he
        rw [chainWalk, if_pos ⟨hhash, rfl⟩, Nat.add_zero]
  | succ m ih =>
    obtain ⟨e, he, hstop⟩ := hwords 0 (by omega)
    cases entries with
    | nil => simp at he
    | cons e' entries =>
      cases names with
      | nil => simp at hname
      | cons n names =>
        have hne : n ≠ name := by simpa using hothers 0 (by omega)
        obtain rfl : e' = e := by simpa using he
        rw [chainWalk, if_neg (by simp [hne]), hstop, if_neg (by simp),
          ih (fun j hj => by simpa using hwords (j + 1) (by omega))
            (fun j hj => by simpa using hothers (j + 1) (by omega))
            (by simpa using hname) (by simpa using hword)]
        congr 1
        omega

theorem findWalk_found {entries : List (BitVec 32)} {names : List CString} {m x : Nat}
    (hwords : ∀ j < m, ∃ e, entries[j]? = some e ∧ e.getLsbD 0 = false)
    (hothers : ∀ j < m, names[j]? ≠ some name) (hname : names[m]? = some name) :
    findWalk name entries names x = some (x + m) := by
  induction m generalizing entries names x with
  | zero =>
    cases names with
    | nil => simp at hname
    | cons n names =>
      obtain rfl : n = name := by simpa using hname
      cases entries with
      | nil => simp [findWalk]
      | cons e entries => simp [findWalk]
  | succ m ih =>
    obtain ⟨e, he, hstop⟩ := hwords 0 (by omega)
    cases entries with
    | nil => simp at he
    | cons e' entries =>
      cases names with
      | nil => simp at hname
      | cons n names =>
        have hne : n ≠ name := by simpa using hothers 0 (by omega)
        obtain rfl : e' = e := by simpa using he
        rw [findWalk, if_neg hne, hstop, if_neg (by simp),
          ih (fun j hj => by simpa using hwords (j + 1) (by omega))
            (fun j hj => by simpa using hothers (j + 1) (by omega)) (by simpa using hname)]
        congr 1
        omega

/-- Without a stop bit and without the name, the walk leaves the table. -/
theorem chainWalk_outside {entries : List (BitVec 32)} {names : List CString} {x : Nat}
    (hwords : ∀ e ∈ entries, e.getLsbD 0 = false) (hnames : name ∉ names) :
    chainWalk name entries names x = .outside := by
  induction entries generalizing names x with
  | nil => rfl
  | cons e entries ih =>
    cases names with
    | nil => rfl
    | cons n names =>
      obtain ⟨hne, hnames⟩ := not_or.mp (mt List.mem_cons.mpr hnames)
      rw [chainWalk, if_neg (fun h => hne h.2.symm), hwords e (List.mem_cons_self ..),
        if_neg (by simp)]
      exact ih (fun e he => hwords e (List.mem_cons_of_mem _ he)) hnames

/-! ## What `buildTable` establishes -/

/-- The hashed symbols are sorted by their bucket. -/
def SortedFrom (firstSymIndex numberOfBuckets : Nat) (names : List CString) : Prop :=
  (names.drop firstSymIndex).Pairwise fun a b =>
    gnuBucket numberOfBuckets a ≤ gnuBucket numberOfBuckets b

/-- A table built for the symbols `names`. -/
structure Built (t : GnuHashTable) (names : List CString) (numEntries : Nat) : Prop where
  first_pos : 0 < t.firstSymIndex
  buckets_pos : 0 < t.buckets.length
  bloomFilters : t.bloomFilters = [BitVec.allOnes 64]
  sorted : SortedFrom t.firstSymIndex t.buckets.length names
  bucket : ∀ k < t.buckets.length,
    (∃ x, t.buckets[k]? = some x ∧ IsHead names t.firstSymIndex t.buckets.length k x) ∨
    (t.buckets[k]? = some 0 ∧
      ∀ j, t.firstSymIndex ≤ j → bucketAt names t.buckets.length j ≠ some k)
  entries_eq : t.entries = List.zipWith chainWord (names.drop t.firstSymIndex)
    (stopBits t.firstSymIndex numEntries t.buckets)

variable {t : GnuHashTable} {names : List CString} {numEntries : Nat}

/-- The bucket of a hashed symbol starts at an index that is not behind it. -/
theorem Built.head_of_mem (h : t.Built names numEntries) {i : Nat} (hi : t.firstSymIndex ≤ i)
    (hname : names[i]? = some name) :
    ∃ x ≤ i, t.buckets[gnuBucket t.buckets.length name]? = some x ∧
      IsHead names t.firstSymIndex t.buckets.length (gnuBucket t.buckets.length name) x := by
  have hat : bucketAt names t.buckets.length i = some (gnuBucket t.buckets.length name) := by
    rw [bucketAt, hname, Option.map_some]
  rcases h.bucket _ (gnuBucket_lt h.buckets_pos name) with ⟨x, hget, hhead⟩ | ⟨-, hnone⟩
  · refine ⟨x, ?_, hget, hhead⟩
    by_contra hlt
    exact hhead.least i hi (by omega) hat
  · exact absurd hat (hnone i hi)

/-- Between a bucket's start and a symbol of the bucket there are only symbols of the
bucket. -/
theorem Built.bucketAt_between (h : t.Built names numEntries) {k x i j : Nat}
    (hhead : IsHead names t.firstSymIndex t.buckets.length k x)
    (hi : bucketAt names t.buckets.length i = some k) (hxj : x ≤ j) (hji : j ≤ i) :
    bucketAt names t.buckets.length j = some k := by
  obtain ⟨nx, hnx, hkx⟩ := Option.map_eq_some_iff.mp hhead.bucket
  obtain ⟨ni, hni, hki⟩ := Option.map_eq_some_iff.mp hi
  obtain ⟨hilt, rfl⟩ := List.getElem?_eq_some_iff.mp hni
  obtain ⟨hxlt, rfl⟩ := List.getElem?_eq_some_iff.mp hnx
  have hjlt : j < names.length := by omega
  have hfx := hhead.first_le
  -- sortedness, read at two indices of the whole list
  have hmono : ∀ a b, (ha : t.firstSymIndex ≤ a) → (hab : a ≤ b) → (hb : b < names.length) →
      gnuBucket t.buckets.length names[a] ≤ gnuBucket t.buckets.length names[b] := by
    intro a b ha hab hb
    rcases Nat.eq_or_lt_of_le hab with rfl | hlt
    · exact Nat.le_refl _
    · have hpair := List.pairwise_iff_getElem.mp h.sorted (a - t.firstSymIndex)
        (b - t.firstSymIndex) (by simp; omega) (by simp; omega) (by omega)
      simpa only [List.getElem_drop, Nat.add_sub_cancel' ha,
        Nat.add_sub_cancel' (Nat.le_trans ha hab)] using hpair
  have hlow := hmono x j hfx hxj hjlt
  have hhigh := hmono j i (by omega) hji hilt
  rw [bucketAt, List.getElem?_eq_getElem hjlt, Option.map_some]
  exact congrArg some (by omega)

/-- The chain word of a hashed index has the stop bit exactly when the next index
starts a bucket. -/
theorem Built.entry (h : t.Built names numEntries) {i : Nat} (hi : i < numEntries)
    (hname : names[t.firstSymIndex + i]? = some name) :
    t.entries[i]? = some (chainWord name (decide (t.firstSymIndex + i + 1 ∈ t.buckets))) := by
  rw [h.entries_eq, List.getElem?_zipWith_eq_some]
  exact ⟨name, _, by rw [List.getElem?_drop, hname], stopBits_get hi, rfl⟩

/-- Within a bucket no word before the last one stops the walk. -/
theorem Built.no_stop (h : t.Built names numEntries) {k x i j : Nat}
    (hhead : IsHead names t.firstSymIndex t.buckets.length k x)
    (hi : bucketAt names t.buckets.length i = some k) (hxj : x ≤ j) (hji : j < i) :
    j + 1 ∉ t.buckets := by
  intro hmem
  obtain ⟨k', hget⟩ := List.mem_iff_getElem?.mp hmem
  have hk' : k' < t.buckets.length := (List.getElem?_eq_some_iff.mp hget).1
  rcases h.bucket k' hk' with ⟨y, hy, hhead'⟩ | ⟨hzero, -⟩
  · obtain rfl : j + 1 = y := Option.some.inj (hget.symm.trans hy)
    have hbucket := h.bucketAt_between hhead hi (by omega : x ≤ j + 1) (by omega)
    obtain rfl : k = k' := Option.some.inj (hbucket.symm.trans hhead'.bucket)
    have := hhead.unique hhead'
    omega
  · simp [hget] at hzero

/-- The words a walk passes on its way to a hashed symbol. -/
theorem Built.words_between (h : t.Built names numEntries) {k x i : Nat}
    (hhead : IsHead names t.firstSymIndex t.buckets.length k x)
    (hi : bucketAt names t.buckets.length i = some k) (hin : i ≤ t.firstSymIndex + numEntries)
    {j : Nat} (hj : j < i - x) :
    ∃ e, (t.entries.drop (x - t.firstSymIndex))[j]? = some e ∧ e.getLsbD 0 = false := by
  have hfx := hhead.first_le
  obtain ⟨ni, hni, -⟩ := Option.map_eq_some_iff.mp hi
  have hilt := (List.getElem?_eq_some_iff.mp hni).1
  have hname : names[t.firstSymIndex + (x - t.firstSymIndex + j)]? = some names[x + j] := by
    rw [show t.firstSymIndex + (x - t.firstSymIndex + j) = x + j by omega]
    exact List.getElem?_eq_getElem (by omega)
  refine ⟨_, (List.getElem?_drop ..).trans (h.entry (by omega) hname), ?_⟩
  rw [chainWord_stop, decide_eq_false_iff_not,
    show t.firstSymIndex + (x - t.firstSymIndex + j) + 1 = x + j + 1 by omega]
  exact h.no_stop hhead hi (by omega) (by omega)

/-- Distinct hashed names: no hashed index before a name's own has that name. -/
theorem names_before {first x i j : Nat} (hnodup : (names.drop first).Nodup)
    (hname : names[i]? = some name) (hx : first ≤ x) (hj : x + j < i) :
    (names.drop x)[j]? ≠ some name := by
  intro heq
  rw [List.getElem?_drop, ← Nat.add_sub_cancel' (Nat.le_trans hx (Nat.le_add_right x j)),
    ← List.getElem?_drop] at heq
  rw [← Nat.add_sub_cancel' (by omega : first ≤ i), ← List.getElem?_drop] at hname
  have := (List.getElem?_inj (List.getElem?_eq_some_iff.mp heq).1 hnodup).mp
    (heq.trans hname.symm)
  omega

theorem Built.bloomPasses (h : t.Built names numEntries) (hash : BitVec 32) :
    t.bloomPasses hash = true := by
  have hbits : ∀ n, n < 64 → (BitVec.allOnes 64).getLsbD n = true := by
    intro n hn
    rw [BitVec.getLsbD_allOnes, decide_eq_true hn]
  have hmod : ∀ n, n % (if t.is64Bit then 64 else 32) < 64 := by
    intro n
    split <;> omega
  simp only [GnuHashTable.bloomPasses, h.bloomFilters, List.length_singleton, Nat.sub_self,
    Nat.and_zero, List.getElem?_cons_zero]
  rw [hbits _ (hmod _), hbits _ (hmod _), Bool.and_true]

/-- **Every hashed symbol is found**, by the rule the dynamic linker follows. -/
theorem Built.lookup_found (h : t.Built names numEntries)
    (hnodup : (names.drop t.firstSymIndex).Nodup) {i : Nat}
    (hi : t.firstSymIndex ≤ i) (hin : i < t.firstSymIndex + numEntries)
    (hname : names[i]? = some name) : t.lookup names name = .found i := by
  obtain ⟨x, hxi, hget, hhead⟩ := h.head_of_mem hi hname
  have hfx := hhead.first_le
  have hpos := h.first_pos
  have hat : bucketAt names t.buckets.length i = some (gnuBucket t.buckets.length name) := by
    rw [bucketAt, hname, Option.map_some]
  obtain ⟨x, rfl⟩ : ∃ y, x = y + 1 := ⟨x - 1, by omega⟩
  rw [lookup, if_pos (h.bloomPasses _), hget]
  show (if x + 1 < t.firstSymIndex then HashLookup.outside else _) = _
  have hword : ∃ e, (t.entries.drop (x + 1 - t.firstSymIndex))[i - (x + 1)]? = some e ∧
      e >>> 1 = name.elfGnuHash >>> 1 := by
    have hindex : t.firstSymIndex + (i - t.firstSymIndex) = i := by omega
    refine ⟨_, ?_, chainWord_hash name (decide (i + 1 ∈ t.buckets))⟩
    rw [List.getElem?_drop,
      show x + 1 - t.firstSymIndex + (i - (x + 1)) = i - t.firstSymIndex by omega,
      h.entry (by omega) (by rw [hindex, hname]), hindex]
  rw [if_neg (by omega), chainWalk_found (m := i - (x + 1)) ?_ ?_ ?_ hword]
  · congr 1
    omega
  · intro j hj
    exact h.words_between hhead hat (by omega) hj
  · intro j hj
    exact names_before hnodup hname hhead.first_le (by omega)
  · rw [List.getElem?_drop, ← hname]
    congr 1
    omega

/-- Every hashed symbol is found by the program's own lookup, even when the last one
has no chain word yet. -/
theorem Built.findSymbol_found (h : t.Built names numEntries)
    (hnodup : (names.drop t.firstSymIndex).Nodup) {i : Nat}
    (hi : t.firstSymIndex ≤ i) (hin : i ≤ t.firstSymIndex + numEntries)
    (hname : names[i]? = some name) : t.findSymbol names name = some i := by
  obtain ⟨x, hxi, hget, hhead⟩ := h.head_of_mem hi hname
  have hat : bucketAt names t.buckets.length i = some (gnuBucket t.buckets.length name) := by
    rw [bucketAt, hname, Option.map_some]
  rw [findSymbol, hget]
  show findWalk name (if t.firstSymIndex ≤ x then _ else []) (names.drop x) x = _
  rw [if_pos hhead.first_le, findWalk_found (m := i - x) ?_ ?_ ?_]
  · congr 1
    omega
  · intro j hj
    exact h.words_between hhead hat hin hj
  · intro j hj
    exact names_before hnodup hname hhead.first_le (by omega)
  · rw [List.getElem?_drop, ← hname]
    congr 1
    omega

theorem Built.verify (h : t.Built names numEntries)
    (hnodup : (names.drop t.firstSymIndex).Nodup)
    (hn : names.length ≤ t.firstSymIndex + numEntries + 1) : t.verify names = true := by
  rw [GnuHashTable.verify, Bool.or_eq_true, List.all_eq_true]
  refine .inr fun p hp => ?_
  obtain ⟨k, hk⟩ := List.mem_iff_getElem?.mp hp
  rw [List.getElem?_drop, List.getElem?_zipIdx] at hk
  obtain ⟨n, hname, rfl⟩ := Option.map_eq_some_iff.mp hk
  have hlt := (List.getElem?_eq_some_iff.mp hname).1
  rw [decide_eq_true_eq]
  have := h.findSymbol_found hnodup (by omega) (by omega) hname
  rwa [Nat.zero_add]

/-- **The last chain never ends**: a name that is not in the table but shares the bucket
of the last symbol takes the walk past the last word. -/
theorem Built.lookup_outside (h : t.Built names numEntries)
    (hn : names.length = t.firstSymIndex + numEntries) {last : CString}
    (hpos : 0 < numEntries) (hlast : names[names.length - 1]? = some last)
    (hbucket : gnuBucket t.buckets.length name = gnuBucket t.buckets.length last)
    (hname : name ∉ names) : t.lookup names name = .outside := by
  obtain ⟨x, hxi, hget, hhead⟩ := h.head_of_mem (by omega) hlast
  have hfx := hhead.first_le
  have hfirst := h.first_pos
  have hat : bucketAt names t.buckets.length (names.length - 1) =
      some (gnuBucket t.buckets.length last) := by
    rw [bucketAt, hlast, Option.map_some]
  obtain ⟨x, rfl⟩ : ∃ y, x = y + 1 := ⟨x - 1, by omega⟩
  rw [lookup, if_pos (h.bloomPasses _), hbucket, hget]
  show (if x + 1 < t.firstSymIndex then HashLookup.outside else _) = _
  rw [if_neg (by omega), chainWalk_outside ?_ fun hmem => hname (List.mem_of_mem_drop hmem)]
  intro e he
  obtain ⟨j, hj⟩ := List.mem_iff_getElem?.mp he
  rw [List.getElem?_drop] at hj
  have hlt := (List.getElem?_eq_some_iff.mp hj).1
  rw [h.entries_eq, List.length_zipWith, stopBits_length, List.length_drop] at hlt
  have hindex : t.firstSymIndex + (x + 1 - t.firstSymIndex + j) = x + 1 + j := by omega
  have hentry := h.entry (i := x + 1 - t.firstSymIndex + j) (by omega)
    (List.getElem?_eq_getElem (by omega))
  obtain rfl := Option.some.inj (hj.symm.trans hentry)
  rw [chainWord_stop, decide_eq_false_iff_not, hindex]
  by_cases hend : x + 1 + j = names.length - 1
  · -- no bucket starts behind the last symbol
    intro hmem
    obtain ⟨k, hk⟩ := List.mem_iff_getElem?.mp hmem
    rcases h.bucket k (List.getElem?_eq_some_iff.mp hk).1 with ⟨y, hy, hy'⟩ | ⟨hzero, -⟩
    · obtain rfl := Option.some.inj (hk.symm.trans hy)
      obtain ⟨_, hsome, -⟩ := Option.map_eq_some_iff.mp hy'.bucket
      have := (List.getElem?_eq_some_iff.mp hsome).1
      omega
    · simp [hk] at hzero
  · exact h.no_stop hhead hat (by omega) (by omega)

end GnuHashTable

/-! ## `buildTable` -/

theorem DynamicSymbols.sortForGnuHash_sorted (d : DynamicSymbols)
    {firstSymIndex numberOfBuckets : Nat} (hfirst : firstSymIndex ≤ d.symbols.length) :
    GnuHashTable.SortedFrom firstSymIndex numberOfBuckets
      (d.sortForGnuHash firstSymIndex numberOfBuckets).names := by
  have hlen : (d.names.take firstSymIndex).length = firstSymIndex := by
    rw [List.length_take, d.names_length, Nat.min_eq_left hfirst]
  rw [GnuHashTable.SortedFrom, sortForGnuHash_names, List.drop_append_of_le_length hlen.ge,
    List.drop_of_length_le hlen.le, List.nil_append]
  exact bubbleSort_pairwise _ _

namespace GnuHashTable

variable {t : GnuHashTable} {d : DynamicSymbols} {numEntries numBuckets : Nat}

/-- With symbol 0 hashed the bucket loop does not stop at its first index. -/
theorem fillBuckets_zero (names : List CString) (numberOfBuckets n : Nat)
    (buckets : List Nat) : fillBuckets names 0 numberOfBuckets n buckets = none := by
  induction n generalizing buckets with
  | zero => rfl
  | succ i ih =>
    rw [fillBuckets, if_pos (Nat.zero_le i)]
    cases names[i]? with
    | none => rfl
    | some name => exact ih _

/-- The bucket loop ends, and with its buckets the table is built for the sorted symbols. -/
theorem fillBuckets_built (numEntries : Nat) (hfirst : 0 < t.firstSymIndex)
    (hle : t.firstSymIndex ≤ d.symbols.length) (hbuckets : t.bucketCount numBuckets ≠ 0) :
    let d' := d.sortForGnuHash t.firstSymIndex (t.bucketCount numBuckets)
    ∃ buckets, fillBuckets d'.names t.firstSymIndex (t.bucketCount numBuckets) d'.symbols.length
        (List.replicate (t.bucketCount numBuckets) 0) = some buckets ∧
      buckets.length = t.bucketCount numBuckets ∧
      (t.rebuilt d'.names numEntries buckets).Built d'.names numEntries := by
  intro d'
  have hlen : d'.symbols.length = d.symbols.length := d.sortForGnuHash_length _ _
  have hnames : d'.names.length = d'.symbols.length := d'.names_length
  obtain ⟨buckets, hfill, hblen, hbucket⟩ := fillBuckets_spec d'.names hfirst
    (n := d'.symbols.length) (by omega) (by omega) _
    (List.length_replicate (n := t.bucketCount numBuckets) (a := 0))
  refine ⟨buckets, hfill, hblen, hfirst, ?_, rfl, ?_, fun k hk => ?_, rfl⟩
  · show 0 < buckets.length
    omega
  · show SortedFrom t.firstSymIndex buckets.length d'.names
    rw [hblen]
    exact d.sortForGnuHash_sorted hle
  · show (∃ x, buckets[k]? = some x ∧ IsHead d'.names t.firstSymIndex buckets.length k x) ∨ _
    replace hk : k < t.bucketCount numBuckets := by rw [← hblen]; exact hk
    rcases hbucket k hk with ⟨x, -, hget, hhead⟩ | ⟨hget, hnone⟩
    · exact .inl ⟨x, hget, by rwa [hblen]⟩
    · refine .inr ⟨?_, fun j hj => ?_⟩
      · show buckets[k]? = some 0
        rw [hget, List.getElem?_replicate, if_pos hk]
      · show bucketAt d'.names buckets.length j ≠ some k
        rw [hblen]
        by_cases hlt : j < d'.symbols.length
        · exact hnone j hj hlt
        · rw [bucketAt, List.getElem?_eq_none (by omega)]
          simp

/-- With distinct names `buildTable` succeeds on a table with entries. -/
theorem buildTable_built (numEntries : Nat) (hentries : t.entries ≠ []) (hfirst : 0 < t.firstSymIndex)
    (hle : t.firstSymIndex + numEntries ≤ d.symbols.length)
    (hge : d.symbols.length ≤ t.firstSymIndex + numEntries + 1)
    (hbuckets : t.bucketCount numBuckets ≠ 0) (hnodup : d.names.Nodup) :
    let d' := d.sortForGnuHash t.firstSymIndex (t.bucketCount numBuckets)
    ∃ t', t.buildTable d numEntries numBuckets = some (t', d') ∧
      t'.Built d'.names numEntries ∧ t'.firstSymIndex = t.firstSymIndex := by
  intro d'
  have hlen : d'.symbols.length = d.symbols.length := d.sortForGnuHash_length _ _
  have hnames : d'.names.length = d'.symbols.length := d'.names_length
  have hnodup' : d'.names.Nodup := (d.sortForGnuHash_names_perm _ _).nodup_iff.mpr hnodup
  obtain ⟨buckets, hfill, -, hbuilt⟩ := fillBuckets_built (d := d) numEntries
    hfirst (by omega) hbuckets
  refine ⟨t.rebuilt d'.names numEntries buckets, ?_, hbuilt, rfl⟩
  have hverify : (t.rebuilt d'.names numEntries buckets).verify d'.names = true :=
    hbuilt.verify (hnodup'.sublist (List.drop_sublist ..)) (by
      show d'.names.length ≤ t.firstSymIndex + numEntries + 1
      omega)
  rw [buildTable, if_neg hentries]
  simp only [if_neg hbuckets]
  have hfill' : fillBuckets (d.sortForGnuHash t.firstSymIndex (t.bucketCount numBuckets)).names
      t.firstSymIndex _ (d.sortForGnuHash t.firstSymIndex (t.bucketCount numBuckets)).symbols.length
      _ = some buckets := hfill
  rw [hfill']
  show (if d'.symbols.length - t.firstSymIndex < numEntries then none
    else if (t.rebuilt d'.names numEntries buckets).verify d'.names then
      some (t.rebuilt d'.names numEntries buckets, d') else none) = _
  rw [if_neg (by omega), hverify, if_pos rfl]

theorem buildTable_zero (hentries : t.entries ≠ []) (hfirst : t.firstSymIndex = 0) :
    t.buildTable d numEntries numBuckets = none := by
  rw [buildTable, if_neg hentries]
  by_cases hbuckets : t.bucketCount numBuckets = 0
  · simp only [if_pos hbuckets]
  · simp only [if_neg hbuckets, hfirst, fillBuckets_zero]

theorem buildTable_bucketCount (hentries : t.entries ≠ [])
    (hbuckets : t.bucketCount numBuckets = 0) :
    t.buildTable d numEntries numBuckets = none := by
  rw [buildTable, if_neg hentries]
  simp only [if_pos hbuckets]

/-- What `buildTable` has done when it returns. -/
theorem buildTable_some {t' : GnuHashTable} {d' : DynamicSymbols} (hentries : t.entries ≠ [])
    (hle : t.firstSymIndex ≤ d.symbols.length)
    (h : t.buildTable d numEntries numBuckets = some (t', d')) :
    t.bucketCount numBuckets ≠ 0 ∧
      d' = d.sortForGnuHash t.firstSymIndex (t.bucketCount numBuckets) ∧
      t'.Built d'.names numEntries ∧ t'.verify d'.names = true ∧
      t.firstSymIndex + numEntries ≤ d.symbols.length ∧
      t'.firstSymIndex = t.firstSymIndex ∧ t'.buckets.length = t.bucketCount numBuckets := by
  have hpos : 0 < t.firstSymIndex := by
    by_contra hzero
    rw [buildTable_zero hentries (by omega)] at h
    cases h
  have hbuckets : t.bucketCount numBuckets ≠ 0 := by
    intro hzero
    rw [buildTable_bucketCount hentries hzero] at h
    cases h
  obtain ⟨buckets, hfill, hblen, hbuilt⟩ := fillBuckets_built (d := d) numEntries
    hpos hle hbuckets
  have hlen := d.sortForGnuHash_length t.firstSymIndex (t.bucketCount numBuckets)
  rw [buildTable, if_neg hentries] at h
  simp only [if_neg hbuckets, hfill, Option.ite_none_left_eq_some,
    Option.ite_none_right_eq_some, Option.some.injEq, Prod.mk.injEq] at h
  obtain ⟨hnum, hverify, rfl, rfl⟩ := h
  exact ⟨hbuckets, rfl, hbuilt, hverify, by omega, rfl, hblen⟩

/-- `verify` has found the hashed names to be distinct. -/
theorem verify_nodup {names : List CString} (hentries : t.entries ≠ [])
    (hverify : t.verify names = true) : (names.drop t.firstSymIndex).Nodup := by
  rw [verify, Bool.or_eq_true, List.all_eq_true] at hverify
  have hall := hverify.resolve_left (by simpa using hentries)
  have hfind : ∀ i name, (names.drop t.firstSymIndex)[i]? = some name →
      t.findSymbol names name = some (t.firstSymIndex + i) := by
    intro i name hname
    have hmem : (name, t.firstSymIndex + i) ∈ names.zipIdx.drop t.firstSymIndex := by
      refine List.mem_of_getElem? (i := i) ?_
      rw [List.getElem?_drop] at hname ⊢
      rw [List.getElem?_zipIdx, hname, Option.map_some, Nat.zero_add]
    exact of_decide_eq_true (hall _ hmem)
  refine List.nodup_iff_getElem?_ne_getElem?.mpr fun i j hij hj heq => ?_
  have hi := hfind i _ (List.getElem?_eq_getElem (by omega))
  have hj := hfind j _ (heq.symm.trans (List.getElem?_eq_getElem (by omega)))
  have := Option.some.inj (hi.symm.trans hj)
  omega

/-! ## When the rebuilt table answers every lookup -/

/-- A section as the format asks for it: buckets and bloom words exist, and a bucket
that is not empty starts at one of the table's entries. -/
structure WellFormed (t : GnuHashTable) : Prop where
  buckets_pos : 0 < t.buckets.length
  bloomFilters_pos : 0 < t.bloomFilters.length
  bucket_entry : ∀ b ∈ t.buckets, b ≠ 0 →
    t.firstSymIndex ≤ b ∧ b < t.firstSymIndex + t.entries.length

/-- The table answers for the symbols: the hashed ones are found, other names are
reported absent, and no lookup leaves the table. -/
structure Answers (t : GnuHashTable) (names : List CString) : Prop where
  found : ∀ i name, t.firstSymIndex ≤ i → names[i]? = some name → t.lookup names name = .found i
  absent : ∀ name, name ∉ names → t.lookup names name = .absent
  inside : ∀ name, t.lookup names name ≠ .outside

/-- A table whose buckets are all empty reports every name absent. -/
theorem lookup_of_empty (hpos : 0 < t.buckets.length) (hzero : ∀ b ∈ t.buckets, b = 0)
    (names : List CString) (name : CString) : t.lookup names name = .absent := by
  rw [lookup]
  split
  · have hlt := gnuBucket_lt hpos name
    have hget : t.buckets[gnuBucket t.buckets.length name]? = some 0 := by
      rw [List.getElem?_eq_getElem hlt, hzero _ (List.getElem_mem hlt)]
    rw [hget]
    rfl
  · rfl

theorem answers_of_empty (hpos : 0 < t.buckets.length) (hzero : ∀ b ∈ t.buckets, b = 0)
    {names : List CString} (hn : names.length = t.firstSymIndex) : t.Answers names where
  found i name hi hname := by
    have := (List.getElem?_eq_some_iff.mp hname).1
    omega
  absent name _ := lookup_of_empty hpos hzero names name
  inside name := by
    rw [lookup_of_empty hpos hzero]
    simp

/-- A well-formed table without entries has only empty buckets. -/
theorem WellFormed.buckets_zero (hwf : t.WellFormed) (hentries : t.entries = []) :
    ∀ b ∈ t.buckets, b = 0 := by
  intro b hb
  by_contra hne
  have := hwf.bucket_entry b hb hne
  rw [hentries, List.length_nil] at this
  omega

/-- A table with hashed symbols does not answer every lookup. -/
theorem Built.not_answers {names : List CString} (h : t.Built names numEntries)
    (hn : names.length = t.firstSymIndex + numEntries) (hpos : 0 < numEntries) :
    ¬ t.Answers names := by
  intro hanswers
  have hlast : names[names.length - 1]? = some names[names.length - 1] :=
    List.getElem?_eq_getElem (by omega)
  -- a name outside the table with the last symbol's hash
  obtain ⟨name, hname, hhash⟩ := CString.exists_elfGnuHash_eq names[names.length - 1] names
  have hbucket : gnuBucket t.buckets.length name = gnuBucket t.buckets.length _ :=
    congrArg (fun h : BitVec 32 => h.toNat % t.buckets.length) hhash
  exact hanswers.inside name (h.lookup_outside hn hpos hlast hbucket hname)

/-- **The rebuilt table answers exactly when it hashes no symbol**: as soon as one
symbol is hashed the last chain has no end. With nothing hashed, a table that had no
entries is left alone, and one that had entries is emptied, if it keeps a bucket and
does not hash symbol 0. -/
theorem buildTable_answers_iff (numBuckets : Nat) (hwf : t.WellFormed) (hnodup : d.names.Nodup)
    (hfirst : t.firstSymIndex ≤ d.symbols.length) :
    (∃ t' d', t.buildTable d (d.symbols.length - t.firstSymIndex) numBuckets = some (t', d') ∧
      t'.Answers d'.names) ↔
    d.symbols.length = t.firstSymIndex ∧
      (t.entries = [] ∨ 0 < t.firstSymIndex ∧ t.bucketCount numBuckets ≠ 0) := by
  by_cases hentries : t.entries = []
  · -- nothing is rebuilt
    have hbuild : t.buildTable d (d.symbols.length - t.firstSymIndex) numBuckets = some (t, d) := by
      rw [buildTable, if_pos hentries]
    have hzero := hwf.buckets_zero hentries
    constructor
    · rintro ⟨t', d', hresult, hanswers⟩
      obtain ⟨rfl, rfl⟩ := Prod.mk.inj (Option.some.inj (hbuild.symm.trans hresult))
      refine ⟨?_, .inl hentries⟩
      by_contra hne
      have hlt : t.firstSymIndex < d.names.length := by
        rw [d.names_length]
        omega
      have hfound := hanswers.found _ _ (Nat.le_refl _) (List.getElem?_eq_getElem hlt)
      rw [lookup_of_empty hwf.buckets_pos hzero] at hfound
      cases hfound
    · rintro ⟨hn, -⟩
      exact ⟨t, d, hbuild, answers_of_empty hwf.buckets_pos hzero (by rw [d.names_length, hn])⟩
  by_cases hpos : t.firstSymIndex = 0
  · rw [buildTable_zero hentries hpos]
    simp [hentries, hpos]
  by_cases hbuckets : t.bucketCount numBuckets = 0
  · rw [buildTable_bucketCount hentries hbuckets]
    simp [hentries, hbuckets]
  obtain ⟨t', hbuild, hbuilt, hsame⟩ := buildTable_built (d := d)
    (d.symbols.length - t.firstSymIndex) hentries (by omega) (by omega) (by omega)
    hbuckets hnodup
  have hlen : (d.sortForGnuHash t.firstSymIndex (t.bucketCount numBuckets)).names.length =
      d.symbols.length := by
    rw [DynamicSymbols.names_length, DynamicSymbols.sortForGnuHash_length]
  constructor
  · rintro ⟨t₁, d₁, hresult, hanswers⟩
    obtain ⟨rfl, rfl⟩ := Prod.mk.inj (Option.some.inj (hbuild.symm.trans hresult))
    refine ⟨?_, .inr ⟨by omega, hbuckets⟩⟩
    by_contra hne
    exact hbuilt.not_answers (by omega) (by omega) hanswers
  · rintro ⟨hn, -⟩
    refine ⟨t', _, hbuild, answers_of_empty hbuilt.buckets_pos (fun b hb => ?_) (by omega)⟩
    -- a bucket that is not empty would start at a hashed index
    obtain ⟨k, hk⟩ := List.mem_iff_getElem?.mp hb
    rcases hbuilt.bucket k (List.getElem?_eq_some_iff.mp hk).1 with ⟨x, -, hhead⟩ | ⟨hzero, -⟩
    · obtain ⟨_, hsome, -⟩ := Option.map_eq_some_iff.mp hhead.bucket
      have := (List.getElem?_eq_some_iff.mp hsome).1
      have := hhead.first_le
      omega
    · exact Option.some.inj (hk.symm.trans hzero)

/-! ## One hashed symbol -/

/-- The string of one letter `n` below 256, or the empty string for 0. -/
def letter (n : Nat) : CString where
  bytes := if BitVec.ofNat 8 n = 0 then [] else [BitVec.ofNat 8 n]
  nonzero := by
    split
    next => exact List.not_mem_nil
    next h => simpa using fun h' => h h'.symm

/-- The null symbol and a symbol named `a`. -/
def oneSymbol : DynamicSymbols where
  sectionIndex := 3
  symbols := [⟨letter 0, 0, 0, 0, 0, 0⟩, ⟨letter 97, 0x1000, 8, 0x12, 0, 7⟩]
  versym := [0, 1]
  relocationTables := []
  versym_length := rfl

/-- The section a linker writes for it: one bucket, and the chain ends. -/
def oneSymbolTable : GnuHashTable where
  is64Bit := true
  firstSymIndex := 1
  shiftCount := 6
  bloomFilters := [BitVec.allOnes 64]
  buckets := [1]
  entries := [chainWord (letter 97) true]

theorem oneSymbolTable_wellFormed : oneSymbolTable.WellFormed where
  buckets_pos := by decide
  bloomFilters_pos := by decide
  bucket_entry := by decide

theorem buildTable_answers_iff_oneSymbol :
    ¬ (∃ t' d', oneSymbolTable.buildTable oneSymbol 1 1 = some (t', d') ∧ t'.Answers d'.names) :=
  fun h => absurd ((buildTable_answers_iff 1 oneSymbolTable_wellFormed (by decide)
    (by decide)).mp h).1 (by decide)

/-- The linker's table ends the lookup of `b`; after `buildTable` it leaves the table. -/
theorem oneSymbol_outside :
    oneSymbolTable.lookup oneSymbol.names (letter 98) = .absent ∧
      (oneSymbolTable.buildTable oneSymbol 1 1).map
        (fun r => (decide (letter 98 ∈ r.2.names), r.1.lookup r.2.names (letter 98))) =
        some (false, .outside) := by
  decide

end GnuHashTable

end Pebil

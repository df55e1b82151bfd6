import Pebil.Dwarf.LineProgram
import Pebil.Lib.BinarySearch
import Mathlib.Data.List.Sort

/-!
# From addresses to lines (src/LineInformation.C:71–114, 153–173)

`LineInfoFinder` puts the rows of all tables into one list, except those of address 0, sorts it
by address and gives each row the span to the row behind it in this list, whatever sequence that
row is of. The last row keeps the span 0 it was created with.

`qsort` may put rows of one address in any order, and so it is a parameter. The lookup comes to
the last row at or below the address, if there is a row above it (`lookupLineInfo_eq`).
-/

namespace Pebil

/-- A `LineInfo`: its registers and its `addressSpan`. -/
structure LineInfo where
  entry : LineRegisters
  addressSpan : BitVec 64
  deriving DecidableEq, Repr

/-- What `qsort` with `compareLineInfoAddress` does: it leaves open in what order rows of one
address come. -/
structure AddressSort where
  sort : List LineRegisters → List LineRegisters
  perm : ∀ rows, (sort rows).Perm rows
  sorted : ∀ rows, (sort rows).Pairwise fun r r' => r.address ≤ r'.address

/-- `searchLineInfoAddress`. -/
def searchLineInfoAddress (key : BitVec 64) (li : LineInfo) : Int :=
  let val := li.entry.address
  if key < val then -1
  else if val + li.addressSpan ≤ key then 1
  else 0

namespace LineInfoFinder

/-- The spans that the loop of the constructor sets. -/
def withSpans : List LineRegisters → List LineInfo
  | [] => []
  | [row] => [⟨row, 0⟩]
  | row :: next :: rows => ⟨row, next.address - row.address⟩ :: withSpans (next :: rows)

/-- The constructor. Of no row at all, `size() - 1` is the greatest number there is, and
`sortedLineInfos[0]` ends the program. -/
def sortedLineInfos (qsort : AddressSort) (rows : List LineRegisters) : Option (List LineInfo) :=
  match qsort.sort (rows.filter (·.address ≠ 0)) with
  | [] => none
  | infos => some (withSpans infos)

/-- `LineInfoFinder::lookupLineInfo`. -/
def lookupLineInfo (infos : List LineInfo) (addr : BitVec 64) : Option LineRegisters :=
  (bsearch (searchLineInfoAddress addr) infos).map LineInfo.entry

end LineInfoFinder

/-! ## Sequences -/

/-- A sequence of rows, with the `end_sequence` row behind them. -/
structure LineSequence where
  rows : List LineRegisters
  last : LineRegisters
  rows_open : ∀ row ∈ rows, row.endSequence = 0
  last_end : last.endSequence ≠ 0
  nondecreasing : (rows ++ [last]).Pairwise fun r r' => r.address ≤ r'.address

/-- All rows, in the order of the file. -/
def LineSequence.all (s : LineSequence) : List LineRegisters := s.rows ++ [s.last]

/-- The rows of a file. -/
def lineRows (file : List LineSequence) : List LineRegisters := file.flatMap LineSequence.all

/-- The row is one of a sequence, and `next` is the one behind it. -/
def Followed (file : List LineSequence) (row next : LineRegisters) : Prop :=
  ∃ s ∈ file, [row, next] <:+: s.all

/-- The row stands for the address. -/
def Covers (file : List LineSequence) (addr : BitVec 64) (row : LineRegisters) : Prop :=
  ∃ next, Followed file row next ∧ row.address ≤ addr ∧ addr < next.address

/-- What is found stands for the address, and nothing is found only if no row does. -/
def LookedUp (qsort : AddressSort) (file : List LineSequence) (addr : BitVec 64) : Prop :=
  ∃ infos, LineInfoFinder.sortedLineInfos qsort (lineRows file) = some infos ∧
    match LineInfoFinder.lookupLineInfo infos addr with
    | some row => Covers file addr row
    | none => ∀ row, ¬Covers file addr row

/-- The row is no `end_sequence` row, and the one behind it has another address. -/
def Spans (file : List LineSequence) (row : LineRegisters) : Prop :=
  ∃ next, Followed file row next ∧ next.address ≠ row.address

/-- Of the rows that the finder keeps, the one that `qsort` puts last among those at or below an
address. -/
def lastBelowAddress (qsort : AddressSort) (file : List LineSequence) (addr : BitVec 64) :
    Option LineRegisters :=
  ((qsort.sort ((lineRows file).filter (·.address ≠ 0))).filter (·.address ≤ addr)).getLast?

/-- There is a row of another address than 0. If none of these is at or below the address, no
row of address 0 spans anything. If one is, there is no row above the address, or the one that is
sorted last spans something. -/
structure Findable (qsort : AddressSort) (file : List LineSequence) (addr : BitVec 64) : Prop where
  nonempty : ∃ row ∈ lineRows file, row.address ≠ 0
  zero : lastBelowAddress qsort file addr = none → ∀ row, row.address = 0 → ¬Spans file row
  last : ∀ row, lastBelowAddress qsort file addr = some row →
    (∃ above ∈ lineRows file, addr < above.address) → Spans file row

/-! ## The search -/

namespace LineInfoFinder

variable {rows low high : List LineRegisters} {addr : BitVec 64}

theorem withSpans_cons (row : LineRegisters) (rows : List LineRegisters) :
    ∃ span, withSpans (row :: rows) = ⟨row, span⟩ :: withSpans rows := by
  cases rows with
  | nil => exact ⟨0, rfl⟩
  | cons next rows => exact ⟨_, rfl⟩

theorem map_withSpans (rows : List LineRegisters) : (withSpans rows).map LineInfo.entry = rows := by
  induction rows with
  | nil => rfl
  | cons row rows ih =>
    obtain ⟨span, h⟩ := withSpans_cons row rows
    rw [h, List.map_cons, ih]

theorem entry_mem_of_mem {li : LineInfo} (h : li ∈ withSpans rows) : li.entry ∈ rows := by
  have := List.mem_map_of_mem (f := LineInfo.entry) h
  rwa [map_withSpans] at this

/-- In front of a row, every span ends at a row. -/
theorem withSpans_append (low : List LineRegisters) (row : LineRegisters)
    (high : List LineRegisters) :
    ∃ before, withSpans (low ++ row :: high) = before ++ withSpans (row :: high) ∧
      ∀ li ∈ before, ∃ next ∈ low ++ [row], li.entry.address + li.addressSpan = next.address := by
  induction low with
  | nil => exact ⟨[], rfl, by simp⟩
  | cons r low ih =>
    obtain ⟨before, heq, hbefore⟩ := ih
    have hnext : ∀ next rest, low ++ row :: high = next :: rest → next ∈ low ++ [row] := by
      intro next rest h
      cases low with
      | nil =>
        obtain ⟨rfl, -⟩ := List.cons.inj h
        exact List.mem_cons_self ..
      | cons r' low =>
        obtain ⟨rfl, -⟩ := List.cons.inj h
        exact List.mem_cons_self ..
    obtain ⟨next, rest, hrest⟩ := List.exists_cons_of_ne_nil
      (show low ++ row :: high ≠ [] by simp)
    refine ⟨⟨r, next.address - r.address⟩ :: before, ?_, List.forall_mem_cons.mpr ⟨?_, ?_⟩⟩
    · rw [List.cons_append, hrest, withSpans, ← hrest, heq, List.cons_append]
    · refine ⟨next, List.mem_cons_of_mem _ (hnext next rest hrest), ?_⟩
      show r.address + (next.address - r.address) = next.address
      rw [BitVec.add_comm, BitVec.sub_add_cancel]
    · intro li hli
      obtain ⟨n, hn, h⟩ := hbefore li hli
      exact ⟨n, List.mem_cons_of_mem _ hn, h⟩

theorem search_above {li : LineInfo} (h : addr < li.entry.address) :
    searchLineInfoAddress addr li = -1 := if_pos h

/-- A span that ends at or below the address. -/
theorem search_below {li : LineInfo} {next : LineRegisters} (haddr : li.entry.address ≤ addr)
    (hnext : next.address ≤ addr) (hspan : li.entry.address + li.addressSpan = next.address) :
    searchLineInfoAddress addr li = 1 := by
  unfold searchLineInfoAddress
  rw [if_neg (BitVec.not_lt.mpr haddr), if_pos (hspan ▸ hnext)]

theorem search_at {row next : LineRegisters} (haddr : row.address ≤ addr)
    (hnext : addr < next.address) :
    searchLineInfoAddress addr ⟨row, next.address - row.address⟩ = 0 := by
  unfold searchLineInfoAddress
  simp only
  rw [if_neg (BitVec.not_lt.mpr haddr), if_neg]
  rw [BitVec.add_comm, BitVec.sub_add_cancel]
  exact BitVec.not_le.mpr hnext

/-- Nothing is found where no entry compares equal. -/
theorem bsearch_eq_none {α : Type} {cmp : α → Int} {l : List α} (h : ∀ x ∈ l, cmp x ≠ 0) :
    bsearch cmp l = none := by
  cases hfind : bsearch cmp l with
  | none => rfl
  | some x => exact absurd (bsearch_sound hfind).2 (h x (bsearch_sound hfind).1)

/-- **The lookup comes to the last row at or below the address**, unless there is none above
it. -/
theorem lookupLineInfo_eq (hlow : ∀ row ∈ low, row.address ≤ addr)
    (hhigh : ∀ row ∈ high, addr < row.address) :
    lookupLineInfo (withSpans (low ++ high)) addr = if high = [] then none else low.getLast? := by
  have habove : ∀ li ∈ withSpans high, searchLineInfoAddress addr li = -1 := fun li hli =>
    search_above (hhigh _ (entry_mem_of_mem hli))
  rcases List.eq_nil_or_concat low with rfl | ⟨low, row, rfl⟩
  · have hnone : bsearch (searchLineInfoAddress addr) (withSpans high) = none :=
      bsearch_eq_none fun li hli => by rw [habove li hli]; decide
    rw [List.nil_append, lookupLineInfo, hnone]
    simp
  · rw [List.concat_eq_append] at hlow ⊢
    rw [List.append_assoc, List.singleton_append, List.getLast?_concat]
    obtain ⟨before, heq, hspan⟩ := withSpans_append low row high
    have hbefore : ∀ li ∈ before, searchLineInfoAddress addr li = 1 := by
      intro li hli
      obtain ⟨next, hnext, hend⟩ := hspan li hli
      have hmap := congrArg (List.map LineInfo.entry) heq
      rw [List.map_append, map_withSpans, map_withSpans] at hmap
      have hentry : li.entry ∈ low ++ [row] :=
        List.mem_append_left _ (List.append_cancel_right hmap ▸ List.mem_map_of_mem hli)
      exact search_below (hlow _ hentry) (hlow _ hnext) hend
    cases high with
    | nil =>
      -- the last row of all spans nothing
      have hlast : searchLineInfoAddress addr ⟨row, 0⟩ = 1 :=
        search_below (hlow row (by simp)) (hlow row (by simp)) (BitVec.add_zero _)
      rw [lookupLineInfo, heq, bsearch_eq_none]
      · rfl
      · intro li hli
        rcases List.mem_append.mp hli with hli | hli
        · rw [hbefore li hli]
          decide
        · rw [List.mem_singleton.mp hli, hlast]
          decide
    | cons next high =>
      have hrow := search_at (hlow row (by simp)) (hhigh next (by simp))
      have hge : ∀ li ∈ before, 0 ≤ searchLineInfoAddress addr li := fun li hli => by
        rw [hbefore li hli]
        decide
      have hle : ∀ li ∈ withSpans (next :: high), searchLineInfoAddress addr li ≤ 0 :=
        fun li hli => by
          rw [habove li hli]
          decide
      obtain ⟨li, hfind⟩ := bsearch_complete hge hrow hle
      obtain ⟨hmem, hzero⟩ := bsearch_sound hfind
      rw [if_neg (List.cons_ne_nil _ _), lookupLineInfo, heq, withSpans, hfind, Option.map_some]
      rcases List.mem_append.mp hmem with hli | hli
      · rw [hbefore li hli] at hzero
        cases hzero
      · rcases List.mem_cons.mp hli with rfl | hli
        · rfl
        · rw [habove li hli] at hzero
          cases hzero

end LineInfoFinder

/-! ## What is looked up -/

section LookedUp

variable {qsort : AddressSort} {file : List LineSequence} {addr : BitVec 64}
  {row next : LineRegisters} {rows : List LineRegisters}

theorem Followed.mem (h : Followed file row next) : row ∈ lineRows file ∧ next ∈ lineRows file := by
  obtain ⟨s, hs, hinfix⟩ := h
  exact ⟨List.mem_flatMap.mpr ⟨s, hs, hinfix.subset (by simp)⟩,
    List.mem_flatMap.mpr ⟨s, hs, hinfix.subset (by simp)⟩⟩

/-- Addresses do not decrease in a sequence. -/
theorem Followed.le (h : Followed file row next) : row.address ≤ next.address := by
  obtain ⟨s, -, hinfix⟩ := h
  have hpair := s.nondecreasing.sublist hinfix.sublist
  exact (List.pairwise_cons.mp hpair).1 next (List.mem_singleton_self next)

/-- A sorted list is the rows at or below an address and then those above it. -/
theorem filter_append_filter (h : rows.Pairwise fun r r' => r.address ≤ r'.address)
    (addr : BitVec 64) :
    rows.filter (·.address ≤ addr) ++ rows.filter (addr < ·.address) = rows := by
  induction rows with
  | nil => rfl
  | cons r rows ih =>
    obtain ⟨hr, hrows⟩ := List.pairwise_cons.mp h
    by_cases hle : r.address ≤ addr
    · rw [List.filter_cons_of_pos (by simpa using hle),
        List.filter_cons_of_neg (by simpa using BitVec.not_lt.mpr hle), List.cons_append, ih hrows]
    · have hlt := BitVec.not_le.mp hle
      -- nothing behind it is at or below the address
      have hnone : rows.filter (·.address ≤ addr) = [] := by
        refine List.filter_eq_nil_iff.mpr fun r' hr' => ?_
        simpa using BitVec.not_le.mpr (Nat.lt_of_lt_of_le hlt (hr r' hr'))
      have ih := ih hrows
      rw [hnone, List.nil_append] at ih
      rw [List.filter_cons_of_neg (by simpa using hlt), List.filter_cons_of_pos (by simpa using hlt),
        hnone, List.nil_append, ih]

/-- The rows that the finder keeps, in their order. -/
def keptRows (qsort : AddressSort) (file : List LineSequence) : List LineRegisters :=
  qsort.sort ((lineRows file).filter (·.address ≠ 0))

theorem mem_keptRows : row ∈ keptRows qsort file ↔ row ∈ lineRows file ∧ row.address ≠ 0 := by
  rw [keptRows, (qsort.perm _).mem_iff, List.mem_filter, decide_eq_true_eq]

theorem sortedLineInfos_eq_some {infos : List LineInfo} :
    LineInfoFinder.sortedLineInfos qsort (lineRows file) = some infos ↔
      keptRows qsort file ≠ [] ∧ infos = LineInfoFinder.withSpans (keptRows qsort file) := by
  show (match keptRows qsort file with
    | [] => none
    | infos => some (LineInfoFinder.withSpans infos)) = some infos ↔ _
  cases keptRows qsort file with
  | nil => simp
  | cons r rows => simp [eq_comm]

theorem keptRows_ne_nil :
    keptRows qsort file ≠ [] ↔ ∃ row ∈ lineRows file, row.address ≠ 0 := by
  rw [Ne, List.eq_nil_iff_forall_not_mem]
  simp only [mem_keptRows, not_forall, not_not]

/-- The lookup among the rows of a file. -/
theorem lookup_keptRows (qsort : AddressSort) (file : List LineSequence) (addr : BitVec 64) :
    LineInfoFinder.lookupLineInfo (LineInfoFinder.withSpans (keptRows qsort file)) addr =
      if (keptRows qsort file).filter (addr < ·.address) = [] then none
      else lastBelowAddress qsort file addr := by
  have hsorted : (keptRows qsort file).Pairwise fun r r' => r.address ≤ r'.address := qsort.sorted _
  conv_lhs => rw [← filter_append_filter hsorted addr]
  exact LineInfoFinder.lookupLineInfo_eq (fun r hr => by simpa using (List.mem_filter.mp hr).2)
    (fun r hr => by simpa using (List.mem_filter.mp hr).2)

theorem above_eq_nil :
    (keptRows qsort file).filter (addr < ·.address) = [] ↔
      ¬∃ above ∈ lineRows file, addr < above.address := by
  rw [List.filter_eq_nil_iff]
  constructor
  · rintro h ⟨above, hmem, hlt⟩
    have hne : above.address ≠ 0 := fun hzero => by
      rw [hzero] at hlt
      exact BitVec.not_lt_zero hlt
    exact h above (mem_keptRows.mpr ⟨hmem, hne⟩) (by simpa using hlt)
  · intro h r hr hlt
    exact h ⟨r, (mem_keptRows.mp hr).1, by simpa using hlt⟩

/-- A row that covers the address spans something. -/
theorem Covers.spans (h : Covers file addr row) : Spans file row := by
  obtain ⟨next, hfollowed, hle, hlt⟩ := h
  refine ⟨next, hfollowed, fun heq => ?_⟩
  rw [heq] at hlt
  exact BitVec.not_lt.mpr hle hlt

theorem Covers.above (h : Covers file addr row) : ∃ above ∈ lineRows file, addr < above.address := by
  obtain ⟨next, hfollowed, -, hlt⟩ := h
  exact ⟨next, hfollowed.mem.2, hlt⟩

/-- The last row at or below the address covers it if it spans anything. -/
theorem Spans.covers (h : Spans file row) (hlast : lastBelowAddress qsort file addr = some row) :
    Covers file addr row := by
  obtain ⟨next, hfollowed, hne⟩ := h
  have hrow := (List.mem_filter.mp (List.mem_of_getLast? hlast)).2
  refine ⟨next, hfollowed, by simpa using hrow, ?_⟩
  by_contra hle
  have hle := BitVec.not_lt.mp hle
  have hnonzero : next.address ≠ 0 := fun hzero => hne (by
    have hrowle := hfollowed.le
    rw [hzero] at hrowle ⊢
    exact (BitVec.le_zero_iff.mp hrowle).symm)
  have hmem : next ∈ (keptRows qsort file).filter (·.address ≤ addr) :=
    List.mem_filter.mpr ⟨mem_keptRows.mpr ⟨hfollowed.mem.2, hnonzero⟩, by simpa using hle⟩
  obtain ⟨before, heq⟩ := List.getLast?_eq_some_iff.mp hlast
  have hsorted := (qsort.sorted ((lineRows file).filter (·.address ≠ 0))).filter (·.address ≤ addr)
  rw [heq] at hsorted
  have hnext : next.address ≤ row.address := by
    rw [keptRows, heq] at hmem
    rcases List.mem_append.mp hmem with hbefore | hself
    · exact (List.pairwise_append.mp hsorted).2.2 next hbefore row (by simp)
    · rw [List.mem_singleton.mp hself]
      exact BitVec.le_refl _
  exact hne (BitVec.le_antisymm hnext hfollowed.le)

/-- Where nothing kept is at or below the address, what covers it has address 0. -/
theorem Covers.eq_zero (h : Covers file addr row) (hnone : lastBelowAddress qsort file addr = none) :
    row.address = 0 := by
  obtain ⟨next, hfollowed, hle, -⟩ := h
  by_contra hne
  have hnil : (keptRows qsort file).filter (·.address ≤ addr) = [] := List.getLast?_eq_none_iff.mp hnone
  exact List.filter_eq_nil_iff.mp hnil row (mem_keptRows.mpr ⟨hfollowed.mem.1, hne⟩) (by simpa using hle)

/-- A row of address 0 that spans something covers an address that no kept row is below. -/
theorem Spans.covers_of_zero (h : Spans file row) (hzero : row.address = 0)
    (hnone : lastBelowAddress qsort file addr = none) : Covers file addr row := by
  obtain ⟨next, hfollowed, hne⟩ := h
  refine ⟨next, hfollowed, ?_, ?_⟩
  · rw [hzero]
    exact Nat.zero_le addr.toNat
  · have hnil : (keptRows qsort file).filter (·.address ≤ addr) = [] :=
      List.getLast?_eq_none_iff.mp hnone
    have hmem : next ∈ keptRows qsort file := mem_keptRows.mpr ⟨hfollowed.mem.2, hzero ▸ hne⟩
    have hnot := List.filter_eq_nil_iff.mp hnil next hmem
    simpa using hnot

end LookedUp

/-! ## A gap between sequences -/

/-- Rows of one address stay in the order of the file. -/
def stableSort : AddressSort where
  sort := List.insertionSort fun r r' => r.address ≤ r'.address
  perm := List.perm_insertionSort _
  sorted := fun rows =>
    haveI : Std.Total fun r r' : LineRegisters => r.address ≤ r'.address :=
      ⟨fun r r' => BitVec.le_total r.address r'.address⟩
    haveI : IsTrans LineRegisters fun r r' => r.address ≤ r'.address :=
      ⟨fun _ _ _ => BitVec.le_trans⟩
    List.pairwise_insertionSort _ rows

/-- A row with an address and a line. -/
def lineRow (address : BitVec 64) (line : BitVec 32) (endSequence : BitVec 8) : LineRegisters :=
  ⟨address, 1, line, 0, 0, 0, 1, 0, endSequence, 0, 0⟩

/-- A row from one address up to another. -/
def shortSequence (start stop : BitVec 64) (h : start ≤ stop) : LineSequence where
  rows := [lineRow start 1 0]
  last := lineRow stop 1 1
  rows_open := by simp [lineRow]
  last_end := by simp [lineRow]
  nondecreasing := by simpa [lineRow] using h

/-- Two sequences with 32 bytes between them. -/
def gapFile : List LineSequence :=
  [shortSequence 0x10 0x20 (by decide), shortSequence 0x40 0x50 (by decide)]

/-- A row that has another behind it does not end its sequence. -/
theorem Followed.open {file : List LineSequence} {row next : LineRegisters}
    (h : Followed file row next) : row.endSequence = 0 := by
  obtain ⟨s, -, before, after, heq⟩ := h
  have hdrop := congrArg List.dropLast heq
  rw [LineSequence.all, List.dropLast_concat, List.append_assoc, List.cons_append] at hdrop
  rw [List.dropLast_append_of_ne_nil (by simp), List.dropLast_cons_of_ne_nil (by simp)] at hdrop
  exact s.rows_open row (hdrop ▸ by simp)

end Pebil

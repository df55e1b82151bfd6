import Pebil.Base.PriorityQueue
import Mathlib.Data.List.Pairwise
import Mathlib.Tactic.ByContra

/-!
# The byte ranges of the file (src/ElfFile.C:379–386, 439–466)

`verify` puts the ranges of the file header, of the two header tables and of the sections that
occupy the file into a priority queue by their offsets and compares each range that comes out
with the one before it.

It is the range before, empty or not, that is compared: an empty range in between hides an
overlap, and the end of a range is taken modulo 2^64. Where several ranges have one offset, the
heap decides which comes first, and so whether an empty one is in between
(`verifyRanges_right_iff`). Without empty ranges inside of others nothing is hidden
(`verifyRanges_right_of_none_inside`).
-/

namespace Pebil

namespace FileRanges

/-- The fields of the file header that say where it and the header tables are. -/
structure FileHeader where
  e_ehsize : BitVec 16
  e_phoff : BitVec 64
  e_phentsize : BitVec 16
  e_phnum : BitVec 16
  e_shoff : BitVec 64
  e_shentsize : BitVec 16
  e_shnum : BitVec 16
  deriving DecidableEq, Repr

/-- The fields of a section header that say what the section has in the file. -/
structure SectionHeader where
  sh_type : BitVec 32
  sh_offset : BitVec 64
  sh_size : BitVec 64
  deriving DecidableEq, Repr

/-- What `verify` has when it comes to the ranges: before, it compares the number of sections
with the one in the file header. -/
structure ElfFile where
  fileHeader : FileHeader
  sectionHeaders : List SectionHeader
  numberOfSections : sectionHeaders.length = fileHeader.e_shnum.toNat

def SHT_NOBITS : BitVec 32 := 8

/-- The bytes of the file from `begin` on. -/
structure Range where
  begin : BitVec 64
  size : BitVec 64
  deriving DecidableEq, Repr

/-- An entry of the queue, which holds sizes by their offsets. -/
def Range.ofEntry (e : BitVec 64 × BitVec 64) : Range := ⟨e.1, e.2⟩

/-- The product of two `uint16_t`, which is an `int`. None is an overflow, which has no defined
result. -/
def intProduct (a b : BitVec 16) : Option (BitVec 64) :=
  if a.toNat * b.toNat < 2 ^ 31 then some (BitVec.ofNat 64 (a.toNat * b.toNat)) else none

variable (f : ElfFile)

/-- The ranges in the order in which they are inserted, for these sizes of the two tables. -/
def inserted (programHeaderTable sectionHeaderTable : BitVec 64) : List Range :=
  [⟨0, f.fileHeader.e_ehsize.setWidth 64⟩, ⟨f.fileHeader.e_phoff, programHeaderTable⟩,
    ⟨f.fileHeader.e_shoff, sectionHeaderTable⟩] ++
  ((f.sectionHeaders.drop 1).filter (·.sh_type ≠ SHT_NOBITS)).map fun s => ⟨s.sh_offset, s.sh_size⟩

abbrev Queue := PriorityQueue (BitVec 64) 64

/-- `addrs` after the insertions. -/
def addrs (ranges : List Range) : Option Queue :=
  (PriorityQueue.new (BitVec.ofNat 32 (f.sectionHeaders.length + 3))).insertAll
    (ranges.map fun r => (r.begin, r.size))

/-- The loop of the check, one round for each range that is left in the queue. -/
def verifyLoop : Nat → Range → Queue → Option Bool
  | 0, _, _ => some true
  | n + 1, prev, q => q.deleteMin.bind fun r =>
    let curr := Range.ofEntry r.1
    if prev.begin + prev.size > curr.begin ∧ curr.size ≠ 0 then some false
    else verifyLoop n curr r.2

/-- The range check of `ElfFile::verify`: false rejects the file. None is a failed assertion or an
overflow. -/
def verifyRanges : Option Bool := do
  let programHeaderTable ← intProduct f.fileHeader.e_phentsize f.fileHeader.e_phnum
  let sectionHeaderTable ← intProduct f.fileHeader.e_shentsize f.fileHeader.e_shnum
  let q ← addrs f (inserted f programHeaderTable sectionHeaderTable)
  let (first, q) ← q.deleteMin
  verifyLoop q.elementCount (Range.ofEntry first) q

/-! ## What the check is to find -/

/-- The first byte behind the range. -/
def Range.stop (r : Range) : Nat := r.begin.toNat + r.size.toNat

/-- One of the ranges is empty, or one ends where the other begins or before. -/
def Apart (r r' : Range) : Prop :=
  r.size = 0 ∨ r'.size = 0 ∨ r.stop ≤ r'.begin.toNat ∨ r'.stop ≤ r.begin.toNat

instance : DecidableRel Apart := fun _ _ => inferInstanceAs (Decidable (_ ∨ _))

/-- The byte ranges of the file. -/
def ranges : List Range :=
  inserted f
    (BitVec.ofNat 64 (f.fileHeader.e_phentsize.toNat * f.fileHeader.e_phnum.toNat))
    (BitVec.ofNat 64 (f.fileHeader.e_shentsize.toNat * f.fileHeader.e_shnum.toNat))

/-- The file is rejected if and only if two non-empty ranges overlap. -/
def RightlyVerified : Prop :=
  ∃ accepted, verifyRanges f = some accepted ∧
    (accepted = false ↔ ¬ (ranges f).Pairwise Apart)

/-- The ranges in the order in which the queue returns them. -/
def queueOrder : List Range :=
  (((addrs f (ranges f)).bind fun q => q.drain q.elementCount).getD []).map Range.ofEntry

/-- The sizes of the header tables are numbers of type `int`. -/
def TablesFit : Prop :=
  f.fileHeader.e_phentsize.toNat * f.fileHeader.e_phnum.toNat < 2 ^ 31 ∧
    f.fileHeader.e_shentsize.toNat * f.fileHeader.e_shnum.toNat < 2 ^ 31

/-- In a list of ranges, one that overlaps a later one and does not end behind the last address
is directly followed by a range that is not empty. -/
def Exposed (order : List Range) : Prop :=
  ∃ before r next after, order = before ++ r :: next :: after ∧
    (∃ r' ∈ next :: after, ¬ Apart r r') ∧ r.stop < 2 ^ 64 ∧ next.size ≠ 0

/-! ## The neighbours in a list -/

section Order

variable {r r' next prev : Range} {order rest : List Range}

theorem not_apart_iff : ¬ Apart r r' ↔ r.size ≠ 0 ∧ r'.size ≠ 0 ∧ r'.begin.toNat < r.stop ∧
    r.begin.toNat < r'.stop := by
  simp only [Apart, not_or, Nat.not_le, ne_eq]

theorem Apart.symm (h : Apart r r') : Apart r' r := by
  unfold Apart at h ⊢
  tauto

/-- Where the second of two ranges does not begin first, the end that is taken modulo 2^64 is
behind its begin if and only if the first one holds that byte and ends in the file. -/
theorem end_gt_iff (hle : r.begin ≤ next.begin) :
    r.begin + r.size > next.begin ↔ next.begin.toNat < r.stop ∧ r.stop < 2 ^ 64 := by
  have hle : r.begin.toNat ≤ next.begin.toNat := hle
  have hsize := r.size.isLt
  have hnext := next.begin.isLt
  rw [gt_iff_lt, BitVec.lt_def, BitVec.toNat_add, Range.stop]
  omega

/-- A range that begins inside another one and is not empty overlaps it. -/
theorem not_apart_of_lt (hle : r.begin ≤ next.begin) (hlt : next.begin.toNat < r.stop)
    (hne : next.size ≠ 0) : ¬ Apart r next := by
  have hle : r.begin.toNat ≤ next.begin.toNat := hle
  have hpos : 0 < next.size.toNat :=
    Nat.pos_of_ne_zero fun h => hne (BitVec.eq_of_toNat_eq h)
  refine not_apart_iff.mpr ⟨fun h => ?_, hne, hlt, ?_⟩
  · rw [Range.stop, h] at hlt
    exact absurd hle (by simpa using hlt)
  · rw [Range.stop]
    omega

/-- The comparison of each range with the one before it. -/
def check : Range → List Range → Bool
  | _, [] => true
  | prev, curr :: rest =>
    if prev.begin + prev.size > curr.begin ∧ curr.size ≠ 0 then false else check curr rest

/-- In the order of their offsets, a comparison fails if and only if some range is exposed. -/
theorem check_eq_false_iff (h : (prev :: rest).Pairwise fun r r' => r.begin ≤ r'.begin) :
    check prev rest = false ↔ Exposed (prev :: rest) := by
  induction rest generalizing prev with
  | nil =>
    refine iff_of_false nofun ?_
    rintro ⟨before, r, next, after, heq, -⟩
    have := congrArg List.length heq
    simp at this
    omega
  | cons curr rest ih =>
    obtain ⟨hprev, hrest⟩ := List.pairwise_cons.mp h
    have hcurr := hprev curr List.mem_cons_self
    rw [check]
    split
    · rename_i hdetected
      obtain ⟨hend, hne⟩ := hdetected
      obtain ⟨hlt, hstop⟩ := (end_gt_iff hcurr).mp hend
      exact iff_of_true rfl ⟨[], prev, curr, rest, rfl,
        ⟨curr, List.mem_cons_self, not_apart_of_lt hcurr hlt hne⟩, hstop, hne⟩
    · rename_i hpassed
      rw [ih hrest]
      constructor
      · rintro ⟨before, r, next, after, heq, hexposed⟩
        exact ⟨prev :: before, r, next, after, by rw [heq]; rfl, hexposed⟩
      · rintro ⟨before, r, next, after, heq, ⟨r', hr', hnot⟩, hstop, hne⟩
        cases before with
        | nil =>
          -- a range that overlaps a later one holds the begin of the next
          obtain ⟨rfl, hnext⟩ := List.cons.inj heq
          obtain ⟨rfl, rfl⟩ := List.cons.inj hnext
          have hbegin : curr.begin ≤ r'.begin := by
            rcases List.mem_cons.mp hr' with rfl | hr'
            · exact BitVec.le_refl _
            · exact (List.pairwise_cons.mp hrest).1 r' hr'
          have hbegin : curr.begin.toNat ≤ r'.begin.toNat := hbegin
          have hlt := (not_apart_iff.mp hnot).2.2.1
          exact absurd ⟨(end_gt_iff hcurr).mpr ⟨by omega, hstop⟩, hne⟩ hpassed
        | cons x before =>
          obtain ⟨-, hrest'⟩ := List.cons.inj heq
          exact ⟨before, r, next, after, hrest', ⟨r', hr', hnot⟩, hstop, hne⟩

/-- An exposed range overlaps another one. -/
theorem Exposed.not_pairwise (h : Exposed order) : ¬ order.Pairwise Apart := by
  obtain ⟨before, r, next, after, rfl, ⟨r', hr', hnot⟩, -, -⟩ := h
  intro hpairwise
  have hrest := (List.pairwise_append.mp hpairwise).2.1
  exact hnot ((List.pairwise_cons.mp hrest).1 r' hr')

end Order

/-! ## The queue -/

section Queue

variable {f : ElfFile}

/-- The loop compares what the queue gives. -/
theorem verifyLoop_eq {n : Nat} {prev : Range} {q : Queue} {l : List (BitVec 64 × BitVec 64)}
    (h : q.drain n = some l) :
    verifyLoop n prev q = some (check prev (l.map Range.ofEntry)) := by
  induction n generalizing prev q l with
  | zero =>
    obtain rfl := Option.some.inj h
    rfl
  | succ n ih =>
    obtain ⟨⟨e, q'⟩, hdelete, hrest⟩ := Option.bind_eq_some_iff.mp h
    obtain ⟨l', hdrain, rfl⟩ := Option.map_eq_some_iff.mp hrest
    rw [verifyLoop, hdelete, Option.bind_some, List.map_cons, check]
    dsimp only
    split
    · rfl
    · exact ih hdrain

/-- The queue has the ranges of the file, and gives them in the order of their offsets. -/
theorem exists_addrs (f : ElfFile) : ∃ q inserted l, addrs f (ranges f) = some q ∧
    PriorityQueue.Run (BitVec.ofNat 32 (f.sectionHeaders.length + 3)) q inserted [] ∧
    q.drain q.elementCount = some l ∧ queueOrder f = l.map Range.ofEntry ∧
    (queueOrder f).Perm (ranges f) ∧
    (queueOrder f).Pairwise fun r r' => r.begin ≤ r'.begin := by
  have hsections : f.sectionHeaders.length < 2 ^ 16 := f.numberOfSections ▸ BitVec.isLt _
  have hlength : (ranges f).length ≤ f.sectionHeaders.length + 3 := by
    have hfilter := List.length_filter_le (·.sh_type ≠ SHT_NOBITS) (f.sectionHeaders.drop 1)
    have hdrop : (f.sectionHeaders.drop 1).length = f.sectionHeaders.length - 1 :=
      List.length_drop
    simp only [ranges, inserted, List.length_append, List.length_map, List.length_cons,
      List.length_nil]
    omega
  have hsize : PriorityQueue.Sized (BitVec.ofNat 32 (f.sectionHeaders.length + 3)).toNat := by
    rw [BitVec.toNat_ofNat, PriorityQueue.Sized]
    omega
  obtain ⟨q, hq, hrun, hcount⟩ := PriorityQueue.Run.insertAll (.start (T := BitVec 64) (w := 64))
    hsize (l := (ranges f).map fun r => (r.begin, r.size)) (by
      rw [List.length_map]
      exact lt_of_le_of_lt (Nat.add_le_add_left hlength 0) (by omega))
  rw [List.append_nil] at hrun
  obtain ⟨l, hdrain, hperm, hsorted⟩ := hrun.drain (by
    rw [hcount, List.length_map]
    exact lt_of_le_of_lt (Nat.succ_le_succ (Nat.add_le_add_left hlength 0)) (by omega))
  have horder : queueOrder f = l.map Range.ofEntry := by
    rw [queueOrder, addrs, hq, Option.bind_some, hdrain, Option.getD_some]
  have hentries : q.entries.Perm ((ranges f).map fun r => (r.begin, r.size)) := by
    have := hrun.kept.perm
    rw [List.append_nil] at this
    exact this.trans (List.reverse_perm _)
  refine ⟨q, _, l, hq, hrun, hdrain, horder, ?_, ?_⟩
  · have hsame : ((ranges f).map fun r => (r.begin, r.size)).map Range.ofEntry = ranges f := by
      rw [List.map_map]
      exact List.map_id _
    rw [horder, ← hsame]
    exact (hperm.trans hentries).map _
  · rw [horder]
    exact List.pairwise_map.mpr hsorted

/-- Where the tables fit, a file is rejected if and only if a range is exposed. -/
theorem verifyRanges_eq (h : TablesFit f) : ∃ accepted, verifyRanges f = some accepted ∧
    (accepted = false ↔ Exposed (queueOrder f)) := by
  obtain ⟨q, inserted, l, hq, hrun, hdrain, horder, hperm, hsorted⟩ := exists_addrs f
  have hne : q.elementCount ≠ 0 := fun hzero => by
    rw [hzero] at hdrain
    obtain rfl := Option.some.inj hdrain
    have hlength := hperm.length_eq
    rw [horder] at hlength
    simp [ranges, FileRanges.inserted] at hlength
  obtain ⟨n, hn⟩ := Nat.exists_eq_succ_of_ne_zero hne
  rw [hn] at hdrain
  obtain ⟨⟨first, q'⟩, hdelete, hrest⟩ := Option.bind_eq_some_iff.mp hdrain
  obtain ⟨l', hdrain', rfl⟩ := Option.map_eq_some_iff.mp hrest
  have hcount := hrun.elementCount_deleteMin hdelete
  obtain rfl : n = q'.elementCount := by omega
  rw [horder, List.map_cons] at hsorted
  refine ⟨check (Range.ofEntry first) (l'.map Range.ofEntry), ?_, ?_⟩
  · have hph : intProduct f.fileHeader.e_phentsize f.fileHeader.e_phnum = some _ := if_pos h.1
    have hsh : intProduct f.fileHeader.e_shentsize f.fileHeader.e_shnum = some _ := if_pos h.2
    simp only [verifyRanges, hph, hsh, Option.bind_eq_bind, Option.bind_some]
    rw [show addrs f (FileRanges.inserted f _ _) = some q from hq, Option.bind_some, hdelete,
      Option.bind_some]
    exact verifyLoop_eq hdrain'
  · rw [horder, List.map_cons]
    exact check_eq_false_iff hsorted

/-- Without the overflow of a product there is a result. -/
theorem tablesFit_of_verifyRanges {accepted : Bool} (h : verifyRanges f = some accepted) :
    TablesFit f := by
  rw [verifyRanges] at h
  obtain ⟨_, hph, h⟩ := Option.bind_eq_some_iff.mp h
  obtain ⟨_, hsh, -⟩ := Option.bind_eq_some_iff.mp h
  constructor <;> by_contra hnot
  · rw [intProduct, if_neg hnot] at hph
    cases hph
  · rw [intProduct, if_neg hnot] at hsh
    cases hsh

end Queue

/-- An overlap is exposed if no range reaches the end of the address space and no empty one
begins in another. -/
theorem exposed_of_none_inside {order : List Range}
    (hsorted : order.Pairwise fun r r' => r.begin ≤ r'.begin)
    (hstop : ∀ r ∈ order, r.stop < 2 ^ 64)
    (hempty : ∀ r ∈ order, ∀ r' ∈ order, r.begin ≤ r'.begin → r'.begin.toNat < r.stop →
      r'.size ≠ 0)
    (hoverlap : ¬ order.Pairwise Apart) : Exposed order := by
  induction order with
  | nil => exact absurd .nil hoverlap
  | cons r rest ih =>
    obtain ⟨hr, hrest⟩ := List.pairwise_cons.mp hsorted
    by_cases hfirst : ∃ r' ∈ rest, ¬ Apart r r'
    · obtain ⟨r', hr', hnot⟩ := hfirst
      obtain ⟨next, after, rfl⟩ := List.exists_cons_of_ne_nil (List.ne_nil_of_mem hr')
      have hnext := hr next List.mem_cons_self
      have hle : next.begin.toNat ≤ r'.begin.toNat := by
        rcases List.mem_cons.mp hr' with rfl | hr'
        · exact Nat.le_refl _
        · exact (List.pairwise_cons.mp hrest).1 r' hr'
      have hlt := (not_apart_iff.mp hnot).2.2.1
      exact ⟨[], r, next, after, rfl, ⟨r', hr', hnot⟩, hstop r List.mem_cons_self,
        hempty r List.mem_cons_self next (by simp) hnext (by omega)⟩
    · have hoverlap : ¬ rest.Pairwise Apart := fun h =>
        hoverlap (List.pairwise_cons.mpr ⟨fun r' hr' => by_contra fun hnot =>
          hfirst ⟨r', hr', hnot⟩, h⟩)
      obtain ⟨before, x, next, after, heq, hexposed⟩ := ih hrest
        (fun x hx => hstop x (List.mem_cons_of_mem r hx))
        (fun x hx y hy => hempty x (List.mem_cons_of_mem r hx) y (List.mem_cons_of_mem r hy))
        hoverlap
      exact ⟨r :: before, x, next, after, by rw [heq]; rfl, hexposed⟩

/-- However the heap orders ranges of one offset, the check of such a file is right. -/
theorem verifyRanges_right_of_none_inside {f : ElfFile} (hfit : TablesFit f)
    (hstop : ∀ r ∈ ranges f, r.stop < 2 ^ 64)
    (hempty : ∀ r ∈ ranges f, ∀ r' ∈ ranges f, r.begin ≤ r'.begin → r'.begin.toNat < r.stop →
      r'.size ≠ 0) : RightlyVerified f := by
  obtain ⟨-, -, -, -, -, -, -, hperm, hsorted⟩ := exists_addrs f
  obtain ⟨accepted, hverify, hexposed⟩ := verifyRanges_eq hfit
  refine ⟨accepted, hverify, hexposed.trans ⟨fun h => ?_, fun hoverlap => ?_⟩⟩
  · exact fun hapart => h.not_pairwise ((hperm.pairwise_iff Apart.symm).mpr hapart)
  · refine exposed_of_none_inside hsorted (fun r hr => hstop r (hperm.mem_iff.mp hr))
      (fun r hr r' hr' => hempty r (hperm.mem_iff.mp hr) r' (hperm.mem_iff.mp hr')) fun h => ?_
    exact hoverlap ((hperm.pairwise_iff Apart.symm).mp h)

end FileRanges

end Pebil

import Pebil.Elf.AnchorSearch

/-!
# Sorting and searching by address (src/Base.C:415–481, src/AddressAnchor.C:60–88)

Arrays of objects are sorted with `compareBaseAddress`, by `qsort` or one object at a time by
`insertSorted`, and searched with `searchBaseAddress` for the object that holds an address.
Address anchors have two functions of the same kind for the addresses of their links.

The comparison is the difference of two addresses cut to an `int`, so that of two addresses
2 GiB or more apart either may come first. The search takes the end of an object modulo 2^64.
`agrees_iff` says for which arrays the two go together, whatever `qsort` does with equal
addresses and `bsearch` with an array that is not partitioned.
-/

namespace Pebil

open scoped List

namespace AddressOrder

section Comparators

variable {α : Type*} (base : α → BitVec 64) (size : α → BitVec 32)

/-- The difference of two addresses as an `int`. -/
def compareAddress (x y : α) : Int := ((base x - base y).setWidth 32).toInt

/-- The key is below the object, behind it or in it. -/
def searchAddress (key : BitVec 64) (x : α) : Int :=
  let val_low := base x
  let val_high := val_low + (size x).setWidth 64
  if key < val_low then -1 else if key ≥ val_high then 1 else 0

/-- The first address behind the object. -/
def stop (x : α) : Nat := (base x).toNat + (size x).toNat

/-- The object holds the address. -/
def Contains (x : α) (key : BitVec 64) : Prop :=
  (base x).toNat ≤ key.toNat ∧ key.toNat < stop base size x

/-- The result of a search is an object of the array that holds the key, or there is none. -/
def RightlyFound (l : List α) (key : BitVec 64) : Option α → Prop
  | some x => x ∈ l ∧ Contains base size x key
  | none => ∀ x ∈ l, ¬ Contains base size x key

/-- An array that is sorted and into which further objects are then inserted. -/
def arrange {compare : α → α → Int} (qsort : Qsort compare) (sorted inserted : List α) : List α :=
  inserted.foldl (fun elements elt => insertSorted compare elt elements) (qsort.sort sorted)

/-- However the array comes to be in order, every search in it is right. -/
def Agrees (compare : α → α → Int) (search : BitVec 64 → α → Int) (l : List α) : Prop :=
  ∀ (qsort : Qsort compare) sorted inserted, sorted ++ inserted = l → ∀ (bsearch : Bsearch α) key,
    RightlyFound base size l key (bsearch.search (search key) (arrange qsort sorted inserted))

/-- No object reaches the end of the address space, the low half of the difference of any two
addresses is a positive `int`, and no object ends before one that starts at its address or in
front of it. -/
structure Orderable (l : List α) : Prop where
  extent : ∀ x ∈ l, stop base size x < 2 ^ 64
  comparable : ∀ x ∈ l, ∀ y ∈ l, base x < base y →
    0 < ((base y).toNat - (base x).toNat) % 2 ^ 32 ∧
      ((base y).toNat - (base x).toNat) % 2 ^ 32 < 2 ^ 31
  monotone : ∀ x ∈ l, ∀ y ∈ l, base x ≤ base y → stop base size x ≤ stop base size y

end Comparators

/-- What an array holds: `baseAddress` and `sizeInBytes` of `Base`. -/
structure Object where
  baseAddress : BitVec 64
  sizeInBytes : BitVec 32
  deriving DecidableEq, Repr

/-- `compareBaseAddress`. -/
def compareBaseAddress : Object → Object → Int := compareAddress Object.baseAddress

/-- `searchBaseAddress`. -/
def searchBaseAddress : BitVec 64 → Object → Int :=
  searchAddress Object.baseAddress Object.sizeInBytes

/-- `searchLinkBaseAddress`: the address is the copy in the anchor, the size that of the
link. -/
def searchLinkBaseAddress : BitVec 64 → AnchorVector.Anchor → Int :=
  searchAddress AnchorVector.Anchor.linkBaseAddress fun a => a.link.sizeInBytes

section Agreement

variable {α : Type*} {base : α → BitVec 64} {size : α → BitVec 32} {l s : List α} {x y : α}
  {key : BitVec 64}

/-! ## The comparisons -/

theorem searchAddress_neg_iff :
    searchAddress base size key x < 0 ↔ key.toNat < (base x).toNat := by
  simp only [searchAddress, BitVec.lt_def]
  split
  · simp [*]
  · split <;> simp [*]

theorem searchAddress_nonpos_iff (h : stop base size x < 2 ^ 64) :
    searchAddress base size key x ≤ 0 ↔ key.toNat < stop base size x := by
  have hsize := (size x).isLt
  have hstop : (base x + (size x).setWidth 64).toNat = stop base size x := by
    unfold stop at h ⊢
    rw [BitVec.toNat_add, BitVec.toNat_setWidth_of_le (by omega), Nat.mod_eq_of_lt h]
  simp only [searchAddress, BitVec.lt_def, ge_iff_le, BitVec.le_def, hstop]
  unfold stop
  split
  · simp only [Int.reduceNeg, Left.neg_nonpos_iff, Int.reduceLE, true_iff]
    omega
  · split <;> simp <;> omega

theorem searchAddress_eq_zero_iff (h : stop base size x < 2 ^ 64) :
    searchAddress base size key x = 0 ↔ Contains base size x key := by
  have hneg : searchAddress base size key x < 0 ↔ key.toNat < (base x).toNat :=
    searchAddress_neg_iff
  have hnonpos : searchAddress base size key x ≤ 0 ↔ key.toNat < stop base size x :=
    searchAddress_nonpos_iff h
  unfold Contains
  omega

/-- Where the differences allow it, the comparison follows the addresses. -/
theorem Orderable.follows (h : Orderable base size l) :
    Follows (compareAddress base) (fun x => (base x).toNat) l where
  lt x hx y hy hxy := by
    obtain ⟨hpos, hint⟩ := h.comparable x hx y hy hxy
    exact (AnchorVector.toInt_setWidth_sub hxy hpos hint).1
  gt x hx y hy hxy := by
    obtain ⟨hpos, hint⟩ := h.comparable x hx y hy hxy
    exact (AnchorVector.toInt_setWidth_sub hxy hpos hint).2
  eq x _ y _ hxy := by
    have hxy : base x = base y := BitVec.eq_of_toNat_eq hxy
    simp [compareAddress, hxy]

/-! ## The condition is enough -/

/-- Inserting keeps the order of a key that the comparison follows. -/
theorem insertSorted_sorted {κ : Type*} [LinearOrder κ] {cmp : α → α → Int} {key : α → κ}
    {elt : α} (h : Follows cmp key l) (hs : ∀ x ∈ s, x ∈ l) (helt : elt ∈ l)
    (hsorted : s.Pairwise fun x y => key x ≤ key y) :
    insertSorted cmp elt s ~ elt :: s ∧
      (insertSorted cmp elt s).Pairwise fun x y => key x ≤ key y := by
  have hle : ∀ x ∈ s, cmp x elt ≤ 0 ↔ key x ≤ key elt := fun x hx => h.le_iff (hs x hx) helt
  obtain ⟨before, after, rfl, heq, hbefore, hafter⟩ : ∃ before after, s = before ++ after ∧
      insertSorted cmp elt s = before ++ elt :: after ∧ (∀ x ∈ before, key x ≤ key elt) ∧
        ∀ x ∈ after, key elt ≤ key x := by
    refine insertSorted_split hsorted (fun x hx hlt => (hle x hx).mp hlt.le) (fun x hx hgt => ?_)
      fun x hx hzero => ?_
    · exact (not_le.mp fun hkey => hgt.not_ge ((hle x hx).mpr hkey)).le
    · refine le_antisymm ((hle x hx).mp hzero.le) (not_lt.mp fun hkey => ?_)
      exact (h.lt x (hs x hx) elt helt hkey).ne hzero
  rw [heq]
  obtain ⟨hbeforeSorted, hafterSorted, hacross⟩ := List.pairwise_append.mp hsorted
  refine ⟨List.perm_middle, List.pairwise_append.mpr
    ⟨hbeforeSorted, List.pairwise_cons.mpr ⟨hafter, hafterSorted⟩, fun x hx y hy => ?_⟩⟩
  rcases List.mem_cons.mp hy with rfl | hy
  · exact hbefore x hx
  · exact hacross x hx y hy

/-- Sorted and inserted objects stand in the order of their addresses. -/
theorem Orderable.arrange (h : Orderable base size l) (qsort : Qsort (compareAddress base))
    {sorted inserted : List α} (hl : sorted ++ inserted = l) :
    arrange qsort sorted inserted ~ l ∧
      (arrange qsort sorted inserted).Pairwise
        fun x y => (base x).toNat ≤ (base y).toNat := by
  have hfollows := h.follows
  have hinserted : ∀ x ∈ inserted, x ∈ l := fun x hx => hl ▸ List.mem_append_right sorted hx
  have hsub : ∀ x ∈ sorted, x ∈ l := fun x hx => hl ▸ List.mem_append_left inserted hx
  have hfirst : (qsort.sort sorted).Pairwise fun x y => (base x).toNat ≤ (base y).toNat :=
    qsort.pairwise_key ⟨fun x hx y hy => hfollows.lt x (hsub x hx) y (hsub y hy),
      fun x hx y hy => hfollows.gt x (hsub x hx) y (hsub y hy),
      fun x hx y hy => hfollows.eq x (hsub x hx) y (hsub y hy)⟩
  have hperm : qsort.sort sorted ++ inserted ~ l := hl ▸ (qsort.perm sorted).append_right inserted
  unfold AddressOrder.arrange
  generalize qsort.sort sorted = s at hfirst hperm
  clear hl hsub
  induction inserted generalizing s with
  | nil => exact ⟨by simpa using hperm, hfirst⟩
  | cons elt inserted ih =>
    obtain ⟨hinsert, hsorted⟩ := insertSorted_sorted hfollows
      (fun x hx => hperm.mem_iff.mp (List.mem_append_left _ hx)) (hinserted elt List.mem_cons_self)
      hfirst
    refine ih (fun x hx => hinserted x (List.mem_cons_of_mem elt hx)) _ hsorted ?_
    exact ((hinsert.append_right inserted).trans List.perm_middle.symm).trans hperm

/-- In the order of their addresses, the objects are partitioned by the search for any key. -/
theorem Orderable.partitioned (h : Orderable base size l) (hs : s ~ l)
    (hsorted : s.Pairwise fun x y => (base x).toNat ≤ (base y).toNat) (key : BitVec 64) :
    Partitioned (searchAddress base size key) s := by
  refine hsorted.imp_of_mem fun {x y} hx hy hxy => ?_
  have hx := hs.mem_iff.mp hx
  have hy := hs.mem_iff.mp hy
  have hstop := h.monotone x hx y hy hxy
  rw [searchAddress_neg_iff, searchAddress_neg_iff, searchAddress_nonpos_iff (h.extent x hx),
    searchAddress_nonpos_iff (h.extent y hy)]
  omega

theorem Orderable.agrees (h : Orderable base size l) :
    Agrees base size (compareAddress base) (searchAddress base size) l := by
  intro qsort sorted inserted hl bsearch key
  obtain ⟨hperm, hsorted⟩ := h.arrange qsort hl
  generalize AddressOrder.arrange qsort sorted inserted = s at hperm hsorted ⊢
  have hpartitioned := h.partitioned hperm hsorted key
  cases hfound : bsearch.search (searchAddress base size key) s with
  | none =>
    intro x hx hcontains
    refine bsearch.complete _ s hpartitioned hfound x (hperm.mem_iff.mpr hx) ?_
    exact (searchAddress_eq_zero_iff (h.extent x hx)).mpr hcontains
  | some x =>
    obtain ⟨hmem, hzero⟩ := bsearch.sound _ s hpartitioned x hfound
    have hmem := hperm.mem_iff.mp hmem
    exact ⟨hmem, (searchAddress_eq_zero_iff (h.extent x hmem)).mp hzero⟩

/-! ## and needed -/

section Needed

variable (h : Agrees base size (compareAddress base) (searchAddress base size) l)

include h

/-- Sorting alone gives an order in which every search is right. -/
theorem Agrees.sort (qsort : Qsort (compareAddress base))
    (bsearch : Bsearch α) (key : BitVec 64) :
    RightlyFound base size l key
      (bsearch.search (searchAddress base size key) (qsort.sort l)) :=
  h qsort l [] (List.append_nil l) bsearch key

/-- Whatever order the sort gives, it is partitioned by the search for any key. -/
theorem Agrees.partitioned (qsort : Qsort (compareAddress base)) (key : BitVec 64) :
    Partitioned (searchAddress base size key) (qsort.sort l) := by
  by_contra hnot
  have hnone : ∀ x ∈ l, ¬ Contains base size x key := by
    obtain ⟨b, hb⟩ := Bsearch.exists_search_eq hnot none
    have := h.sort qsort b key
    rwa [hb] at this
  -- there are objects, and one of them may be returned
  obtain ⟨x, hx⟩ : ∃ x, x ∈ l := by
    by_contra hempty
    have hl : l = [] := List.eq_nil_iff_forall_not_mem.mpr fun x hx => hempty ⟨x, hx⟩
    have : qsort.sort l = [] := by simpa [hl] using qsort.perm l
    exact hnot (this ▸ List.Pairwise.nil)
  obtain ⟨b, hb⟩ := Bsearch.exists_search_eq hnot (some x)
  have := h.sort qsort b key
  rw [hb] at this
  exact hnone x hx this.2

/-- Where `x` may come before `y`, no key tells that `y` is in front of `x`. -/
theorem Agrees.of_compare_nonpos (hx : x ∈ l) (hy : y ∈ l) (hne : x ≠ y)
    (hle : compareAddress base x y ≤ 0) (key : BitVec 64) :
    (searchAddress base size key x < 0 → searchAddress base size key y < 0) ∧
      (searchAddress base size key x ≤ 0 → searchAddress base size key y ≤ 0) := by
  obtain ⟨q, hq⟩ := Qsort.exists_sublist hx hy hne hle
  have hpair := List.Pairwise.sublist hq (h.partitioned q key)
  exact (List.pairwise_cons.mp hpair).1 y List.mem_cons_self

theorem Agrees.extent (hx : x ∈ l) : stop base size x < 2 ^ 64 := by
  by_contra hnot
  -- the object holds the last address, which the search takes to be behind everything
  have hlast : ∀ y, searchAddress base size (BitVec.allOnes 64) y ≠ 0 := fun y => by
    have hend : base y + (size y).setWidth 64 ≤ BitVec.allOnes 64 := by
      rw [BitVec.le_def, BitVec.toNat_allOnes]
      exact Nat.le_sub_one_of_lt (BitVec.isLt _)
    simp only [searchAddress, ge_iff_le, hend, if_true]
    split <;> decide
  have hcontains : Contains base size x (BitVec.allOnes 64) := by
    have hbase := (base x).isLt
    have hones : (BitVec.allOnes 64).toNat = 2 ^ 64 - 1 := BitVec.toNat_allOnes
    exact ⟨by omega, by omega⟩
  let qsort := insertionQsort (compareAddress base)
  have hright := h.sort qsort (halvingBsearch α) (BitVec.allOnes 64)
  cases hfound : (halvingBsearch α).search (searchAddress base size (BitVec.allOnes 64))
      (qsort.sort l) with
  | none =>
    rw [hfound] at hright
    exact hright x hx hcontains
  | some y => exact hlast y ((halvingBsearch α).sound _ _ (h.partitioned qsort _) y hfound).2

theorem Agrees.comparable (hx : x ∈ l) (hy : y ∈ l)
    (hlt : base x < base y) :
    0 < ((base y).toNat - (base x).toNat) % 2 ^ 32 ∧
      ((base y).toNat - (base x).toNat) % 2 ^ 32 < 2 ^ 31 := by
  have hlt : (base x).toNat < (base y).toNat := hlt
  have hne : y ≠ x := fun heq => by
    rw [heq] at hlt
    omega
  by_contra hnot
  have hle : compareAddress base y x ≤ 0 := by
    have := (base y).isLt
    simp only [compareAddress, BitVec.toInt_eq_toNat_cond, BitVec.toNat_setWidth, BitVec.toNat_sub]
    omega
  -- `y` may come first, and the address of `x` is in front of it
  have hneg := (h.of_compare_nonpos hy hx hne hle (base x)).1
  rw [searchAddress_neg_iff, searchAddress_neg_iff] at hneg
  omega

theorem Agrees.monotone (hx : x ∈ l) (hy : y ∈ l)
    (hle : base x ≤ base y) : stop base size x ≤ stop base size y := by
  have hle : (base x).toNat ≤ (base y).toNat := hle
  by_contra hnot
  have hne : x ≠ y := fun heq => hnot (heq ▸ Nat.le_refl _)
  have hcompare : compareAddress base x y ≤ 0 := by
    rcases Nat.lt_or_eq_of_le hle with hlt | heq
    · obtain ⟨hpos, hint⟩ := h.comparable hx hy hlt
      exact (AnchorVector.toInt_setWidth_sub hlt hpos hint).1.le
    · simp [compareAddress, BitVec.eq_of_toNat_eq heq]
  -- `x` may come first, and the first address behind `y` is still in it
  have hx' := h.extent hx
  have hstop : (BitVec.ofNat 64 (stop base size y)).toNat = stop base size y :=
    Nat.mod_eq_of_lt (by omega)
  have hnonpos := (h.of_compare_nonpos hx hy hne hcompare (BitVec.ofNat 64 (stop base size y))).2
  rw [searchAddress_nonpos_iff hx', searchAddress_nonpos_iff (h.extent hy), hstop] at hnonpos
  omega

end Needed

theorem agrees_iff_orderable :
    Agrees base size (compareAddress base) (searchAddress base size) l ↔ Orderable base size l :=
  ⟨fun h => ⟨fun _ => h.extent, fun _ hx _ => h.comparable hx, fun _ hx _ => h.monotone hx⟩,
    Orderable.agrees⟩

end Agreement

/-! ## Objects and anchors -/

/-- Every search with `searchBaseAddress` in an array ordered by `compareBaseAddress` is
right. -/
def BaseAgrees (objects : List Object) : Prop :=
  Agrees Object.baseAddress Object.sizeInBytes compareBaseAddress searchBaseAddress objects

/-- Every search with `searchLinkBaseAddress` in an array ordered by `compareLinkBaseAddress`
is right. -/
def LinkAgrees (anchors : List AnchorVector.Anchor) : Prop :=
  Agrees AnchorVector.Anchor.linkBaseAddress (fun a => a.link.sizeInBytes)
    AnchorVector.compareLinkBaseAddress searchLinkBaseAddress anchors

/-- Sorting and searching go together for the arrays whose addresses the comparison tells
apart and whose objects end in the order in which they start. -/
theorem agrees_iff (objects : List Object) (anchors : List AnchorVector.Anchor) :
    (BaseAgrees objects ↔ Orderable Object.baseAddress Object.sizeInBytes objects) ∧
      (LinkAgrees anchors ↔
        Orderable AnchorVector.Anchor.linkBaseAddress (fun a => a.link.sizeInBytes) anchors) :=
  ⟨agrees_iff_orderable, agrees_iff_orderable⟩

/-- An object of the text and one 3 GiB above it are sorted the wrong way round, and the upper
one is not found. -/
theorem not_agrees_far :
    Contains Object.baseAddress Object.sizeInBytes ⟨0xC0400000, 4⟩ 0xC0400000 ∧
      (halvingBsearch Object).search (searchBaseAddress 0xC0400000)
        ((insertionQsort compareBaseAddress).sort [⟨0x400000, 4⟩, ⟨0xC0400000, 4⟩]) = none ∧
      ¬ BaseAgrees [⟨0x400000, 4⟩, ⟨0xC0400000, 4⟩] := by
  have hcontains : Contains Object.baseAddress Object.sizeInBytes ⟨0xC0400000, 4⟩ 0xC0400000 := by
    constructor <;> decide
  have hnone : (halvingBsearch Object).search (searchBaseAddress 0xC0400000)
      ((insertionQsort compareBaseAddress).sort [⟨0x400000, 4⟩, ⟨0xC0400000, 4⟩]) = none := by
    decide
  refine ⟨hcontains, hnone, fun h => ?_⟩
  have hright := h (insertionQsort compareBaseAddress) [⟨0x400000, 4⟩, ⟨0xC0400000, 4⟩] [] rfl
    (halvingBsearch Object) 0xC0400000
  rw [arrange, List.foldl_nil, hnone] at hright
  exact hright _ (by decide) hcontains

end AddressOrder

end Pebil

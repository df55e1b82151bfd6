import Pebil.Lib.BinarySearch
import Pebil.Lib.Qsort
import Mathlib.Data.BitVec
import Mathlib.Data.List.TakeWhile
import Mathlib.Tactic.ByContra

/-!
# The search for address anchors (src/ElfFile.C:230–233, 1514–1592, src/AddressAnchor.C:45–104)

The file keeps its anchors in one vector and a flag that says whether the vector is sorted by
the address of the link. `searchAddressAnchors` sorts it when the flag is not set, finds one
anchor of the address by binary search, steps back to the first of them and takes anchors from
there on while the address is in the bytes of their link.

`compareLinkBaseAddress` returns the difference of two addresses cut to an `int`, with a
comparison of the addresses dead behind it, so that it follows their order only where the low
half of every difference is a positive `int`. A link without bytes holds no address, not even
its own, and ends the walk. And the flag is reset by `addAddressAnchor`, not by the updates of
links or by those who append to the vector themselves.

`rightlySearched_iff` says, of a vector in order, which sizes of the links let the search return
what the scan of the whole vector does; `searches_right` is the result for runs.
-/

namespace Pebil

open scoped List

namespace AnchorVector

/-- What an anchor may link to: `getBaseAddress` and `getSizeInBytes`. -/
structure Link where
  baseAddress : BitVec 64
  sizeInBytes : BitVec 32
  deriving DecidableEq, Repr

/-- `AddressAnchor`: which object it is, its link, and the copy of the address of the link. -/
structure Anchor where
  object : Nat
  link : Link
  linkBaseAddress : BitVec 64
  deriving DecidableEq, Repr

/-- `AddressAnchor::AddressAnchor`. -/
def Anchor.new (object : Nat) (link : Link) : Anchor := ⟨object, link, link.baseAddress⟩

/-- `AddressAnchor::updateLink`. -/
def Anchor.updateLink (a : Anchor) (newLink : Link) : Anchor :=
  { a with link := newLink, linkBaseAddress := newLink.baseAddress }

/-- `searchLinkBaseAddressExact`. -/
def searchLinkBaseAddressExact (key : BitVec 64) (a : Anchor) : Int :=
  let val := a.linkBaseAddress
  if key < val then -1 else if val < key then 1 else 0

/-- `compareLinkBaseAddress`: the comparison behind the first `return` is never reached. -/
def compareLinkBaseAddress (a1 a2 : Anchor) : Int :=
  ((a1.linkBaseAddress - a2.linkBaseAddress).setWidth 32).toInt

/-- The test of the walk: the address is in the bytes of the link. -/
def Anchor.covers (addr : BitVec 64) (a : Anchor) : Bool :=
  a.linkBaseAddress ≤ addr && addr < a.linkBaseAddress + a.link.sizeInBytes.setWidth 64

/-- The anchors that the binary search returns from a vector. -/
def binarySearch (anchors : List Anchor) (addr : BitVec 64) : List Anchor :=
  match bsearch (fun entry => searchLinkBaseAddressExact addr entry.1) anchors.zipIdx with
  | none => []
  | some (_, idx) =>
    (anchors.drop (rewind Anchor.linkBaseAddress anchors idx)).takeWhile (Anchor.covers addr)

/-- The anchors that the linear search returns. -/
def linearSearch (anchors : List Anchor) (addr : BitVec 64) : List Anchor :=
  anchors.filter (·.linkBaseAddress = addr)

end AnchorVector

/-- `addressAnchors` and `anchorsAreSorted` of `ElfFile`. -/
structure AnchorVector where
  addressAnchors : List AnchorVector.Anchor
  anchorsAreSorted : Bool
  deriving DecidableEq, Repr

namespace AnchorVector

/-- What is done to the vector: besides the operations of `ElfFile`, its users append to it,
insert into it and update the links of its anchors. -/
inductive Operation where
  | addAddressAnchor (adr : Anchor)
  | append (adr : Anchor)
  | insertSorted (adr : Anchor)
  | updateLink (object : Nat) (newLink : Link)
  | setAnchorsSorted (areSorted : Bool)
  | searchAddressAnchors (addr : BitVec 64)
  deriving DecidableEq, Repr

section Operations

variable (qsort : Qsort compareLinkBaseAddress)

/-- The vector that is searched. -/
def forSearch (v : AnchorVector) : AnchorVector :=
  if v.anchorsAreSorted then v else ⟨qsort.sort v.addressAnchors, true⟩

/-- `ElfFile::searchAddressAnchors` with the binary search. -/
def searchAddressAnchors (v : AnchorVector) (addr : BitVec 64) : List Anchor :=
  binarySearch (v.forSearch qsort).addressAnchors addr

def step (v : AnchorVector) : Operation → AnchorVector
  | .addAddressAnchor adr => ⟨v.addressAnchors ++ [adr], false⟩
  | .append adr => { v with addressAnchors := v.addressAnchors ++ [adr] }
  | .insertSorted adr =>
    { v with
      addressAnchors := Pebil.insertSorted compareLinkBaseAddress adr v.addressAnchors }
  | .updateLink object newLink =>
    -- the vector holds pointers, so that every occurrence of the object changes
    { v with
      addressAnchors := v.addressAnchors.map fun a =>
        if a.object = object then a.updateLink newLink else a }
  | .setAnchorsSorted areSorted => { v with anchorsAreSorted := areSorted }
  | .searchAddressAnchors _ => v.forSearch qsort

/-- Every search of a run starts from a vector with `P`. -/
def EachSearch (P : AnchorVector → BitVec 64 → Prop) (v : AnchorVector) : List Operation → Prop
  | [] => True
  | op :: ops =>
    (∀ addr, op = .searchAddressAnchors addr → P v addr) ∧ EachSearch P (v.step qsort op) ops

/-- The search returns what the linear search does. -/
def RightlySearched (v : AnchorVector) (addr : BitVec 64) : Prop :=
  v.searchAddressAnchors qsort addr ~ linearSearch v.addressAnchors addr

end Operations

/-! ## The condition -/

/-- The anchors stand in the order of the addresses of their links. -/
def InOrder (anchors : List Anchor) : Prop :=
  anchors.Pairwise fun a b => a.linkBaseAddress ≤ b.linkBaseAddress

/-- The low half of the difference of any two addresses is a positive `int`. -/
def Comparable (anchors : List Anchor) : Prop :=
  ∀ a ∈ anchors, ∀ b ∈ anchors, a.linkBaseAddress < b.linkBaseAddress →
    0 < (b.linkBaseAddress.toNat - a.linkBaseAddress.toNat) % 2 ^ 32 ∧
      (b.linkBaseAddress.toNat - a.linkBaseAddress.toNat) % 2 ^ 32 < 2 ^ 31

/-- The link of the anchor has bytes, and its end is an address. -/
def Anchor.HasExtent (a : Anchor) : Prop :=
  0 < a.link.sizeInBytes.toNat ∧
    a.linkBaseAddress.toNat + a.link.sizeInBytes.toNat < 2 ^ 64

/-- A vector said to be sorted is in order, and another one can be brought into it. -/
def Sortable (v : AnchorVector) : Prop :=
  (v.anchorsAreSorted = true → InOrder v.addressAnchors) ∧
    (v.anchorsAreSorted = false → Comparable v.addressAnchors)

/-- If there is an anchor of the address at all, the vector is in order or can be brought into
it, and the links at the address have bytes. -/
def Searchable (v : AnchorVector) (addr : BitVec 64) : Prop :=
  linearSearch v.addressAnchors addr ≠ [] →
    v.Sortable ∧ ∀ a ∈ linearSearch v.addressAnchors addr, a.HasExtent

/-! ## The comparisons -/

theorem toInt_setWidth_sub {x y : BitVec 64} (hlt : x < y)
    (hpos : 0 < (y.toNat - x.toNat) % 2 ^ 32) (hint : (y.toNat - x.toNat) % 2 ^ 32 < 2 ^ 31) :
    ((x - y).setWidth 32).toInt < 0 ∧ 0 < ((y - x).setWidth 32).toInt := by
  have hlt : x.toNat < y.toNat := hlt
  have hx := x.isLt
  have hy := y.isLt
  simp only [BitVec.toInt_eq_toNat_cond, BitVec.toNat_setWidth, BitVec.toNat_sub]
  omega

/-- The address of the link as a number. -/
def Anchor.address (a : Anchor) : Nat := a.linkBaseAddress.toNat

/-- Where the differences allow it, the comparison of two anchors follows the addresses. -/
theorem Comparable.follows {anchors : List Anchor} (h : Comparable anchors) :
    Follows compareLinkBaseAddress Anchor.address anchors where
  lt a ha b hb hab := (toInt_setWidth_sub hab (h a ha b hb hab).1 (h a ha b hb hab).2).1
  gt a ha b hb hab := (toInt_setWidth_sub hab (h a ha b hb hab).1 (h a ha b hb hab).2).2
  eq a _ b _ hab := by
    have hab : a.linkBaseAddress = b.linkBaseAddress := BitVec.eq_of_toNat_eq hab
    simp [compareLinkBaseAddress, hab]

/-- The comparison of the search follows the addresses. -/
theorem directs (addr : BitVec 64) :
    Directs (searchLinkBaseAddressExact addr) Anchor.address addr.toNat :=
  directs_threeWay Anchor.address addr.toNat

/-- So does the one that is given an anchor with its index. -/
theorem directs_fst (addr : BitVec 64) :
    Directs (fun entry : Anchor × Nat => searchLinkBaseAddressExact addr entry.1)
      (fun entry => entry.1.address) addr.toNat where
  nonneg_iff entry := (directs addr).nonneg_iff entry.1
  nonpos_iff entry := (directs addr).nonpos_iff entry.1

/-- At its own address, a link holds the address if it has bytes. -/
theorem covers_iff {a : Anchor} {addr : BitVec 64} (ha : a.linkBaseAddress = addr) :
    a.covers addr = true ↔ a.HasExtent := by
  subst ha
  have hbase := a.linkBaseAddress.isLt
  have hsize := a.link.sizeInBytes.isLt
  simp only [Anchor.covers, Anchor.HasExtent, Bool.and_eq_true, decide_eq_true_eq, BitVec.le_def,
    BitVec.lt_def, BitVec.toNat_add, BitVec.toNat_setWidth, Nat.le_refl, true_and]
  omega

/-- A link behind the address does not hold it. -/
theorem covers_of_lt {a : Anchor} {addr : BitVec 64} (ha : addr < a.linkBaseAddress) :
    a.covers addr = false := by
  have ha : ¬ a.linkBaseAddress ≤ addr := Nat.not_le.mpr ha
  simp [Anchor.covers, ha]

/-! ## One search -/

section Search

variable {before equal after : List Anchor} {addr : BitVec 64}

/-- An anchor that the binary search finds is one of the address. -/
theorem address_of_bsearch {anchors : List Anchor} {a : Anchor} {idx : Nat}
    (h : bsearch (fun entry => searchLinkBaseAddressExact addr entry.1) anchors.zipIdx =
      some (a, idx)) :
    anchors[idx]? = some a ∧ a.address = addr.toNat := by
  obtain ⟨hmem, haddress⟩ := (directs_fst addr).of_bsearch h
  exact ⟨List.mem_zipIdx_iff_getElem?.mp hmem, haddress⟩

/-- If there are anchors of the address, the binary search finds one of them. -/
theorem exists_bsearch (hbefore : ∀ a ∈ before, a.address < addr.toNat)
    (hequal : ∀ a ∈ equal, a.linkBaseAddress = addr) (hafter : ∀ a ∈ after, addr.toNat < a.address)
    (hne : equal ≠ []) :
    ∃ a i, bsearch (fun entry => searchLinkBaseAddressExact addr entry.1)
      (before ++ (equal ++ after)).zipIdx = some (a, before.length + i) ∧ i < equal.length := by
  obtain ⟨e, es, rfl⟩ := List.exists_cons_of_ne_nil hne
  have hzip : (before ++ (e :: es ++ after)).zipIdx =
      before.zipIdx ++ (e, before.length) :: (es ++ after).zipIdx (before.length + 1) := by
    rw [List.zipIdx_append, List.cons_append, List.zipIdx_cons, Nat.zero_add]
  have haddress : ∀ a ∈ e :: es, a.address = addr.toNat := fun a ha =>
    congrArg BitVec.toNat (hequal a ha)
  obtain ⟨⟨a, idx⟩, hfound⟩ : ∃ found, bsearch
      (fun entry => searchLinkBaseAddressExact addr entry.1)
      (before ++ (e :: es ++ after)).zipIdx = some found := by
    rw [hzip]
    refine (directs_fst addr).exists_bsearch (fun x hx => ?_) (haddress e List.mem_cons_self)
      fun x hx => ?_
    · exact (hbefore x.1 (List.fst_mem_of_mem_zipIdx hx)).le
    · rcases List.mem_append.mp (List.fst_mem_of_mem_zipIdx hx) with hx | hx
      · exact (haddress x.1 (List.mem_cons_of_mem e hx)).ge
      · exact (hafter x.1 hx).le
  obtain ⟨hidx, ha⟩ := address_of_bsearch hfound
  -- it is neither before nor behind the anchors of the address
  have hlow : before.length ≤ idx := by
    by_contra hlt
    rw [List.getElem?_append_left (Nat.not_le.mp hlt)] at hidx
    have := hbefore a (List.mem_of_getElem? hidx)
    omega
  have hhigh : idx - before.length < (e :: es).length := by
    by_contra hge
    rw [List.getElem?_append_right hlow, List.getElem?_append_right (Nat.not_lt.mp hge)] at hidx
    have := hafter a (List.mem_of_getElem? hidx)
    omega
  exact ⟨a, idx - before.length, by rw [hfound, Nat.add_sub_cancel' hlow], hhigh⟩

/-- The search returns the first anchors of the address, up to one whose link has no bytes. -/
theorem binarySearch_eq (hbefore : ∀ a ∈ before, a.address < addr.toNat)
    (hequal : ∀ a ∈ equal, a.linkBaseAddress = addr)
    (hafter : ∀ a ∈ after, addr.toNat < a.address) :
    binarySearch (before ++ (equal ++ after)) addr = equal.takeWhile (Anchor.covers addr) := by
  by_cases hne : equal = []
  · subst hne
    -- whatever is found would be an anchor of the address
    cases hfound : bsearch (fun entry => searchLinkBaseAddressExact addr entry.1)
        (before ++ ([] ++ after)).zipIdx with
    | none => rw [binarySearch, hfound, List.takeWhile_nil]
    | some found =>
      obtain ⟨hidx, ha⟩ := address_of_bsearch hfound
      rcases List.mem_append.mp (List.mem_of_getElem? hidx) with hmem | hmem
      · have := hbefore _ hmem
        omega
      · have := hafter _ hmem
        omega
  · obtain ⟨a, i, hfound, hi⟩ := exists_bsearch hbefore hequal hafter hne
    have hother : ∀ a ∈ before, a.linkBaseAddress ≠ addr := fun a ha h =>
      Nat.ne_of_lt (hbefore a ha) (congrArg BitVec.toNat h)
    have hend : after.takeWhile (Anchor.covers addr) = [] := by
      cases after with
      | nil => rfl
      | cons b bs => simp [covers_of_lt (hafter b List.mem_cons_self)]
    rw [binarySearch, hfound]
    simp only
    rw [rewind_eq hother hequal hi, List.drop_left, List.takeWhile_append, hend, List.append_nil]
    split
    · rename_i hall
      exact ((List.takeWhile_prefix _).eq_of_length hall).symm
    · rfl

/-- In a vector in order, the search finds all anchors of the address if and only if their
links all have bytes. -/
theorem binarySearch_perm_iff {anchors : List Anchor} (hanchors : InOrder anchors)
    (addr : BitVec 64) :
    binarySearch anchors addr ~ linearSearch anchors addr ↔
      ∀ a ∈ linearSearch anchors addr, a.HasExtent := by
  have hequal : ∀ a ∈ linearSearch anchors addr, a.linkBaseAddress = addr := fun a ha => by
    simpa using List.of_mem_filter ha
  have hrun : anchors.filter (·.address = addr.toNat) = linearSearch anchors addr :=
    List.filter_congr fun a _ => by simp [Anchor.address, ← BitVec.toNat_eq]
  have hsplit : anchors = anchors.filter (·.address < addr.toNat) ++
      (linearSearch anchors addr ++ anchors.filter (addr.toNat < ·.address)) := by
    rw [← hrun]
    exact eq_append_run (show anchors.Pairwise fun a b => a.address ≤ b.address from hanchors) _
  have hbefore : ∀ a ∈ anchors.filter (·.address < addr.toNat), a.address < addr.toNat :=
    fun a ha => by simpa using List.of_mem_filter ha
  have hafter : ∀ a ∈ anchors.filter (addr.toNat < ·.address), addr.toNat < a.address :=
    fun a ha => by simpa using List.of_mem_filter ha
  have heq : binarySearch anchors addr =
      (linearSearch anchors addr).takeWhile (Anchor.covers addr) := by
    rw [← binarySearch_eq hbefore hequal hafter, ← hsplit]
  rw [heq]
  constructor
  · intro hperm a ha
    have hall : (linearSearch anchors addr).takeWhile (Anchor.covers addr) =
        linearSearch anchors addr := (List.takeWhile_prefix _).eq_of_length hperm.length_eq
    exact (covers_iff (hequal a ha)).mp (List.takeWhile_eq_self_iff.mp hall a ha)
  · intro hall
    rw [List.takeWhile_eq_self_iff.mpr fun a ha => (covers_iff (hequal a ha)).mpr (hall a ha)]

/-- Where there is no anchor of the address, none is found. -/
theorem binarySearch_eq_nil {anchors : List Anchor} (h : linearSearch anchors addr = []) :
    binarySearch anchors addr = [] := by
  rw [binarySearch]
  split
  · rfl
  · rename_i a idx hfound
    obtain ⟨hidx, ha⟩ := address_of_bsearch hfound
    have hmem : a ∈ linearSearch anchors addr :=
      List.mem_filter.mpr ⟨List.mem_of_getElem? hidx, by simpa using BitVec.eq_of_toNat_eq ha⟩
    rw [h] at hmem
    cases hmem

end Search

variable {qsort : Qsort compareLinkBaseAddress} {v : AnchorVector} {addr : BitVec 64}
  {ops : List Operation}

theorem forSearch_perm : (v.forSearch qsort).addressAnchors ~ v.addressAnchors := by
  rw [forSearch]
  split
  · exact .refl _
  · exact qsort.perm _

/-- The vector that is searched is in order. -/
theorem Sortable.inOrder (h : v.Sortable) (qsort : Qsort compareLinkBaseAddress) :
    InOrder (v.forSearch qsort).addressAnchors := by
  rw [forSearch]
  split
  · rename_i hsorted
    exact h.1 hsorted
  · rename_i hsorted
    exact qsort.pairwise_key (h.2 (Bool.eq_false_iff.mpr hsorted)).follows

/-- A search from a vector in order, or one that can be brought into it, is right if and only
if the links at the address have bytes. -/
theorem rightlySearched_iff (h : v.Sortable) :
    v.RightlySearched qsort addr ↔ ∀ a ∈ linearSearch v.addressAnchors addr, a.HasExtent := by
  have hlinear : linearSearch (v.forSearch qsort).addressAnchors addr ~
      linearSearch v.addressAnchors addr := forSearch_perm.filter _
  have hiff := binarySearch_perm_iff (h.inOrder qsort) addr
  simp only [hlinear.mem_iff] at hiff
  rw [← hiff]
  exact ⟨fun hperm => hperm.trans hlinear.symm, fun hperm => hperm.trans hlinear⟩

theorem rightlySearched_of_searchable (h : v.Searchable addr) :
    v.RightlySearched qsort addr := by
  by_cases hnone : linearSearch v.addressAnchors addr = []
  · have hlinear : linearSearch (v.forSearch qsort).addressAnchors addr = [] :=
      List.Perm.eq_nil (hnone ▸ forSearch_perm.filter _)
    rw [RightlySearched, searchAddressAnchors, hnone, binarySearch_eq_nil hlinear]
  · obtain ⟨hsortable, hextent⟩ := h hnone
    exact (rightlySearched_iff hsortable).mpr hextent

/-! ## Runs -/

theorem EachSearch.mono {P Q : AnchorVector → BitVec 64 → Prop}
    (hPQ : ∀ v addr, P v addr → Q v addr) (h : EachSearch qsort P v ops) :
    EachSearch qsort Q v ops := by
  induction ops generalizing v with
  | nil => trivial
  | cons op ops ih => exact ⟨fun addr hop => hPQ v addr (h.1 addr hop), ih h.2⟩

/-- The searches of a run that all start from a searchable vector all return what the linear
search does. -/
theorem searches_right (qsort : Qsort compareLinkBaseAddress) (v : AnchorVector)
    (ops : List Operation) (h : EachSearch qsort Searchable v ops) :
    EachSearch qsort (RightlySearched qsort) v ops :=
  h.mono fun _ _ => rightlySearched_of_searchable

/-- A run that adds an anchor and searches for it. -/
theorem searches_right_add :
    EachSearch (insertionQsort _) Searchable ⟨[], false⟩
      [.addAddressAnchor (.new 0 ⟨0x401000, 5⟩), .searchAddressAnchors 0x401000] ∧
    EachSearch (insertionQsort _) (RightlySearched (insertionQsort _)) ⟨[], false⟩
      [.addAddressAnchor (.new 0 ⟨0x401000, 5⟩), .searchAddressAnchors 0x401000] := by
  have hsearchable : EachSearch (insertionQsort _) Searchable ⟨[], false⟩
      [.addAddressAnchor (.new 0 ⟨0x401000, 5⟩), .searchAddressAnchors 0x401000] := by
    refine ⟨nofun, fun addr h => ?_, trivial⟩
    cases h
    intro _
    simp [step, Sortable, Comparable, linearSearch, Anchor.HasExtent, Anchor.new]
  exact ⟨hsearchable, searches_right _ _ _ hsearchable⟩

/-- Of two links more than two gigabytes apart, the lower one is sorted behind the other, and
the search for the higher one goes past it. -/
theorem not_searches_right : ¬ EachSearch (insertionQsort _) (RightlySearched (insertionQsort _))
    ⟨[], false⟩ [.addAddressAnchor (.new 0 ⟨0xC0400000, 5⟩),
      .addAddressAnchor (.new 1 ⟨0x400000, 5⟩), .searchAddressAnchors 0xC0400000] := by
  intro h
  have hright : RightlySearched (insertionQsort _)
      ⟨[.new 0 ⟨0xC0400000, 5⟩, .new 1 ⟨0x400000, 5⟩], false⟩ 0xC0400000 := h.2.2.1 _ rfl
  revert hright
  unfold RightlySearched
  decide

/-! ### Resetting the flag -/

/-- No search comes while a change of the vector is `pending`: one after which the flag has not
been reset. -/
def Resets : Bool → List Operation → Prop
  | _, [] => True
  | pending, .searchAddressAnchors _ :: ops => pending = false ∧ Resets false ops
  | _, .addAddressAnchor _ :: ops => Resets false ops
  | _, .setAnchorsSorted areSorted :: ops => Resets areSorted ops
  | _, .append _ :: ops => Resets true ops
  | _, .insertSorted _ :: ops => Resets true ops
  | _, .updateLink _ _ :: ops => Resets true ops

/-- The addresses can be compared, and the links at the address have bytes. -/
def Extended (v : AnchorVector) (addr : BitVec 64) : Prop :=
  Comparable v.addressAnchors ∧ ∀ a ∈ linearSearch v.addressAnchors addr, a.HasExtent

/-- Where every change is followed by a reset before the next search, as in the relocation of a
function, the flag is never wrong when it is read. -/
theorem searchable_of_resets {pending : Bool} (hops : Resets pending ops)
    (hv : pending = false → v.anchorsAreSorted = true → InOrder v.addressAnchors)
    (h : EachSearch qsort Extended v ops) : EachSearch qsort Searchable v ops := by
  induction ops generalizing v pending with
  | nil => trivial
  | cons op ops ih =>
    cases op with
    | addAddressAnchor adr => exact ⟨nofun, ih hops (fun _ => nofun) h.2⟩
    | append adr => exact ⟨nofun, ih hops nofun h.2⟩
    | insertSorted adr => exact ⟨nofun, ih hops nofun h.2⟩
    | updateLink object newLink =>
      exact ⟨nofun, ih hops nofun h.2⟩
    | setAnchorsSorted areSorted =>
      refine ⟨nofun, ih hops (fun hpending hsorted => ?_) h.2⟩
      exact absurd (hsorted.symm.trans hpending) (by decide)
    | searchAddressAnchors addr =>
      obtain ⟨hpending, hops⟩ := hops
      obtain ⟨hcomparable, hextent⟩ := h.1 addr rfl
      have hsortable : v.Sortable := ⟨hv hpending, fun _ => hcomparable⟩
      refine ⟨fun addr' haddr _ => ?_, ih hops (fun _ _ => hsortable.inOrder qsort) h.2⟩
      cases haddr
      exact ⟨hsortable, hextent⟩

end AnchorVector

end Pebil

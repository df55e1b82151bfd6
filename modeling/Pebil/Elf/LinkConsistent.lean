import Pebil.Elf.LinkDisplacement

/-!
# Consistent dynamic tables

Where every table is said to be and where it is; under which condition an operation moves
the entries of the dynamic table as it moves the sections (`LinkOp.Safe`); and files that
are moved copies of one another (`Regrown`), which share all that the condition is about.
-/

namespace Pebil

/-! ## Consistent files -/

/-- Which sections hold the tables; no operation changes it. -/
structure LinkLayout where
  is64Bit : Bool
  stringTables : List Nat
  symbolTables : List Nat
  hashTables : List (Nat × Bool)
  dynsym : Nat
  versym : Nat
  verneed : Nat
  dynstr : Nat
  dynrel : Nat
  pltrel : Nat

/-- The section that an entry of the dynamic table points to. -/
def LinkLayout.tableOf (l : LinkLayout) : DynTag → Option Nat
  | .hash => (l.hashTables.find? fun h => !h.2).map Prod.fst
  | .gnuHash => (l.hashTables.find? fun h => h.2).map Prod.fst
  | .strtab => some l.dynstr
  | .symtab => some l.dynsym
  | .rela => some l.dynrel
  | .rel => some l.dynrel
  | .jmprel => some l.pltrel
  | .versym => some l.versym
  | .verneed => some l.verneed
  | .pltrelsz => none
  | .other _ => none

/-- The bytes of a section in the file. -/
def SectionHeader.fileSize (h : SectionHeader) : Nat := if h.type = 8 then 0 else h.size.toNat

/-- One section lies below the other, in memory and in the file. -/
def SectionHeader.Below (h h' : SectionHeader) : Prop :=
  h.addr.toNat + h.size.toNat ≤ h'.addr.toNat ∧ h.offset.toNat + h.fileSize ≤ h'.offset.toNat

/-- Two sections share neither an address nor a byte of the file. -/
def SectionHeader.Apart (h h' : SectionHeader) : Prop :=
  (h.addr.toNat + h.size.toNat ≤ h'.addr.toNat ∨ h'.addr.toNat + h'.size.toNat ≤ h.addr.toNat) ∧
  (h.offset.toNat + h.fileSize ≤ h'.offset.toNat ∨ h'.offset.toNat + h'.fileSize ≤ h.offset.toNat)

namespace LinkFile

def layout (f : LinkFile) : LinkLayout where
  is64Bit := f.is64Bit
  stringTables := f.stringTables
  symbolTables := f.symbolTables
  hashTables := f.hashTables.map fun h => (h.sectionIndex, h.table.isGnuStyleHash)
  dynsym := f.symbols.sectionIndex
  versym := f.versym
  verneed := f.verneed
  dynstr := f.dynstr
  dynrel := f.dynrel
  pltrel := f.pltrel

/-- The entry of the table in section `i`, if its tag is one of `U`. -/
def PointsTo (f : LinkFile) (U : DynTag → Prop) (d : Dynamic) (i : Nat) : Prop :=
  d ∈ f.dynamics ∧ U d.tag ∧ f.layout.tableOf d.tag = some i

/-- The entries with a tag of `U` hold the addresses of their sections. -/
def LinkedFor (f : LinkFile) (U : DynTag → Prop) : Prop :=
  ∀ d i, f.PointsTo U d i → f.addrOf i = some d.value

/-- Every pointer entry holds the address of its section. -/
def Linked (f : LinkFile) : Prop := f.LinkedFor fun _ => True

/-- The tags of the dynamic table. -/
def tags (f : LinkFile) : List DynTag := f.dynamics.map Dynamic.tag

/-- The sections in front of `.init` are apart. -/
def Disjoint (f : LinkFile) : Prop :=
  ∀ i j h h', f.InSegment i h → f.InSegment j h' → i ≠ j → h.Apart h'

/-- They are in order as well. -/
def Ascending (f : LinkFile) : Prop :=
  ∀ i j h h', f.InSegment i h → f.InSegment j h' → i < j → h.Below h'

/-- Pointer entries are unique. -/
def UniqueTags (f : LinkFile) : Prop :=
  ∀ (j k : Nat) (tag : DynTag), f.tags[j]? = some tag → f.tags[k]? = some tag →
    f.layout.tableOf tag ≠ none → j = k

/-- A file whose tables are where its dynamic table says. -/
structure WellFormed (f : LinkFile) : Prop where
  init : f.ftidx < f.sectionHeaders.length
  regular : ∀ i h, f.InSegment i h → h.Regular
  disjoint : f.Disjoint
  linked : f.Linked
  strings : f.dynstr ∈ f.stringTables
  symbols : f.symbols.sectionIndex ∈ f.symbolTables
  unique : f.UniqueTags
  relocations : .rel ∉ f.tags ∨ .rela ∉ f.tags

theorem Ascending.disjoint {f : LinkFile} (h : f.Ascending) : f.Disjoint := by
  intro i j s s' hi hj hne
  rcases Nat.lt_or_gt_of_ne hne with hlt | hgt
  · exact (h i j s s' hi hj hlt).imp Or.inl Or.inl
  · exact (h j i s' s hj hi hgt).imp Or.inr Or.inr

/-- What an operation leaves: the entries point to the sections they pointed to, and the
sections are apart and aligned. -/
structure Consistent (f g : LinkFile) : Prop where
  pointers : ∀ (k : Nat) (d : Dynamic) (i : Nat), f.dynamics[k]? = some d →
    f.layout.tableOf d.tag = some i →
    ∃ d', g.dynamics[k]? = some d' ∧ d'.tag = d.tag ∧ g.addrOf i = some d'.value
  disjoint : g.Disjoint
  aligned : ∀ i h, g.InSegment i h → AlignedTo h.addralign.toNat h.addr.toNat

/-! ## When the entries follow -/

/-- The section at `i` does not move when the one at `s` grows. -/
def Stays (f : LinkFile) (s i : Nat) : Prop := i ≤ s ∨ f.ftidx < i

/-- The section at `i` moves as far as the last one in front of `.init`: no alignment between
the two rounds the growth up further. -/
def MovesAlike (f : LinkFile) (s size i : Nat) : Prop :=
  s < i ∧ i ≤ f.ftidx ∧
    roundUp (f.strictestBehind s i) size = roundUp (f.strictestBehind s f.ftidx) size

/-- The entry of the section at `i` is treated as that section is. -/
def Follows (f : LinkFile) (s size : Nat) (incremented : Bool) (i : Nat) : Prop :=
  size = 0 ∨ if incremented then f.MovesAlike s size i else f.Stays s i

end LinkFile

/-- The bytes a hash table grows by when a symbol is added. -/
def HashTable.growth : HashTable → Nat
  | .sysv t =>
    if passedThreshold (pred32 t.buckets.length) (t.entries.length + 1) then
      (t.entries.length + 1) / 2 * 4
    else 0
  | .gnu t =>
    if passedThreshold t.buckets.length t.entries.length then
      t.entries.length / 2 * (HashTable.gnu t).entrySize
    else 0

namespace LinkOp

/-- The entries that are not set from the section headers when a symbol is added. -/
def NotSet (tag : DynTag) : Prop := tag = .symtab ∨ tag = .hash ∨ tag = .gnuHash

/-- The sizes by which an operation makes sections longer. -/
def growths (f : LinkFile) : LinkOp → List Nat
  | addString length => [roundUp 8 (length + 1)]
  | addPLTRelocation => (f.relocationTables.filter fun t => f.pltSection = some t.sectionIndex).map
      RelocationSection.relocationSize
  | expandHash idx => (f.hashTables[idx]?.toList).map fun h =>
      h.table.numberOfEntries / 2 * h.table.entrySize
  | addSymbol _ => f.symbolSize :: 2 :: f.hashTables.map fun h => h.table.growth

/-- The room the operation needs at most. -/
def needed (f : LinkFile) (op : LinkOp) : Nat :=
  ((op.growths f).map (roundUp (f.strictestBehind 0 f.ftidx))).sum

/-- Every address stays below 4 GiB, and no offset or size overflows. -/
def Fits (f : LinkFile) (op : LinkOp) : Prop :=
  op.needed f < 2 ^ 32 ∧ ∀ i h, f.InSegment i h → h.addr.toNat + op.needed f < 2 ^ 32 ∧
    h.offset.toNat + op.needed f < 2 ^ 64 ∧ h.size.toNat + op.needed f < 2 ^ 64

/-- Every entry is moved exactly if its section is, and as far. -/
def EntriesFollow (f : LinkFile) : LinkOp → Prop
  | addString length => ∀ d i, f.PointsTo (fun _ => True) d i →
      f.Follows f.dynstr (roundUp 8 (length + 1)) (LinkFile.behindStrings d.tag) i
  | addPLTRelocation => ∀ s addr, f.pltSection = some s → f.addrOf s = some addr →
      ∀ t ∈ f.relocationTables, t.sectionIndex = s → ∀ d i, f.PointsTo (fun _ => True) d i →
        f.Follows s t.relocationSize ((d.tag == .rel || d.tag == .rela) && addr < d.value) i
  | expandHash idx => ∀ h, f.hashTables[idx]? = some h → ∀ d i, f.PointsTo (fun _ => True) d i →
      f.Follows h.sectionIndex (h.table.numberOfEntries / 2 * h.table.entrySize)
        (LinkFile.behindHash h.table.isGnuStyleHash d.tag) i
  | addSymbol _ =>
      -- the sections behind the symbol table are moved by the size of a symbol, not aligned
      (∀ i h, f.InSegment i h → f.symbols.sectionIndex < i →
        AlignedTo h.addralign.toNat f.symbolSize) ∧
      ∀ d i, f.PointsTo NotSet d i → f.Stays f.symbols.sectionIndex i ∧ f.Stays f.versym i ∧
        ∀ h ∈ f.hashTables,
          f.Follows h.sectionIndex h.table.growth (LinkFile.behindHash h.table.isGnuStyleHash d.tag) i

/-- The condition under which an operation leaves the file consistent. -/
structure Safe (f : LinkFile) (op : LinkOp) : Prop where
  ascending : f.Ascending
  fits : op.Fits f
  follow : op.EntriesFollow f

end LinkOp

/-- Every operation of the run that completes is safe. -/
def LinkFile.SafeThroughout : LinkFile → List LinkOp → Prop
  | _, [] => True
  | f, op :: ops => ∀ g, f.step op = some g → op.Safe f ∧ g.SafeThroughout ops

/-- Every operation of the run that completes leaves a consistent file. -/
def LinkFile.ConsistentThroughout : LinkFile → List LinkOp → Prop
  | _, [] => True
  | f, op :: ops => ∀ g, f.step op = some g → f.Consistent g ∧ g.ConsistentThroughout ops

/-! ## Files whose sections have moved -/

namespace LinkFile

/-- `g` is `f` with its sections moved and its tables grown. -/
structure Regrown (f g : LinkFile) (δ γ : Nat → Nat) : Prop where
  moves : Moves δ γ f.sectionHeaders g.sectionHeaders
  layout : g.layout = f.layout
  tags : g.tags = f.tags

/-- The sections can be displaced by up to `b`. -/
structure Ready (f : LinkFile) (b : Nat) : Prop where
  init : f.ftidx < f.sectionHeaders.length
  regular : ∀ i h, f.InSegment i h → h.Regular
  bound : b < 2 ^ 32
  low : ∀ i h, f.InSegment i h → h.addr.toNat + b < 2 ^ 32

variable {f g k : LinkFile} {δ γ δ' γ' : Nat → Nat} {s i b c : Nat} {h : SectionHeader}
  {U : DynTag → Prop}

namespace Regrown

theorem refl (f : LinkFile) : Regrown f f (fun _ => 0) fun _ => 0 := ⟨Moves.refl _, rfl, rfl⟩

theorem trans (hg : Regrown f g δ γ) (hk : Regrown g k δ' γ') :
    Regrown f k (fun i => δ i + δ' i) fun i => γ i + γ' i :=
  ⟨hg.moves.trans hk.moves, hk.layout.trans hg.layout, hk.tags.trans hg.tags⟩

theorem congr (hg : Regrown f g δ γ) (hδ : ∀ i, δ i = δ' i) (hγ : ∀ i, γ i = γ' i) :
    Regrown f g δ' γ' := ⟨hg.moves.congr hδ hγ, hg.layout, hg.tags⟩

theorem ftidx (hg : Regrown f g δ γ) : g.ftidx = f.ftidx := by
  have hnames := hg.moves.map_eq SectionHeader.sectionNamePtr fun _ _ _ => rfl
  have hfind : ∀ l : List SectionHeader,
      (l.drop 1).findIdx? (fun h => h.sectionNamePtr == some ".init") =
        ((l.map SectionHeader.sectionNamePtr).drop 1).findIdx? (· == some ".init") := by
    intro l
    rw [← List.map_drop, List.findIdx?_map]
    rfl
  rw [LinkFile.ftidx, LinkFile.ftidx, firstSectionIdx, firstSectionIdx, hfind, hnames, ← hfind]

theorem length (hg : Regrown f g δ γ) : g.sectionHeaders.length = f.sectionHeaders.length :=
  hg.moves.length_eq

theorem inSegment (hg : Regrown f g δ γ) (hi : f.InSegment i h) :
    g.InSegment i (h.moved (δ i) (γ i)) :=
  ⟨hi.1, by rw [hg.ftidx]; exact hi.2.1, hg.moves.getElem? hi.2.2⟩

theorem exists_inSegment (hg : Regrown f g δ γ) (hi : g.InSegment i h) :
    ∃ h₀, f.InSegment i h₀ ∧ h = h₀.moved (δ i) (γ i) := by
  obtain ⟨h₀, hh₀, rfl⟩ := hg.moves.exists_of_getElem? hi.2.2
  exact ⟨h₀, ⟨hi.1, by rw [← hg.ftidx]; exact hi.2.1, hh₀⟩, rfl⟩

theorem strictestBehind (hg : Regrown f g δ γ) (s i : Nat) :
    g.strictestBehind s i = f.strictestBehind s i := by
  have halign := hg.moves.map_eq (fun h => h.addralign.toNat) fun _ _ _ => rfl
  rw [LinkFile.strictestBehind, LinkFile.strictestBehind, alignments, alignments, behind, behind,
    List.map_take, List.map_drop, halign, ← List.map_drop, ← List.map_take]

theorem shiftOf (hg : Regrown f g δ γ) (s e i : Nat) : g.shiftOf s e i = f.shiftOf s e i := by
  rw [LinkFile.shiftOf, LinkFile.shiftOf, hg.ftidx, hg.strictestBehind]

theorem addrOf (hg : Regrown f g δ γ) {addr : BitVec 64} (hi : f.addrOf i = some addr) :
    g.addrOf i = some (addr + BitVec.ofNat 64 (δ i)) := by
  rw [LinkFile.addrOf, Option.map_eq_some_iff] at hi ⊢
  obtain ⟨h, hh, rfl⟩ := hi
  exact ⟨_, hg.moves.getElem? hh, rfl⟩

/-- Room made in the moved file is room made in the first one. -/
theorem makesRoom (hg : Regrown f g δ γ) (hr : g.MakesRoom δ' γ' b) : f.MakesRoom δ' γ' b where
  room i j hi hij hj := hr.room i j hi hij (by rw [hg.ftidx]; exact hj)
  aligned i h hi := by
    have haligned := hr.aligned i _ (hg.inSegment hi)
    rwa [SectionHeader.moved_addralign] at haligned
  shift_le := hr.shift_le
  growth_le := hr.growth_le

/-- Aligned moves leave the file ready for what room is left. -/
theorem ready (hg : Regrown f g δ γ) (hf : f.Ready (b + c)) (hle : ∀ i, δ i ≤ b)
    (halign : ∀ i h, f.InSegment i h → AlignedTo h.addralign.toNat (δ i)) : g.Ready c := by
  have haddr : ∀ i h, f.InSegment i h → (h.moved (δ i) (γ i)).addr.toNat = h.addr.toNat + δ i := by
    intro i h hi
    have hlow := hf.low i h hi
    have hδ := hle i
    rw [SectionHeader.moved, BitVec.toNat_add, BitVec.toNat_ofNat, Nat.mod_eq_of_lt (a := δ i) (by omega),
      Nat.mod_eq_of_lt (by omega)]
  refine ⟨by rw [hg.ftidx, hg.length]; exact hf.init, fun i h' hi => ?_,
    (Nat.le_add_left c b).trans_lt hf.bound, fun i h' hi => ?_⟩
  · obtain ⟨h, hh, rfl⟩ := hg.exists_inSegment hi
    have hreg := hf.regular i h hh
    refine ⟨fun hzero => hreg.mapped (BitVec.eq_of_toNat_eq ?_), hreg.alignment, hreg.alignment_lt, ?_⟩
    · have hsum := haddr i h hh
      rw [hzero] at hsum
      have h0 : (0 : BitVec 64).toNat = 0 := rfl
      omega
    · rw [haddr i h hh]
      exact hreg.aligned.add (halign i h hh)
  · obtain ⟨h, hh, rfl⟩ := hg.exists_inSegment hi
    have hlow := hf.low i h hh
    have hδ := hle i
    rw [haddr i h hh]
    omega

end Regrown

theorem Ready.mono (hf : f.Ready b) (hc : c ≤ b) : f.Ready c where
  init := hf.init
  regular := hf.regular
  bound := hc.trans_lt hf.bound
  low i h hi := (Nat.add_le_add_left hc _).trans_lt (hf.low i h hi)

/-- Growing a header moves nothing. -/
theorem regrown_growHeader (f : LinkFile) (s : Nat) (size : BitVec 32) :
    Regrown f (f.growHeader s size) (fun _ => 0) (growthAt s size.toNat) := by
  have hwiden : size.setWidth 64 = BitVec.ofNat 64 size.toNat :=
    BitVec.eq_of_toNat_eq (by rw [BitVec.toNat_setWidth, BitVec.toNat_ofNat])
  have hgrow : ∀ h : SectionHeader,
      { h with size := h.size + size.setWidth 64 } = h.moved 0 size.toNat := by
    intro h
    rw [SectionHeader.moved, hwiden, BitVec.add_zero, BitVec.add_zero]
  refine ⟨List.ext_getElem? fun i => ?_, rfl, rfl⟩
  rw [growHeader, List.getElem?_modify, List.getElem?_mapIdx]
  refine congrArg (fun u => u <$> f.sectionHeaders[i]?) (funext fun h => ?_)
  rw [hgrow, growthAt]
  rcases eq_or_ne i s with rfl | hne
  · rw [if_pos rfl, if_pos rfl]
  · rw [if_neg hne.symm, if_neg hne, SectionHeader.moved_zero]

/-- **A displacement by the aligned amount.** -/
theorem Ready.displace (hf : f.Ready b) (mappedOnly : Bool) (s : Nat) (size : BitVec 32)
    (hb : roundUp (f.strictestBehind 0 f.ftidx) size.toNat ≤ b) :
    ∃ headers e, f.displace mappedOnly id s size = some ({ f with sectionHeaders := headers }, e) ∧
      e.toNat = roundUp (f.strictestBehind s f.ftidx) size.toNat ∧
      Moves (f.shiftOf s size.toNat) (fun _ => 0) f.sectionHeaders headers := by
  have hall : ∀ i, s < i → i ≤ f.ftidx → roundUp (f.strictestBehind s i) size.toNat ≤ b :=
    fun i hs hi => (roundUp_strictestBehind_le hf.regular (Nat.zero_le s) hs.le hi le_rfl _).trans hb
  have hlast := (roundUp_last_le hf.regular s size.toNat).trans hb
  obtain ⟨headers, e, hrun, he, hmoves⟩ := displace_spec mappedOnly id b s size hf.init hf.regular
    hf.low hlast
  refine ⟨headers, e, hrun, he, hmoves.congr (fun i => ?_) fun _ => rfl⟩
  rw [shiftOf]
  split
  · rename_i hi
    have hle := hall i hi.1 hi.2
    rw [id, BitVec.toNat_ofNat, Nat.mod_eq_of_lt (hle.trans_lt hf.bound)]
  · rfl

/-! ## Entries that follow -/

/-- The increment of an entry that follows is the shift of its section. -/
theorem Follows.shift_eq {size e : Nat} {incremented : Bool}
    (h : f.Follows s size incremented i) (he : e = roundUp (f.strictestBehind s f.ftidx) size) :
    (if incremented then e else 0) = f.shiftOf s size i := by
  rcases h with rfl | h
  · have hzero : ∀ a, roundUp a 0 = 0 := fun a => roundUp_eq_self (Nat.dvd_zero a)
    rw [he, hzero, shiftOf, hzero, ite_self, ite_self]
  · cases incremented with
    | true =>
      obtain ⟨hs, hi, heq⟩ := h
      rw [if_pos rfl, shiftOf_of_mem hs hi, he, heq]
    | false =>
      rw [if_neg Bool.false_ne_true]
      rcases h with hi | hi
      · exact (shiftOf_of_le hi).symm
      · exact (shiftOf_of_ftidx_lt hi).symm

/-- Entries that are moved as far as their sections still point to them. -/
theorem LinkedFor.map (hl : f.LinkedFor U) (hg : Regrown f g δ γ) {F : Dynamic → Dynamic}
    (hdyn : g.dynamics = f.dynamics.map F) (htag : ∀ d, (F d).tag = d.tag)
    (hvalue : ∀ d i, f.PointsTo U d i → (F d).value = d.value + BitVec.ofNat 64 (δ i)) :
    g.LinkedFor U := by
  rintro d' i ⟨hmem, hU, htable⟩
  rw [hdyn, List.mem_map] at hmem
  obtain ⟨d, hd, rfl⟩ := hmem
  rw [htag] at hU htable
  rw [hg.layout] at htable
  have hpoints : f.PointsTo U d i := ⟨hd, hU, htable⟩
  rw [hg.addrOf (hl d i hpoints), hvalue d i hpoints]

end LinkFile

end Pebil

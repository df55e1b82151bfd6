import Mathlib.Tactic.IntervalCases
import Pebil.Elf.LinkOperations

/-!
# The dynamic table while the tables grow

An entry of the dynamic table is moved right if its section is moved by as much as the
last section in front of `.init`, and left alone right if its section stays. Where that
holds of every entry the file stays consistent (`consistentThroughout`); a stricter
alignment behind a section is enough to break it (`versym_not_followed`).
-/

namespace Pebil

namespace LinkFile

variable {f g k : LinkFile} {δ γ : Nat → Nat} {s i b idx : Nat}

/-! ## Runs -/

theorem expandHash_grown (hf : f.WellFormed) (hs : (LinkOp.expandHash idx).Safe f)
    (hg : f.expandHashTable idx = some g) : f.Grown g ((LinkOp.expandHash idx).needed f) := by
  obtain ⟨h, hidx⟩ : ∃ h, f.hashTables[idx]? = some h := by
    simp only [expandHashTable, Option.bind_eq_bind, Option.bind_eq_some_iff] at hg
    exact hg.imp fun _ h => h.1
  have hle : roundUp (f.strictestBehind 0 f.ftidx) (h.table.numberOfEntries / 2 * h.table.entrySize) ≤
      (LinkOp.expandHash idx).needed f := by
    refine le_needed (List.mem_map_of_mem ?_)
    rw [hidx]
    exact List.mem_singleton_self h
  obtain ⟨hgrown, -⟩ := expandHash_spec (hf.ready hs.fits) hf.linked hidx hle (hs.follow h hidx) hg
  exact ⟨hgrown.linked, _, _, hgrown.regrown, (makesRoom_shiftOf hf.regular _ _).mono hle⟩

/-- Step lemma: what any operation comes to. -/
theorem step_grown {op : LinkOp} (hf : f.WellFormed) (hs : op.Safe f) (h : f.step op = some g) :
    f.Grown g (op.needed f) := by
  cases op with
  | addString length => exact addString_spec hf hs h
  | addPLTRelocation => exact addPLTRelocation_spec hf hs h
  | expandHash idx => exact expandHash_grown hf hs h
  | addSymbol sym => exact addSymbol_spec hf hs h

/-- The fields of a moved header, where nothing overflows. -/
theorem moved_toNat {h : SectionHeader} {d e : Nat} (haddr : h.addr.toNat + b < 2 ^ 32)
    (hoffset : h.offset.toNat + b < 2 ^ 64) (hsize : h.size.toNat + b < 2 ^ 64) (hd : d ≤ b)
    (he : e ≤ b) : (h.moved d e).addr.toNat = h.addr.toNat + d ∧
      (h.moved d e).offset.toNat = h.offset.toNat + d ∧
      (h.moved d e).size.toNat = h.size.toNat + e := by
  have hsum : ∀ (x : BitVec 64) (n : Nat), x.toNat + n < 2 ^ 64 →
      (x + BitVec.ofNat 64 n).toNat = x.toNat + n := by
    intro x n hn
    rw [BitVec.toNat_add, BitVec.toNat_ofNat, Nat.mod_eq_of_lt (a := n) (by omega), Nat.mod_eq_of_lt hn]
  exact ⟨hsum _ _ (by omega), hsum _ _ (by omega), hsum _ _ (by omega)⟩

/-- A section below another stays below it where the room is made. -/
theorem below_moved {h h' : SectionHeader} {d e d' e' : Nat} (hbelow : h.Below h')
    (hm : (h.moved d e).addr.toNat = h.addr.toNat + d ∧
      (h.moved d e).offset.toNat = h.offset.toNat + d ∧ (h.moved d e).size.toNat = h.size.toNat + e)
    (hm' : (h'.moved d' e').addr.toNat = h'.addr.toNat + d' ∧
      (h'.moved d' e').offset.toNat = h'.offset.toNat + d' ∧
      (h'.moved d' e').size.toNat = h'.size.toNat + e')
    (hroom : d + e ≤ d') : (h.moved d e).Below (h'.moved d' e') := by
  obtain ⟨haddr, hoffset⟩ := hbelow
  have htype : (h.moved d e).type = h.type := rfl
  have hfile : (h.moved d e).fileSize ≤ h.fileSize + e := by
    rw [SectionHeader.fileSize, SectionHeader.fileSize, htype, hm.2.2]
    split <;> omega
  rw [SectionHeader.Below, hm.1, hm.2.1, hm.2.2, hm'.1, hm'.2.1]
  omega

/-- A grown file is as well-formed as before. -/
theorem Grown.wellFormed {op : LinkOp} (hg : f.Grown g (op.needed f)) (hf : f.WellFormed)
    (hs : op.Safe f) : g.WellFormed := by
  obtain ⟨hlinked, δ, γ, hr, hroom⟩ := hg
  have hready : g.Ready 0 := hr.ready (hf.ready hs.fits) hroom.shift_le hroom.aligned
  have hfields : ∀ i h, f.InSegment i h → _ := fun i h hi =>
    moved_toNat (hs.fits.2 i h hi).1 (hs.fits.2 i h hi).2.1 (hs.fits.2 i h hi).2.2
      (hroom.shift_le i) (hroom.growth_le i)
  have hascending : g.Ascending := by
    intro i j h h' hi hj hij
    obtain ⟨h₀, hi₀, rfl⟩ := hr.exists_inSegment hi
    obtain ⟨h₀', hj₀, rfl⟩ := hr.exists_inSegment hj
    exact below_moved (hs.ascending i j h₀ h₀' hi₀ hj₀ hij) (hfields i h₀ hi₀) (hfields j h₀' hj₀)
      (hroom.room i j hi₀.1 hij hj₀.2.1)
  refine ⟨hready.init, hready.regular, hascending.disjoint, hlinked, ?_, ?_,
    hr.uniqueTags hf.unique, by rw [hr.tags]; exact hf.relocations⟩
  · rw [show g.dynstr = f.dynstr from congrArg LinkLayout.dynstr hr.layout,
      show g.stringTables = f.stringTables from congrArg LinkLayout.stringTables hr.layout]
    exact hf.strings
  · rw [show g.symbols.sectionIndex = f.symbols.sectionIndex from congrArg LinkLayout.dynsym hr.layout,
      show g.symbolTables = f.symbolTables from congrArg LinkLayout.symbolTables hr.layout]
    exact hf.symbols

/-- A grown file is consistent. -/
theorem Grown.consistent (hg : f.Grown g b) (hwf : g.WellFormed) : f.Consistent g := by
  obtain ⟨hlinked, δ, γ, hr, -⟩ := hg
  refine ⟨fun k d i hd htable => ?_, hwf.disjoint, fun i h hi => (hwf.regular i h hi).aligned⟩
  have htag : g.tags[k]? = some d.tag := by
    rw [hr.tags, tags, List.getElem?_map, hd]
    rfl
  rw [tags, List.getElem?_map, Option.map_eq_some_iff] at htag
  obtain ⟨d', hd', htag⟩ := htag
  exact ⟨d', hd', htag, hlinked d' i ⟨List.mem_of_getElem? hd', trivial, by
    rw [htag, hr.layout]
    exact htable⟩⟩

end LinkFile

/-- **Runs.** A well-formed file stays consistent throughout a run all of whose operations are
safe. -/
theorem consistentThroughout {f : LinkFile} {ops : List LinkOp} (hf : f.WellFormed)
    (hs : f.SafeThroughout ops) : f.ConsistentThroughout ops := by
  induction ops generalizing f with
  | nil => trivial
  | cons op ops ih =>
    intro g hg
    obtain ⟨hsafe, hrest⟩ := hs g hg
    have hgrown := LinkFile.step_grown hf hsafe hg
    have hwf := hgrown.wellFormed hf hsafe
    exact ⟨hgrown.consistent hwf, ih hwf hrest⟩

/-! ## A stricter alignment behind the version table -/

/-- A section of the example. -/
def linkSection (name : String) (addr size align : BitVec 64) : SectionHeader where
  id := 0
  index := 0
  sectionNamePtr := some name
  name := 0
  type := 1
  flags := 0
  addr := addr
  offset := addr - 0x400000
  size := size
  link := 0
  info := 0
  addralign := align
  entsize := 0

/-- A file whose last section in front of `.init` is aligned to eight, or to sixteen. -/
def linkFile (sixteen : Bool) : LinkFile where
  is64Bit := true
  sectionHeaders := [linkSection "" 0 0 0, linkSection ".dynsym" 0x400200 0x60 8,
    linkSection ".dynstr" 0x400260 0x20 1, linkSection ".gnu.version" 0x400280 8 2,
    linkSection ".note" 0x400290 0x10 (if sixteen then 16 else 8), linkSection ".init" 0x401000 0x10 4]
  dynamics := [⟨.strtab, 0x400260⟩, ⟨.symtab, 0x400200⟩, ⟨.versym, 0x400280⟩]
  stringTables := [2]
  symbolTables := [1]
  relocationTables := []
  hashTables := []
  symbols := ⟨1, [], [], [], rfl⟩
  versym := 3
  verneed := 0
  dynstr := 2
  dynrel := 0
  pltrel := 0

section Example

variable (sixteen : Bool)

theorem linkFile_ftidx : (linkFile sixteen).ftidx = 4 := by
  cases sixteen <;> rfl

/-- A section aligned to a power of two. -/
theorem SectionHeader.regular_of_pow {h : SectionHeader} (n : Nat) (hn : n < 32)
    (halign : h.addralign.toNat = 2 ^ n) (haddr : h.addr ≠ 0) (hdvd : 2 ^ n ∣ h.addr.toNat) :
    h.Regular :=
  ⟨haddr, Or.inr ⟨n, halign⟩, by rw [halign]; exact Nat.pow_lt_pow_right (by decide) hn,
    Or.inr (by rwa [halign])⟩

theorem linkFile_regular : ∀ i h, (linkFile sixteen).InSegment i h → h.Regular := by
  rintro i h ⟨hi1, hit, hi⟩
  rw [linkFile_ftidx] at hit
  interval_cases i <;> cases hi
  · exact SectionHeader.regular_of_pow 3 (by decide) rfl (by decide) (by decide)
  · exact SectionHeader.regular_of_pow 0 (by decide) rfl (by decide) (by decide)
  · exact SectionHeader.regular_of_pow 1 (by decide) rfl (by decide) (by decide)
  · cases sixteen
    · exact SectionHeader.regular_of_pow 3 (by decide) rfl (by decide) (by decide)
    · exact SectionHeader.regular_of_pow 4 (by decide) rfl (by decide) (by decide)

theorem linkFile_ascending : (linkFile sixteen).Ascending := by
  rintro i j h h' ⟨hi1, hit, hi⟩ ⟨hj1, hjt, hj⟩ hij
  rw [linkFile_ftidx] at hit hjt
  cases sixteen <;> interval_cases i <;> interval_cases j <;> first
    | exact absurd hij (by decide)
    | (cases hi; cases hj; exact ⟨by decide, by decide⟩)

theorem linkFile_linked : (linkFile sixteen).Linked := by
  rintro d i ⟨hmem, -, htable⟩
  simp only [linkFile, List.mem_cons, List.not_mem_nil, or_false] at hmem
  rcases hmem with rfl | rfl | rfl <;> cases htable <;> rfl

theorem linkFile_wellFormed : (linkFile sixteen).WellFormed where
  init := by rw [linkFile_ftidx]; exact (by decide : 4 < 6)
  regular := linkFile_regular sixteen
  disjoint := (linkFile_ascending sixteen).disjoint
  linked := linkFile_linked sixteen
  strings := List.mem_cons_self
  symbols := List.mem_cons_self
  unique j k tag hj hk _ := by
    have hnodup : (linkFile sixteen).tags.Nodup := by
      change [DynTag.strtab, .symtab, .versym].Nodup
      decide
    obtain ⟨hj', hj⟩ := List.getElem?_eq_some_iff.mp hj
    obtain ⟨hk', hk⟩ := List.getElem?_eq_some_iff.mp hk
    exact hnodup.getElem_inj_iff.mp (hj.trans hk.symm)
  relocations := Or.inl (by
    change DynTag.rel ∉ [DynTag.strtab, .symtab, .versym]
    decide)

end Example

/-- With alignments of at most eight a string can be added. -/
theorem consistentThroughout_linkFile : (linkFile false).ConsistentThroughout [.addString 1] := by
  refine consistentThroughout (linkFile_wellFormed false) fun g _ => ⟨?_, trivial⟩
  have hneeded : (LinkOp.addString 1).needed (linkFile false) = 8 := rfl
  refine ⟨linkFile_ascending false, ?_, ?_⟩
  · rw [LinkOp.Fits, hneeded]
    refine ⟨by decide, ?_⟩
    rintro i h ⟨hi1, hit, hi⟩
    rw [linkFile_ftidx] at hit
    interval_cases i <;> cases hi <;> decide
  · rintro d i ⟨hmem, -, htable⟩
    simp only [linkFile, List.mem_cons, List.not_mem_nil, or_false] at hmem
    rcases hmem with rfl | rfl | rfl <;> cases htable
    · exact Or.inr (Or.inl (by decide))
    · exact Or.inr (Or.inl (by decide))
    · exact Or.inr ⟨by decide, by decide, by decide +kernel⟩

/-- An alignment of sixteen moves `.note`, and with it `DT_VERSYM`, further than `.gnu.version`. -/
theorem versym_not_followed : (linkFile true).WellFormed ∧
    ¬ (linkFile true).ConsistentThroughout [.addString 1] := by
  refine ⟨linkFile_wellFormed true, fun hcons => ?_⟩
  have hrun : ((linkFile true).step (.addString 1)).map
      (fun g => (g.addrOf 3, g.dynamics[2]?.map Dynamic.value)) =
        some (some 0x400288, some 0x400290) := rfl
  obtain ⟨g, hg, hfields⟩ := Option.map_eq_some_iff.mp hrun
  obtain ⟨haddr, hvalue⟩ := Prod.mk.inj hfields
  obtain ⟨d', hd', -, hpoints⟩ := (hcons g hg).1.pointers 2 ⟨.versym, 0x400280⟩ 3 rfl rfl
  rw [hd'] at hvalue
  rw [haddr] at hpoints
  have heq : (0x400288 : BitVec 64) = 0x400290 :=
    (Option.some.inj hpoints).trans (Option.some.inj hvalue)
  exact absurd heq (by decide)

end Pebil

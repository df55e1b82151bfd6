import Mathlib.Tactic.ByContra
import Pebil.Elf.LinkConsistent

/-!
# The four operations on a consistent file

One growth makes its own room and carries the entries that follow it (`Ready.grow`,
`LinkedFor.increment`). A string, a relocation and an expanded hash table are one growth
each; a symbol is the growth of the symbol table, of the hash tables and of the version
table, and the entries that have not followed are set at the end.
-/

namespace Pebil

namespace LinkFile

variable {f g k : LinkFile} {δ γ δ' γ' : Nat → Nat} {s i b c : Nat} {h : SectionHeader}
  {U : DynTag → Prop}

/-! ## The operations -/

/-- **Growing a section** and displacing those behind it; `F` is `f` with the header grown. -/
theorem Ready.grow {F : LinkFile} {size : BitVec 32} (hf : f.Ready b) (mappedOnly : Bool)
    (hF : Regrown f F (fun _ => 0) (growthAt s size.toNat))
    (hb : roundUp (f.strictestBehind 0 f.ftidx) size.toNat ≤ b) :
    ∃ G e, F.displace mappedOnly id s size = some (G, e) ∧
      (∃ headers, G = { F with sectionHeaders := headers }) ∧
      e.toNat = roundUp (f.strictestBehind s f.ftidx) size.toNat ∧
      Regrown f G (f.shiftOf s size.toNat) (growthAt s size.toNat) := by
  have hready : F.Ready b := hF.ready (by rwa [Nat.zero_add]) (fun _ => le_rfl)
    fun _ _ _ => Or.inr (Nat.dvd_zero _)
  obtain ⟨headers, e, hrun, he, hmoves⟩ := hready.displace mappedOnly s size
    (by rwa [hF.ftidx, hF.strictestBehind])
  refine ⟨_, e, hrun, ⟨headers, rfl⟩, by rw [he, hF.ftidx, hF.strictestBehind], ?_⟩
  have hG : Regrown F { F with sectionHeaders := headers } _ _ := ⟨hmoves, rfl, rfl⟩
  refine (hF.trans hG).congr (fun i => ?_) fun i => Nat.add_zero _
  rw [Nat.zero_add, hF.shiftOf]

theorem uniqueTable_eq {tables : List Nat} {addr : BitVec 64} {t : Nat}
    (h : f.uniqueTable tables addr = some s) (ht : t ∈ tables) (haddr : f.addrOf t = some addr) :
    s = t := by
  have hmem : t ∈ tables.filter fun i => f.addrOf i == some addr :=
    List.mem_filter.mpr ⟨ht, by rw [haddr]; exact beq_self_eq_true _⟩
  rw [uniqueTable] at h
  split at h
  · rename_i i heq
    rw [heq, List.mem_singleton] at hmem
    rw [hmem]
    exact (Option.some.inj h).symm
  · cases h

theorem getDynamicByType_spec {tag : DynTag} {d : Dynamic} (h : f.getDynamicByType tag = some d) :
    d ∈ f.dynamics ∧ d.tag = tag := by
  have hfind := List.find?_eq_some_iff_append.mp h
  exact ⟨List.mem_of_find?_eq_some h, beq_iff_eq.mp hfind.1⟩

theorem incrementIf_value (p : Dynamic → Bool) (e : BitVec 32) (d : Dynamic) :
    (d.incrementIf p e).value = d.value + BitVec.ofNat 64 (if p d then e.toNat else 0) := by
  have hwiden : e.setWidth 64 = BitVec.ofNat 64 e.toNat :=
    BitVec.eq_of_toNat_eq (by rw [BitVec.toNat_setWidth, BitVec.toNat_ofNat])
  rw [Dynamic.incrementIf]
  split
  · rw [hwiden]
  · exact (BitVec.add_zero _).symm

theorem incrementIf_tag (p : Dynamic → Bool) (e : BitVec 32) (d : Dynamic) :
    (d.incrementIf p e).tag = d.tag := by
  rw [Dynamic.incrementIf]
  split <;> rfl

theorem Regrown.increment (hg : Regrown f g δ γ) (p : Dynamic → Bool) (e : BitVec 32) :
    Regrown f (g.incrementEntries p e) δ γ := by
  refine ⟨hg.moves, hg.layout, ?_⟩
  rw [LinkFile.tags, incrementEntries, List.map_map, ← hg.tags]
  exact List.map_congr_left fun d _ => incrementIf_tag p e d

theorem LinkedFor.mono {V : DynTag → Prop} (hl : f.LinkedFor U) (h : ∀ tag, V tag → U tag) :
    f.LinkedFor V := fun d i hd => hl d i ⟨hd.1, h d.tag hd.2.1, hd.2.2⟩

/-- **One growth** with its entries: displaced sections and incremented entries. -/
theorem LinkedFor.increment {G : LinkFile} {size : Nat} {e : BitVec 32} {p : Dynamic → Bool}
    (hl : f.LinkedFor U) (hG : Regrown f G (f.shiftOf s size) γ) (hdyn : G.dynamics = f.dynamics)
    (he : e.toNat = roundUp (f.strictestBehind s f.ftidx) size)
    (hfollow : ∀ d i, f.PointsTo U d i → f.Follows s size (p d) i) :
    (G.incrementEntries p e).LinkedFor U := by
  refine hl.map (hG.increment p e) (F := Dynamic.incrementIf p e) (by rw [incrementEntries, hdyn])
    (incrementIf_tag p e) fun d i hd => ?_
  rw [incrementIf_value, (hfollow d i hd).shift_eq he]

/-- What an operation of the four comes to. -/
structure Grown (f g : LinkFile) (b : Nat) : Prop where
  linked : g.Linked
  exists_regrown : ∃ δ γ, Regrown f g δ γ ∧ f.MakesRoom δ γ b

theorem WellFormed.ready {op : LinkOp} (hf : f.WellFormed) (hfits : op.Fits f) : f.Ready (op.needed f) :=
  ⟨hf.init, hf.regular, hfits.1, fun i h hi => (hfits.2 i h hi).1⟩

theorem WellFormed.string_toNat {length n : Nat} (hfits : roundUp n (roundUp 8 (length + 1)) < 2 ^ 32) :
    ((nextAlignAddressDouble (BitVec.ofNat 64 (length + 1))).setWidth 32).toNat =
      roundUp 8 (length + 1) := by
  have hle := le_roundUp n (roundUp 8 (length + 1))
  have hle' := le_roundUp 8 (length + 1)
  have hnat : (BitVec.ofNat 64 (length + 1)).toNat = length + 1 := by
    rw [BitVec.toNat_ofNat, Nat.mod_eq_of_lt (by omega)]
  rw [BitVec.toNat_setWidth, nextAlignAddressDouble_toNat (by omega), hnat,
    Nat.mod_eq_of_lt (by omega)]

theorem addString_spec {length : Nat} (hf : f.WellFormed) (hs : (LinkOp.addString length).Safe f)
    (h : f.addStringToDynamicStringTable length = some g) :
    f.Grown g ((LinkOp.addString length).needed f) := by
  have hneeded : (LinkOp.addString length).needed f =
      roundUp (f.strictestBehind 0 f.ftidx) (roundUp 8 (length + 1)) := by
    rw [LinkOp.needed, LinkOp.growths, List.map_singleton, List.sum_singleton]
  have hready := hf.ready hs.fits
  rw [hneeded] at hready ⊢
  have hsize := WellFormed.string_toNat hready.bound
  simp only [addStringToDynamicStringTable, Option.bind_eq_bind, Option.bind_eq_some_iff,
    Option.pure_def, Option.some.injEq] at h
  obtain ⟨strtab, hstrtab, s, hunique, ⟨F, e⟩, hdisplace, addr, -, -, -, rfl⟩ := h
  obtain ⟨hmem, htag⟩ := getDynamicByType_spec hstrtab
  obtain rfl : s = f.dynstr := uniqueTable_eq hunique hf.strings
    (hf.linked strtab f.dynstr ⟨hmem, trivial, by rw [htag]; rfl⟩)
  obtain ⟨G, e', hrun, ⟨headers, rfl⟩, he, hG⟩ :=
    hready.grow false (regrown_growHeader f f.dynstr _) (by rw [hsize])
  obtain ⟨rfl, rfl⟩ := Prod.mk.inj (Option.some.inj (hdisplace.symm.trans hrun))
  rw [hsize] at he hG
  exact ⟨hf.linked.increment hG rfl he hs.follow, _, _, hG.increment _ _,
    makesRoom_shiftOf hf.regular _ _⟩

theorem MakesRoom.mono (h : f.MakesRoom δ γ b) (hb : b ≤ c) : f.MakesRoom δ γ c :=
  ⟨h.room, h.aligned, fun i => (h.shift_le i).trans hb, fun i => (h.growth_le i).trans hb⟩

theorem Grown.mono (h : f.Grown g b) (hb : b ≤ c) : f.Grown g c :=
  ⟨h.linked, h.exists_regrown.imp fun _ => Exists.imp fun _ hr => ⟨hr.1, hr.2.mono hb⟩⟩

/-- One of the growths of an operation is not more than all of them. -/
theorem le_needed {op : LinkOp} {size : Nat} (hmem : size ∈ op.growths f) :
    roundUp (f.strictestBehind 0 f.ftidx) size ≤ op.needed f :=
  List.single_le_sum (fun _ _ => Nat.zero_le _) _ (List.mem_map_of_mem hmem)

theorem addPLTRelocation_spec (hf : f.WellFormed) (hs : LinkOp.addPLTRelocation.Safe f)
    (h : f.addPLTRelocationEntry = some g) : f.Grown g (LinkOp.addPLTRelocation.needed f) := by
  simp only [addPLTRelocationEntry, Option.bind_eq_bind, Option.bind_eq_some_iff,
    Option.pure_def, Option.some.injEq] at h
  obtain ⟨-, -, -, -, -, -, s, hsection, k, hk, table, htable, -, -, ⟨F, e⟩, hdisplace, addr, haddr,
    -, -, rfl⟩ := h
  have hindex : table.sectionIndex = s := by
    obtain ⟨hlt, hfound, -⟩ := List.findIdx?_eq_some_iff_getElem.mp hk
    rw [List.getElem?_eq_getElem hlt, Option.some.injEq] at htable
    rw [← htable]
    exact beq_iff_eq.mp hfound
  have hmem : table ∈ f.relocationTables := List.mem_of_getElem? htable
  have hle : roundUp (f.strictestBehind 0 f.ftidx) table.relocationSize ≤
      LinkOp.addPLTRelocation.needed f := by
    refine le_needed (List.mem_map_of_mem (List.mem_filter.mpr ⟨hmem, decide_eq_true ?_⟩))
    rw [hsection, hindex]
  have hready := (hf.ready hs.fits).mono hle
  have hsize : (BitVec.ofNat 32 table.relocationSize).toNat = table.relocationSize := by
    rw [BitVec.toNat_ofNat, Nat.mod_eq_of_lt ((le_roundUp _ _).trans_lt hready.bound)]
  have hgrown := regrown_growHeader f s (BitVec.ofNat 32 table.relocationSize)
  obtain ⟨G, e', hrun, ⟨headers, rfl⟩, he, hG⟩ := hready.grow true (s := s)
    (F := { f.growHeader s (BitVec.ofNat 32 table.relocationSize) with
      relocationTables := f.relocationTables.set k
        { table with numberOfRelocations := table.numberOfRelocations + 1 } })
    ⟨hgrown.moves, hgrown.layout, hgrown.tags⟩ (by rw [hsize])
  obtain ⟨rfl, rfl⟩ := Prod.mk.inj (Option.some.inj (hdisplace.symm.trans hrun))
  rw [hsize] at he hG
  -- the grown section itself does not move
  have haddr' : f.addrOf s = some addr := by
    rw [addrOf, Option.map_eq_some_iff] at haddr
    obtain ⟨h', hh', rfl⟩ := haddr
    obtain ⟨h₀, hh₀, rfl⟩ := hG.moves.exists_of_getElem? hh'
    rw [addrOf, hh₀, shiftOf_of_le le_rfl]
    exact congrArg some (BitVec.add_zero _).symm
  have hfollow := hs.follow s addr hsection haddr' table hmem hindex
  have hregrown := (hG.increment (fun d => d.tag == .pltrelsz)
    (BitVec.ofNat 32 table.relocationSize)).increment
      (fun d => (d.tag == .rel || d.tag == .rela) && addr < d.value) e
  refine ⟨?_, _, _, hregrown, (makesRoom_shiftOf hf.regular _ _).mono hle⟩
  refine hf.linked.map hregrown (List.map_map ..) (fun d => ?_) fun d i hd => ?_
  · rw [Function.comp_apply, incrementIf_tag, incrementIf_tag]
  · -- the first increment leaves the pointers alone
    have hother : d.incrementIf (fun d => d.tag == .pltrelsz) (BitVec.ofNat 32 table.relocationSize) =
        d := by
      have htag : d.tag ≠ .pltrelsz := fun htag => by
        have htable := hd.2.2
        rw [htag] at htable
        cases htable
      rw [Dynamic.incrementIf, if_neg (by rwa [beq_iff_eq])]
    rw [Function.comp_apply, hother, incrementIf_value, (hfollow d i hd).shift_eq he]

end LinkFile

/-! ## Growing the hash tables -/

theorem GnuHashTable.buildTable_sectionIndex {t t' : GnuHashTable} {d d' : DynamicSymbols}
    {numEntries numBuckets : Nat} (h : t.buildTable d numEntries numBuckets = some (t', d')) :
    d'.sectionIndex = d.sectionIndex := by
  rw [buildTable] at h
  split at h
  · cases h
    rfl
  · simp only at h
    split at h
    · cases h
    · split at h
      · cases h
      · split at h
        · cases h
        · split at h
          · cases h
            rfl
          · cases h

namespace HashTable

variable {t t' : HashTable} {d d' : DynamicSymbols} {amt : Nat}

/-- A hash table stays of its style, and the symbols in their section. -/
theorem addEntry_style (h : t.addEntry d = some (t', d')) :
    t'.isGnuStyleHash = t.isGnuStyleHash ∧ d'.sectionIndex = d.sectionIndex := by
  cases t with
  | sysv s =>
    rw [addEntry, Option.map_eq_some_iff] at h
    obtain ⟨s', -, heq⟩ := h
    cases heq
    exact ⟨rfl, rfl⟩
  | gnu g =>
    rw [addEntry, Option.map_eq_some_iff] at h
    obtain ⟨⟨g', e⟩, hbuild, heq⟩ := h
    cases heq
    exact ⟨rfl, GnuHashTable.buildTable_sectionIndex hbuild⟩

theorem expandSize_style (h : t.expandSize d amt = some (t', d')) :
    t'.isGnuStyleHash = t.isGnuStyleHash ∧ d'.sectionIndex = d.sectionIndex := by
  cases t with
  | sysv s =>
    rw [expandSize, Option.map_eq_some_iff] at h
    obtain ⟨s', -, heq⟩ := h
    cases heq
    exact ⟨rfl, rfl⟩
  | gnu g =>
    rw [expandSize, Option.map_eq_some_iff] at h
    obtain ⟨⟨g', e⟩, hbuild, heq⟩ := h
    cases heq
    exact ⟨rfl, GnuHashTable.buildTable_sectionIndex hbuild⟩

/-- The counts of a SYSV table that has been given an entry. -/
theorem addEntry_sysv {s : SysvHashTable} (h : (HashTable.sysv s).addEntry d = some (t', d')) :
    t'.numberOfBuckets = pred32 s.buckets.length ∧ t'.numberOfEntries = s.entries.length + 1 ∧
      t'.entrySize = 4 := by
  rw [addEntry, Option.map_eq_some_iff] at h
  obtain ⟨s', hbuild, heq⟩ := h
  cases heq
  obtain ⟨-, -, hbuckets, hentries, hlen⟩ := SysvHashTable.buildTable_some hbuild
  exact ⟨hbuckets, hentries.trans hlen, rfl⟩

end HashTable

namespace LinkFile

variable {f g k : LinkFile} {δ γ : Nat → Nat} {s i b idx n : Nat} {U : DynTag → Prop}
  {h : HashSection}

/-- A table written back under the same style leaves the layout alone. -/
theorem layout_setHashTable {F : LinkFile} {t : HashTable} {d : DynamicSymbols}
    (hF : F.layout = f.layout) (hhash : F.hashTables = f.hashTables)
    (hidx : f.hashTables[idx]? = some h) (ht : t.isGnuStyleHash = h.table.isGnuStyleHash)
    (hd : d.sectionIndex = f.symbols.sectionIndex) :
    ({ F with hashTables := f.hashTables.set idx { h with table := t }, symbols := d } :
      LinkFile).layout = f.layout := by
  have hmap : (f.hashTables.set idx { h with table := t }).map
      (fun h => (h.sectionIndex, h.table.isGnuStyleHash)) =
        f.hashTables.map fun h => (h.sectionIndex, h.table.isGnuStyleHash) :=
    map_set_of_eq hidx (by simp only [ht])
  rw [← hF]
  simp only [layout, hmap, hhash, hd]
  simp only [layout, LinkLayout.mk.injEq] at hF
  rw [hF.2.2.2.2.1]

/-- What `expandHashTable` does to a file whose other hash tables are as before. -/
structure HashGrown (f g : LinkFile) (U : DynTag → Prop) (idx s size : Nat) : Prop where
  regrown : Regrown f g (f.shiftOf s size) (growthAt s size)
  linked : g.LinkedFor U
  others : ∀ j, j ≠ idx → g.hashTables[j]? = f.hashTables[j]?

theorem expandHash_spec (hf : f.Ready b) (hl : f.LinkedFor U) (hidx : f.hashTables[idx]? = some h)
    (hb : roundUp (f.strictestBehind 0 f.ftidx) (h.table.numberOfEntries / 2 * h.table.entrySize) ≤ b)
    (hfollow : ∀ d i, f.PointsTo U d i → f.Follows h.sectionIndex
      (h.table.numberOfEntries / 2 * h.table.entrySize) (behindHash h.table.isGnuStyleHash d.tag) i)
    (hg : f.expandHashTable idx = some g) :
    f.HashGrown g U idx h.sectionIndex (h.table.numberOfEntries / 2 * h.table.entrySize) ∧
      ∃ t, g.hashTables[idx]? = some { h with table := t } ∧
        t.isGnuStyleHash = h.table.isGnuStyleHash := by
  set size := h.table.numberOfEntries / 2 * h.table.entrySize with hsize
  simp only [expandHashTable, Option.bind_eq_bind, Option.bind_eq_some_iff, Option.pure_def,
    Option.some.injEq] at hg
  obtain ⟨h', hh', ⟨t, d⟩, hexpand, ⟨F, e⟩, hdisplace, rfl⟩ := hg
  obtain rfl : h = h' := Option.some.inj (hidx.symm.trans hh')
  obtain ⟨hstyle, hsection⟩ := HashTable.expandSize_style hexpand
  have hnat : (BitVec.ofNat 32 size).toNat = size := by
    rw [BitVec.toNat_ofNat, Nat.mod_eq_of_lt ((le_roundUp _ _).trans_lt (hb.trans_lt hf.bound))]
  have hgrown := regrown_growHeader f h.sectionIndex (BitVec.ofNat 32 size)
  obtain ⟨G, e', hrun, ⟨headers, rfl⟩, he, hG⟩ := hf.grow false (s := h.sectionIndex)
    (F := { f.growHeader h.sectionIndex (BitVec.ofNat 32 size) with
      hashTables := f.hashTables.set idx { h with table := t }, symbols := d })
    ⟨hgrown.moves, layout_setHashTable hgrown.layout rfl hidx hstyle hsection, hgrown.tags⟩
    (by rw [hnat]; exact hb)
  obtain ⟨rfl, rfl⟩ := Prod.mk.inj (Option.some.inj (hdisplace.symm.trans hrun))
  rw [hnat] at he hG
  refine ⟨⟨hG.increment _ _, hl.increment hG rfl he hfollow, fun j hj => ?_⟩, t, ?_, hstyle⟩
  · exact List.getElem?_set_ne hj.symm
  · exact List.getElem?_set_self (List.getElem?_eq_some_iff.mp hidx).1

/-- `addEntry` moves nothing. -/
theorem addHashEntry_spec (hl : f.LinkedFor U) (hidx : f.hashTables[idx]? = some h)
    (hg : f.addHashEntry idx = some g) :
    ∃ t d, h.table.addEntry f.symbols = some (t, d) ∧ g.hashTables[idx]? = some { h with table := t } ∧
      Regrown f g (fun _ => 0) (fun _ => 0) ∧ g.LinkedFor U ∧
      ∀ j, j ≠ idx → g.hashTables[j]? = f.hashTables[j]? := by
  simp only [addHashEntry, Option.bind_eq_bind, Option.bind_eq_some_iff, Option.pure_def,
    Option.some.injEq] at hg
  obtain ⟨h', hh', ⟨t, d⟩, hadd, rfl⟩ := hg
  obtain rfl : h = h' := Option.some.inj (hidx.symm.trans hh')
  obtain ⟨hstyle, hsection⟩ := HashTable.addEntry_style hadd
  have hregrown : Regrown f { f with
      hashTables := f.hashTables.set idx { h with table := t }, symbols := d }
      (fun _ => 0) (fun _ => 0) :=
    ⟨Moves.refl _, layout_setHashTable rfl rfl hidx hstyle hsection, rfl⟩
  refine ⟨t, d, hadd, List.getElem?_set_self (List.getElem?_eq_some_iff.mp hidx).1, hregrown, ?_,
    fun j hj => List.getElem?_set_ne hj.symm⟩
  exact hl.map hregrown (F := id) (List.map_id _).symm (fun _ => rfl) fun d _ _ => (BitVec.add_zero _).symm

theorem HashGrown.refl_of_zero (hl : f.LinkedFor U) : f.HashGrown f U idx s 0 := by
  have hzero : ∀ a, roundUp a 0 = 0 := fun a => roundUp_eq_self (Nat.dvd_zero a)
  refine ⟨(Regrown.refl f).congr (fun i => ?_) (fun i => ?_), hl, fun _ _ => rfl⟩
  · rw [shiftOf, hzero, ite_self]
  · rw [growthAt, ite_self]

/-- The expansion, if there is one; without one the size is 0. -/
theorem expandIfPassed_spec (size : Nat) (hf : f.Ready b) (hl : f.LinkedFor U)
    (hidx : f.hashTables[idx]? = some h)
    (hsize : size = if passedThreshold h.table.numberOfBuckets h.table.numberOfEntries then
      h.table.numberOfEntries / 2 * h.table.entrySize else 0)
    (hb : roundUp (f.strictestBehind 0 f.ftidx) size ≤ b)
    (hfollow : ∀ d i, f.PointsTo U d i →
      f.Follows h.sectionIndex size (behindHash h.table.isGnuStyleHash d.tag) i)
    (hg : f.expandIfPassed idx = some g) :
    f.HashGrown g U idx h.sectionIndex size ∧
      ∃ t, g.hashTables[idx]? = some { h with table := t } ∧
        t.isGnuStyleHash = h.table.isGnuStyleHash := by
  rw [expandIfPassed, passedThresholdAt, hidx] at hg
  by_cases hpassed : passedThreshold h.table.numberOfBuckets h.table.numberOfEntries
  · rw [if_pos hpassed] at hsize hg
    subst hsize
    exact expandHash_spec hf hl hidx hb hfollow hg
  · rw [if_neg hpassed] at hsize hg
    subst hsize
    cases hg
    exact ⟨.refl_of_zero hl, h.table, hidx, rfl⟩

/-- Entries point to the same sections as before. -/
theorem Regrown.pointsTo (hg : Regrown f g δ γ) {d : Dynamic} (hd : g.PointsTo U d i) :
    ∃ d₀, f.PointsTo U d₀ i ∧ d₀.tag = d.tag := by
  have hmem : d.tag ∈ f.tags := hg.tags ▸ List.mem_map_of_mem hd.1
  obtain ⟨d₀, hd₀, htag⟩ := List.mem_map.mp hmem
  exact ⟨d₀, ⟨hd₀, htag ▸ hd.2.1, by rw [htag, ← hg.layout]; exact hd.2.2⟩, htag⟩

/-- Which entries follow is decided by what no operation changes. -/
theorem Regrown.follows (hg : Regrown f g δ γ) {size : Nat} {p : DynTag → Bool}
    (hf : ∀ d i, f.PointsTo U d i → f.Follows s size (p d.tag) i) :
    ∀ d i, g.PointsTo U d i → g.Follows s size (p d.tag) i := by
  intro d i hd
  obtain ⟨d₀, hd₀, htag⟩ := hg.pointsTo hd
  have hfollow := hf d₀ i hd₀
  rw [htag] at hfollow
  rwa [Follows, MovesAlike, Stays, hg.ftidx, hg.strictestBehind, hg.strictestBehind]

theorem HashGrown.of_regrown_left {size : Nat} (hfg : Regrown f g (fun _ => 0) fun _ => 0)
    (hothers : ∀ j, j ≠ idx → g.hashTables[j]? = f.hashTables[j]?)
    (hgk : g.HashGrown k U idx s size) : f.HashGrown k U idx s size := by
  refine ⟨(hfg.trans hgk.regrown).congr (fun i => ?_) fun i => Nat.zero_add _, hgk.linked,
    fun j hj => (hgk.others j hj).trans (hothers j hj)⟩
  rw [Nat.zero_add, hfg.shiftOf]

theorem Regrown.ready_zero (hg : Regrown f g (fun _ => 0) γ) (hf : f.Ready b) : g.Ready b :=
  hg.ready (by rwa [Nat.zero_add]) (fun _ => le_rfl) fun _ _ _ => Or.inr (Nat.dvd_zero _)

/-- **One round** of the loop over the hash tables. -/
theorem growHashTable_spec (hf : f.Ready b) (hl : f.LinkedFor U) (hidx : f.hashTables[idx]? = some h)
    (hb : roundUp (f.strictestBehind 0 f.ftidx) h.table.growth ≤ b)
    (hfollow : ∀ d i, f.PointsTo U d i →
      f.Follows h.sectionIndex h.table.growth (behindHash h.table.isGnuStyleHash d.tag) i)
    (hg : f.growHashTable idx = some g) : f.HashGrown g U idx h.sectionIndex h.table.growth := by
  simp only [growHashTable, Option.bind_eq_bind, Option.bind_eq_some_iff] at hg
  obtain ⟨h', hh', hg⟩ := hg
  obtain rfl : h = h' := Option.some.inj (hidx.symm.trans hh')
  cases htable : h.table with
  | sysv t =>
    -- the entry first, so that the threshold is that of the larger table
    rw [if_neg (by rw [htable]; exact Bool.false_ne_true)] at hg
    obtain ⟨k, hadd, hexpand⟩ := Option.bind_eq_some_iff.mp hg
    obtain ⟨t', d, haddEntry, hidx', hk, hlk, hothers⟩ := addHashEntry_spec hl hidx hadd
    rw [htable] at haddEntry
    obtain ⟨hbuckets, hentries, hentry⟩ := HashTable.addEntry_sysv haddEntry
    have hstyle := (HashTable.addEntry_style haddEntry).1
    rw [htable] at hb hfollow
    refine HashGrown.of_regrown_left hk hothers ?_
    refine (expandIfPassed_spec (HashTable.sysv t).growth (hk.ready_zero hf) hlk hidx' ?_ ?_
      ?_ hexpand).1
    · rw [HashTable.growth, hbuckets, hentries, hentry]
    · rwa [hk.ftidx, hk.strictestBehind]
    · rw [hstyle]
      exact hk.follows hfollow
  | gnu t =>
    rw [if_pos (by rw [htable]; rfl)] at hg
    obtain ⟨k, hexpand, hadd⟩ := Option.bind_eq_some_iff.mp hg
    rw [htable] at hb hfollow
    obtain ⟨hk, t', hidx', -⟩ := expandIfPassed_spec (HashTable.gnu t).growth hf hl hidx
      (by rw [htable]; rfl) hb (by rw [htable]; exact hfollow) hexpand
    obtain ⟨-, -, -, -, hkg, hlg, hothers⟩ := addHashEntry_spec hk.linked hidx' hadd
    refine ⟨(hk.regrown.trans hkg).congr (fun i => Nat.add_zero _) (fun i => Nat.add_zero _), hlg,
      fun j hj => (hothers j hj).trans (hk.others j hj)⟩

/-- **The loop** over the hash tables: every expansion makes its own room. -/
theorem growHashTablesBelow_spec (hf : f.Ready b) (hl : f.LinkedFor U)
    (hb : ((f.hashTables.take n).map fun h => roundUp (f.strictestBehind 0 f.ftidx) h.table.growth).sum ≤ b)
    (hfollow : ∀ h ∈ f.hashTables.take n, ∀ d i, f.PointsTo U d i →
      f.Follows h.sectionIndex h.table.growth (behindHash h.table.isGnuStyleHash d.tag) i)
    (hg : growHashTablesBelow n f = some g) :
    g.LinkedFor U ∧ ∃ δ γ, Regrown f g δ γ ∧ f.MakesRoom δ γ
      ((f.hashTables.take n).map fun h => roundUp (f.strictestBehind 0 f.ftidx) h.table.growth).sum := by
  induction n generalizing f b with
  | zero =>
    cases hg
    exact ⟨hl, _, _, .refl _, fun _ _ _ _ _ => le_rfl, fun _ _ _ => Or.inr (Nat.dvd_zero _),
      fun _ => Nat.zero_le _, fun _ => Nat.zero_le _⟩
  | succ n ih =>
    obtain ⟨k, hk, hkg⟩ := Option.bind_eq_some_iff.mp hg
    obtain ⟨h, hidx⟩ : ∃ h, f.hashTables[n]? = some h := by
      simp only [growHashTable, Option.bind_eq_bind, Option.bind_eq_some_iff] at hk
      exact hk.imp fun _ h => h.1
    have hlast : f.hashTables.take (n + 1) = f.hashTables.take n ++ [h] := by
      rw [List.take_add_one, hidx]
      rfl
    rw [hlast, List.map_append, List.sum_append, List.map_singleton, List.sum_singleton] at hb ⊢
    rw [hlast] at hfollow
    have hround := growHashTable_spec (hf.mono (Nat.le_of_add_left_le hb)) hl hidx le_rfl
      (hfollow h (List.mem_append_right _ (List.mem_singleton_self h))) hk
    have hroom := makesRoom_shiftOf hf.regular h.sectionIndex h.table.growth
    have htake : k.hashTables.take n = f.hashTables.take n := by
      refine List.ext_getElem? fun j => ?_
      rw [List.getElem?_take, List.getElem?_take]
      split
      · rename_i hj
        exact hround.others j hj.ne
      · rfl
    have hready : k.Ready
        ((f.hashTables.take n).map fun h => roundUp (f.strictestBehind 0 f.ftidx) h.table.growth).sum :=
      hround.regrown.ready (hf.mono (by rwa [Nat.add_comm])) hroom.shift_le hroom.aligned
    obtain ⟨hlinked, δ, γ, hregrown, hmakes⟩ := ih hready hround.linked
      (by rw [htake, hround.regrown.ftidx, hround.regrown.strictestBehind])
      (fun h hh => by
        rw [htake] at hh
        exact hround.regrown.follows (hfollow h (List.mem_append_left _ hh))) hkg
    rw [htake, hround.regrown.ftidx, hround.regrown.strictestBehind] at hmakes
    refine ⟨hlinked, _, _, hround.regrown.trans hregrown, ?_⟩
    rw [Nat.add_comm]
    exact hroom.add (hround.regrown.makesRoom hmakes)

/-! ## Adding a symbol -/

/-- The sections behind the symbol table move by the size of a symbol. -/
def symbolShift (f : LinkFile) (i : Nat) : Nat :=
  if f.symbols.sectionIndex < i ∧ i ≤ f.ftidx then f.symbolSize else 0

theorem symbolSize_toNat : (BitVec.ofNat 32 f.symbolSize).toNat = f.symbolSize := by
  rw [symbolSize]
  split <;> rfl

/-- A plain shift makes room for what is no longer than itself. -/
theorem makesRoom_symbolShift (halign : ∀ i h, f.InSegment i h → f.symbols.sectionIndex < i →
      AlignedTo h.addralign.toNat f.symbolSize) (hb : f.symbolSize ≤ b) :
    f.MakesRoom f.symbolShift (growthAt f.symbols.sectionIndex f.symbolSize) b where
  room i j hi hij hj := by
    rw [symbolShift, symbolShift, growthAt]
    split <;> split <;> split <;> omega
  aligned i h hi := by
    rw [symbolShift]
    split
    · rename_i hlt
      exact halign i h hi hlt.1
    · exact Or.inr (Nat.dvd_zero _)
  shift_le i := by
    rw [symbolShift]
    split <;> omega
  growth_le i := by
    rw [growthAt]
    split <;> omega

/-- The first half: the entries that are not set at the end still point to their sections. -/
theorem addToSymbolTable_spec {sym : Symbol} (hwf : f.WellFormed)
    (hf : f.Ready (roundUp (f.strictestBehind 0 f.ftidx) f.symbolSize))
    (hstays : ∀ d i, f.PointsTo LinkOp.NotSet d i → f.Stays f.symbols.sectionIndex i)
    (hg : f.addToSymbolTable sym = some g) :
    Regrown f g f.symbolShift (growthAt f.symbols.sectionIndex f.symbolSize) ∧
      g.LinkedFor LinkOp.NotSet ∧ g.hashTables = f.hashTables := by
  simp only [addToSymbolTable, Option.bind_eq_bind, Option.bind_eq_some_iff, Option.pure_def,
    Option.some.injEq] at hg
  obtain ⟨symtab, -, s, -, _, hs, ⟨F, e⟩, hdisplace, addr, -, -, -, rfl⟩ := hg
  obtain rfl : s = f.symbols.sectionIndex := by
    by_contra hne
    simp [hne] at hs
  have hgrow := regrown_growHeader f f.symbols.sectionIndex (BitVec.ofNat 32 f.symbolSize)
  rw [symbolSize_toNat] at hgrow
  have hgrown : Regrown f { f.growHeader f.symbols.sectionIndex (BitVec.ofNat 32 f.symbolSize) with
      symbols := f.symbols.addSymbol sym } (fun _ => 0)
      (growthAt f.symbols.sectionIndex f.symbolSize) :=
    ⟨hgrow.moves, hgrow.layout, hgrow.tags⟩
  have hready := hgrown.ready_zero hf
  obtain ⟨headers, e', hrun, -, hmoves⟩ := displace_spec true
    (fun _ => BitVec.ofNat 32 f.symbolSize) _ f.symbols.sectionIndex (BitVec.ofNat 32 f.symbolSize)
    hready.init hready.regular hready.low (by
      rw [hgrown.strictestBehind, hgrown.ftidx, symbolSize_toNat]
      exact roundUp_last_le hf.regular _ _)
  obtain ⟨rfl, rfl⟩ := Prod.mk.inj (Option.some.inj (hdisplace.symm.trans hrun))
  have hG : Regrown f { f.growHeader f.symbols.sectionIndex (BitVec.ofNat 32 f.symbolSize) with
      symbols := f.symbols.addSymbol sym, sectionHeaders := headers } f.symbolShift
      (growthAt f.symbols.sectionIndex f.symbolSize) := by
    refine ⟨(hgrown.moves.trans hmoves).congr (fun i => ?_) fun i => Nat.add_zero _, hgrow.layout,
      hgrow.tags⟩
    rw [hgrown.ftidx, Nat.zero_add, symbolSize_toNat]
    rfl
  refine ⟨hG.increment _ _, ?_, rfl⟩
  refine (hwf.linked.mono fun _ _ => trivial).map (hG.increment _ _)
    (F := Dynamic.incrementIf (fun d => behindSymbols d.tag) (BitVec.ofNat 32 f.symbolSize)) rfl
    (incrementIf_tag _ _) fun d i hd => ?_
  have hnot : behindSymbols d.tag = false := by
    rcases hd.2.1 with htag | htag | htag <;> rw [htag] <;> rfl
  have hstay : f.symbolShift i = 0 := by
    rw [symbolShift, if_neg]
    rintro ⟨hlt, hle⟩
    rcases hstays d i hd with h | h <;> omega
  rw [incrementIf_value, hnot, hstay]
  rfl

/-- Setting an entry makes it point to its section. -/
theorem setEntry_spec {tag : DynTag} (hunique : f.UniqueTags) (hl : f.LinkedFor U)
    (htable : f.layout.tableOf tag = some s) (hg : f.setEntry tag s = some g) :
    Regrown f g (fun _ => 0) (fun _ => 0) ∧ g.LinkedFor fun t => U t ∨ t = tag := by
  simp only [setEntry, Option.bind_eq_bind, Option.bind_eq_some_iff, Option.pure_def,
    Option.some.injEq] at hg
  obtain ⟨k, hk, addr, haddr, rfl⟩ := hg
  obtain ⟨hlt, hfound, -⟩ := List.findIdx?_eq_some_iff_getElem.mp hk
  have hkth : f.dynamics[k]? = some f.dynamics[k] := List.getElem?_eq_getElem hlt
  have hktag : f.dynamics[k].tag = tag := beq_iff_eq.mp hfound
  have htags : (f.dynamics.set k ⟨tag, addr⟩).map Dynamic.tag = f.tags :=
    map_set_of_eq hkth hktag.symm
  refine ⟨⟨Moves.refl _, rfl, htags⟩, ?_⟩
  rintro d i ⟨hmem, hU, htab⟩
  obtain ⟨j, hj⟩ := List.mem_iff_getElem?.mp hmem
  rcases eq_or_ne k j with rfl | hne
  · rw [List.getElem?_set_self hlt] at hj
    obtain rfl := Option.some.inj hj
    obtain rfl : s = i := Option.some.inj (htable.symm.trans htab)
    exact haddr
  · rw [List.getElem?_set_ne hne] at hj
    have hother : d.tag ≠ tag := by
      intro htag
      have hjtag : f.tags[j]? = some tag := by
        rw [tags, List.getElem?_map, hj, Option.map_some, htag]
      have hktag' : f.tags[k]? = some tag := by
        rw [tags, List.getElem?_map, hkth, Option.map_some, hktag]
      exact hne (hunique k j tag hktag' hjtag (by rw [htable]; exact Option.some_ne_none s))
    exact hl d i ⟨List.mem_of_getElem? hj, hU.resolve_right hother, htab⟩

theorem Regrown.uniqueTags (hg : Regrown f g δ γ) (hf : f.UniqueTags) : g.UniqueTags := by
  rw [UniqueTags, hg.tags, hg.layout]
  exact hf

/-- The entries that are set at the end complete those that have followed. -/
theorem setEntries_spec (hunique : f.UniqueTags) (hrel : .rel ∉ f.tags ∨ .rela ∉ f.tags)
    (hl : f.LinkedFor LinkOp.NotSet) (hg : f.setEntries = some g) :
    Regrown f g (fun _ => 0) (fun _ => 0) ∧ g.Linked := by
  simp only [setEntries, Option.bind_eq_bind, Option.bind_eq_some_iff] at hg
  obtain ⟨g₁, h₁, g₂, h₂, g₃, h₃, g₄, h₄, h₅⟩ := hg
  obtain ⟨hr₁, hl₁⟩ := setEntry_spec hunique hl rfl h₁
  obtain ⟨hr₂, hl₂⟩ := setEntry_spec (hr₁.uniqueTags hunique) hl₁ (by rw [hr₁.layout]; rfl) h₂
  have hr₂' := hr₁.trans hr₂
  obtain ⟨hr₃, hl₃⟩ := setEntry_spec (hr₂'.uniqueTags hunique) hl₂ (by rw [hr₂'.layout]; rfl) h₃
  have hr₃' := hr₂'.trans hr₃
  have hpresent : (g₃.getDynamicByType .rel).isSome ↔ .rel ∈ f.tags := by
    rw [getDynamicByType, List.find?_isSome, ← hr₃'.tags, tags, List.mem_map]
    simp only [beq_iff_eq]
  -- the relocation entry, under whichever tag the file has
  obtain ⟨hr₄, hl₄⟩ : Regrown g₃ g₄ (fun _ => 0) (fun _ => 0) ∧
      g₄.LinkedFor fun t => (((LinkOp.NotSet t ∨ t = .versym) ∨ t = .verneed) ∨ t = .strtab) ∨
        t = .rel ∨ t = .rela := by
    by_cases hmem : .rel ∈ f.tags
    · rw [setRelocationEntry, if_pos (hpresent.mpr hmem)] at h₄
      obtain ⟨hr, hl⟩ := setEntry_spec (hr₃'.uniqueTags hunique) hl₃ (by rw [hr₃'.layout]; rfl) h₄
      refine ⟨hr, fun d i hd => hl d i ⟨hd.1, hd.2.1.imp_right fun h => h.resolve_right fun htag => ?_,
        hd.2.2⟩⟩
      have hrela : d.tag ∈ f.tags := (hr₃'.trans hr).tags ▸ List.mem_map_of_mem hd.1
      exact hrel.resolve_left (not_not.mpr hmem) (htag ▸ hrela)
    · rw [setRelocationEntry, if_neg (fun h => hmem (hpresent.mp h))] at h₄
      obtain ⟨hr, hl⟩ := setEntry_spec (hr₃'.uniqueTags hunique) hl₃ (by rw [hr₃'.layout]; rfl) h₄
      refine ⟨hr, fun d i hd => hl d i ⟨hd.1, hd.2.1.imp_right fun h => h.resolve_left fun htag => ?_,
        hd.2.2⟩⟩
      have hin : d.tag ∈ f.tags := (hr₃'.trans hr).tags ▸ List.mem_map_of_mem hd.1
      exact hmem (htag ▸ hin)
  have hr₄' := hr₃'.trans hr₄
  obtain ⟨hr₅, hl₅⟩ := setEntry_spec (hr₄'.uniqueTags hunique) hl₄ (by rw [hr₄'.layout]; rfl) h₅
  refine ⟨(hr₄'.trans hr₅).congr (fun _ => rfl) fun _ => rfl, fun d i hd => hl₅ d i ⟨hd.1, ?_, hd.2.2⟩⟩
  have htable := hd.2.2
  cases htag : d.tag with
  | pltrelsz => rw [htag] at htable; cases htable
  | other n => rw [htag] at htable; cases htable
  | _ => simp [LinkOp.NotSet]

theorem addSymbol_spec {sym : Symbol} (hf : f.WellFormed) (hs : (LinkOp.addSymbol sym).Safe f)
    (h : f.addSymbolToDynamicSymbolTable sym = some g) :
    f.Grown g ((LinkOp.addSymbol sym).needed f) := by
  have hneeded : (LinkOp.addSymbol sym).needed f =
      roundUp (f.strictestBehind 0 f.ftidx) f.symbolSize +
        (roundUp (f.strictestBehind 0 f.ftidx) 2 +
          (f.hashTables.map fun h => roundUp (f.strictestBehind 0 f.ftidx) h.table.growth).sum) := by
    rw [LinkOp.needed, LinkOp.growths, List.map_cons, List.map_cons, List.sum_cons, List.sum_cons,
      List.map_map, Function.comp_def]
  have hready := hf.ready hs.fits
  rw [hneeded] at hready ⊢
  obtain ⟨halign, hfollow⟩ := hs.follow
  simp only [addSymbolToDynamicSymbolTable, Option.bind_eq_bind, Option.bind_eq_some_iff] at h
  obtain ⟨f₁, h₁, f₂, h₂, ⟨f₃, e⟩, h₃, h₄⟩ := h
  -- the symbol table
  obtain ⟨hr₁, hl₁, hhash⟩ := addToSymbolTable_spec hf (hready.mono (Nat.le_add_right _ _))
    (fun d i hd => (hfollow d i hd).1) h₁
  have hroom₁ := makesRoom_symbolShift halign
    (le_roundUp (f.strictestBehind 0 f.ftidx) f.symbolSize)
  -- the version table grows, and makes its room only after the hash tables have made theirs
  have hversym : f₁.versym = f.versym := congrArg LinkLayout.versym hr₁.layout
  have hv := regrown_growHeader f₁ f₁.versym 2
  have hrv := hr₁.trans hv
  have hlv : (f₁.growHeader f₁.versym 2).LinkedFor LinkOp.NotSet :=
    hl₁.map hv (F := id) (List.map_id _).symm (fun _ => rfl) fun d _ _ => (BitVec.add_zero _).symm
  have hreadyv := hv.ready_zero (hr₁.ready hready hroom₁.shift_le hroom₁.aligned)
  have hall : (f₁.growHeader f₁.versym 2).hashTables.take f₁.hashTables.length = f.hashTables := by
    rw [← hhash]
    exact List.take_length
  have hfollowv : ∀ h ∈ f.hashTables, ∀ d i, (f₁.growHeader f₁.versym 2).PointsTo LinkOp.NotSet d i →
      (f₁.growHeader f₁.versym 2).Follows h.sectionIndex h.table.growth
        (behindHash h.table.isGnuStyleHash d.tag) i :=
    fun h hh => hrv.follows fun d i hd => (hfollow d i hd).2.2 h hh
  obtain ⟨hl₂, δ, γ, hr₂, hroom₂⟩ := growHashTablesBelow_spec
    (hreadyv.mono (Nat.le_add_left _ _)) hlv
    (by rw [hall, hrv.ftidx, hrv.strictestBehind]) (by rw [hall]; exact hfollowv) h₂
  rw [hall, hrv.ftidx, hrv.strictestBehind] at hroom₂
  have hready₂ := hr₂.ready (by rw [Nat.add_comm]; exact hreadyv) hroom₂.shift_le hroom₂.aligned
  -- the displacement behind the version table
  have hrf₂ := hrv.trans hr₂
  have hversym₂ : f₂.versym = f.versym := congrArg LinkLayout.versym hrf₂.layout
  obtain ⟨headers, e', hrun, -, hmoves⟩ := hready₂.displace false f₂.versym 2
    (by rw [hrf₂.ftidx, hrf₂.strictestBehind]; exact le_rfl)
  obtain ⟨rfl, rfl⟩ := Prod.mk.inj (Option.some.inj (h₃.symm.trans hrun))
  have hr₃ : Regrown f₂ { f₂ with sectionHeaders := headers } (f.shiftOf f.versym 2) (fun _ => 0) :=
    ⟨hmoves.congr (fun i => by rw [hrf₂.shiftOf, hversym₂]; rfl) fun _ => rfl, rfl, rfl⟩
  have hl₃ : LinkedFor { f₂ with sectionHeaders := headers } LinkOp.NotSet := by
    refine hl₂.map hr₃ (F := id) (List.map_id _).symm (fun _ => rfl) fun d i hd => ?_
    obtain ⟨d₀, hd₀, -⟩ := hrf₂.pointsTo hd
    have hzero : f.shiftOf f.versym 2 i = 0 := by
      rcases (hfollow d₀ i hd₀).2.1 with hle | hlt
      · exact shiftOf_of_le hle
      · exact shiftOf_of_ftidx_lt hlt
    rw [hzero]
    exact (BitVec.add_zero _).symm
  have hrf₃ := hrf₂.trans hr₃
  obtain ⟨hr₄, hl₄⟩ := setEntries_spec (hrf₃.uniqueTags hf.unique)
    (by rw [hrf₃.tags]; exact hf.relocations) hl₃ h₄
  have hroom₃ := makesRoom_shiftOf hf.regular f.versym 2
  refine ⟨hl₄, _, _, (hrf₃.trans hr₄).congr (fun i => ?_) (fun i => ?_),
    hroom₁.add (hroom₃.add (hrv.makesRoom hroom₂))⟩
  · omega
  · rw [hversym]
    simp only [show (2 : BitVec 32).toNat = 2 from rfl]
    omega

end LinkFile

end Pebil

import Mathlib.Tactic.IntervalCases
import Pebil.Elf.SectionTable

/-!
# What the stored section indices name

An operation moves the section at position `i` to `φ i`. Every link is renumbered by
`φ`; `e_shstrndx` is not when the new section takes its place, `sh_info` never is, and
neither is a symbol's section when the dynamic table moves. `keptThroughout_iff` is the
result over a run: every stored index keeps its section exactly as long as no operation
moves a section that one of those names.
-/

namespace Pebil

open scoped List

/-! ## Well-formed files -/

/-- A symbol whose `st_shndx` is no section. -/
def Symbol.IsReserved (s : Symbol) : Prop := SHN_LORESERVE ≤ s.shndx.toNat

/-- The headers and the raw sections stand at their index. -/
structure ElfFile.IndicesArePositions (f : ElfFile) : Prop where
  header : ∀ (i : Nat) (h : SectionHeader), f.sectionHeaders[i]? = some h → h.index = i
  raw : ∀ (i : Nat) (r : RawSection), f.rawSections[i]? = some r → r.sectionIndex = i

/-- A file whose indices are in range. -/
structure ElfFile.WellFormed (f : ElfFile) : Prop where
  positions : f.IndicesArePositions
  count : f.shnum = f.numberOfSections
  limit : f.numberOfSections ≤ SHN_LORESERVE
  raws : f.rawSections.map RawSection.id = f.ids
  nodup : f.ids.Nodup
  fresh : ∀ id ∈ f.ids, id < f.nextId
  shstrndx : f.shstrndx < f.numberOfSections
  link : ∀ h ∈ f.sectionHeaders, h.link < f.numberOfSections
  info : ∀ h ∈ f.sectionHeaders, h.isRelocation → h.info < f.numberOfSections
  shndx : ∀ t ∈ f.symbolTables, ∀ s ∈ t, ¬ s.IsReserved → s.shndx.toNat < f.numberOfSections

namespace SectionOp

/-- The link and the info the caller gives the new section. -/
def named (f : ElfFile) : SectionOp → Option (Nat × Nat)
  | addSection _ a => some (a.link, a.info)
  | extendDynamicTable _ => f.dynamicHeader.map fun h => (h.link, h.info)

/-- A section may be added at any index but 0, by links and infos of the file, while the
count stays below the reserved indices. -/
def Admissible (f : ElfFile) : SectionOp → Prop
  | addSection idx a => 1 ≤ idx ∧ idx ≤ f.numberOfSections ∧ f.numberOfSections < SHN_LORESERVE ∧
      a.link < f.numberOfSections ∧
      ((a.header f.nextId idx).isRelocation → a.info < f.numberOfSections)
  | extendDynamicTable _ => f.numberOfSections < SHN_LORESERVE

/-- No index that the operation leaves alone names a section that it moves. -/
def Safe (f : ElfFile) : SectionOp → Prop
  | addSection idx a => f.shstrndx ≠ idx ∧
      (∀ h ∈ f.sectionHeaders, h.isRelocation → h.info < idx) ∧
      ((a.header f.nextId idx).isRelocation → a.info < idx)
  | extendDynamicTable _ => ∀ raw, f.dynamicRaw = some raw → f.shstrndx ≠ raw.sectionIndex ∧
      (∀ h ∈ f.sectionHeaders, h.isRelocation → h.info ≠ raw.sectionIndex) ∧
      ∀ t ∈ f.symbolTables, ∀ s ∈ t, s.shndx.toNat ≠ raw.sectionIndex

end SectionOp

/-- The operation took `f` to `f'` and every stored index kept its section. -/
structure Kept (op : SectionOp) (f f' : ElfFile) : Prop where
  positions : f'.IndicesArePositions
  count : f'.shnum = f'.numberOfSections
  sections : ∀ id ∈ f.ids, id ∈ f'.ids
  shstrndx : f'.ids[f'.shstrndx]? = f.ids[f.shstrndx]?
  link : ∀ h ∈ f.sectionHeaders, ∀ h' ∈ f'.sectionHeaders, h'.id = h.id →
    f'.ids[h'.link]? = f.ids[h.link]?
  info : ∀ h ∈ f.sectionHeaders, ∀ h' ∈ f'.sectionHeaders, h'.id = h.id → h.isRelocation →
    f'.ids[h'.info]? = f.ids[h.info]?
  shndx : List.Forall₂ (List.Forall₂ fun s s' => ¬ s.IsReserved →
    f'.ids[s'.shndx.toNat]? = f.ids[s.shndx.toNat]?) f.symbolTables f'.symbolTables
  added : ∀ link info, op.named f = some (link, info) →
    ∃ h' ∈ f'.sectionHeaders, h'.id = f.nextId ∧ f'.ids[h'.link]? = f.ids[link]? ∧
      (h'.isRelocation → f'.ids[h'.info]? = f.ids[info]?)

/-- Every operation of the run is admissible where it happens. -/
def AdmissibleThroughout : ElfFile → List SectionOp → Prop
  | _, [] => True
  | f, op :: ops => op.Admissible f ∧ ∀ f', f.step op = some f' → AdmissibleThroughout f' ops

/-- Every operation of the run that completes is safe. -/
def SafeThroughout : ElfFile → List SectionOp → Prop
  | _, [] => True
  | f, op :: ops => ∀ f', f.step op = some f' → op.Safe f ∧ SafeThroughout f' ops

/-- Every operation of the run that completes keeps the stored indices. -/
def KeptThroughout : ElfFile → List SectionOp → Prop
  | _, [] => True
  | f, op :: ops => ∀ f', f.step op = some f' → Kept op f f' ∧ KeptThroughout f' ops

/-! ## The indices a header stores -/

/-- What of a header decides which sections it names. -/
structure SectionRef where
  id : Nat
  type : BitVec 32
  link : Nat
  info : Nat

/-- The part of a header that is followed. -/
def SectionHeader.ref (h : SectionHeader) : SectionRef := ⟨h.id, h.type, h.link, h.info⟩

namespace SectionRef

/-- A relocation section, as `SectionHeader.isRelocation`. -/
def isRelocation (r : SectionRef) : Bool := r.type == SHT_RELA || r.type == SHT_REL

/-- The link is renumbered, the info stays. -/
def relink (φ : Nat → Nat) (r : SectionRef) : SectionRef := { r with link := φ r.link }

@[simp] theorem relink_id (φ : Nat → Nat) (r : SectionRef) : (r.relink φ).id = r.id := rfl

@[simp] theorem relink_link (φ : Nat → Nat) (r : SectionRef) : (r.relink φ).link = φ r.link := rfl

@[simp] theorem relink_info (φ : Nat → Nat) (r : SectionRef) : (r.relink φ).info = r.info := rfl

@[simp] theorem relink_isRelocation (φ : Nat → Nat) (r : SectionRef) :
    (r.relink φ).isRelocation = r.isRelocation := rfl

end SectionRef

namespace ElfFile

/-- The headers as references. -/
def refs (f : ElfFile) : List SectionRef := f.sectionHeaders.map SectionHeader.ref

variable (f : ElfFile)

theorem refs_length : f.refs.length = f.numberOfSections := List.length_map ..

theorem ids_eq_refs : f.ids = f.refs.map SectionRef.id := by
  rw [ids, refs, List.map_map]
  rfl

theorem ids_length : f.ids.length = f.numberOfSections := List.length_map ..

end ElfFile

theorem setIndices_ref (headers : List SectionHeader) :
    (setIndices headers).map SectionHeader.ref = headers.map SectionHeader.ref := by
  refine List.ext_getElem (by simp [setIndices]) fun i _ _ => ?_
  simp only [setIndices, List.getElem_map, List.getElem_mapIdx]
  rfl

theorem setSectionIndices_id (raws : List RawSection) :
    (setSectionIndices raws).map RawSection.id = raws.map RawSection.id := by
  refine List.ext_getElem (by simp [setSectionIndices]) fun i _ _ => ?_
  simp only [setSectionIndices, List.getElem_map, List.getElem_mapIdx]

theorem setIndices_length (headers : List SectionHeader) :
    (setIndices headers).length = headers.length := List.length_mapIdx

/-- The loop over the positions establishes its part of the invariant by itself. -/
theorem setIndices_index {headers : List SectionHeader} {i : Nat} {h : SectionHeader}
    (hi : (setIndices headers)[i]? = some h) : h.index = i := by
  rw [setIndices, List.getElem?_mapIdx, Option.map_eq_some_iff] at hi
  obtain ⟨_, _, rfl⟩ := hi
  rfl

theorem setSectionIndices_index {raws : List RawSection} {i : Nat} {r : RawSection}
    (hi : (setSectionIndices raws)[i]? = some r) : r.sectionIndex = i := by
  rw [setSectionIndices, List.getElem?_mapIdx, Option.map_eq_some_iff] at hi
  obtain ⟨_, _, rfl⟩ := hi
  rfl

/-! ## One operation -/

/-- The sections went where `φ` says, the links with them, `a` was added and `g` was done to
every symbol. -/
structure Moved (φ : Nat → Nat) (a : SectionRef) (g : Symbol → Symbol) (f f' : ElfFile) :
    Prop where
  positions : f'.IndicesArePositions
  count : f'.shnum = f.shnum + 1
  nextId : f'.nextId = f.nextId + 1
  raws : f.rawSections.map RawSection.id = f.ids → f'.rawSections.map RawSection.id = f'.ids
  old : Renumbers φ (f.refs.map (SectionRef.relink φ)) f'.refs
  perm : f'.refs ~ (a :: f.refs).map (SectionRef.relink φ)
  symbols : f'.symbolTables = f.symbolTables.map (List.map g)
  new_id : a.id = f.nextId
  new_link : a.link < f.numberOfSections
  new_info : a.isRelocation → a.info < f.numberOfSections

/-- The indices that an operation has to renumber. -/
structure Renumbered (φ : Nat → Nat) (a : SectionRef) (g : Symbol → Symbol) (f f' : ElfFile) :
    Prop where
  shstrndx : f'.shstrndx = φ f.shstrndx
  info : ∀ r ∈ a :: f.refs, r.isRelocation → r.info = φ r.info
  shndx : ∀ t ∈ f.symbolTables, ∀ s ∈ t, ¬ s.IsReserved → (g s).shndx.toNat = φ s.shndx.toNat

/-- The header with a given reference. -/
theorem ElfFile.exists_header {f : ElfFile} {r : SectionRef} (hr : r ∈ f.refs) :
    ∃ h ∈ f.sectionHeaders, h.ref = r := List.mem_map.mp hr

namespace Moved

variable {φ : Nat → Nat} {a r r' : SectionRef} {g : Symbol → Symbol} {f f' : ElfFile}
  {op : SectionOp} {x y : Nat}

theorem ids_perm (hm : Moved φ a g f f') : f'.ids ~ a.id :: f.ids := by
  rw [f.ids_eq_refs, f'.ids_eq_refs]
  have hmap := hm.perm.map SectionRef.id
  rwa [List.map_map, List.map_cons] at hmap

theorem length (hm : Moved φ a g f f') : f'.numberOfSections = f.numberOfSections + 1 := by
  have hlen := hm.perm.length_eq
  rwa [f'.refs_length, List.length_map, List.length_cons, f.refs_length] at hlen

theorem ids (hm : Moved φ a g f f') : Renumbers φ f.ids f'.ids := by
  have hmap := hm.old.map SectionRef.id
  rwa [List.map_map, ← f'.ids_eq_refs,
    show SectionRef.id ∘ SectionRef.relink φ = SectionRef.id from rfl, ← f.ids_eq_refs] at hmap

theorem lt (hm : Moved φ a g f f') (hx : x < f.numberOfSections) : φ x < f'.numberOfSections := by
  have hlt := hm.ids.lt (by rwa [f.ids_length] : x < f.ids.length)
  rwa [f'.ids_length] at hlt

theorem mem_refs (hm : Moved φ a g f f') (hr : r ∈ a :: f.refs) : r.relink φ ∈ f'.refs :=
  hm.perm.mem_iff.mpr (List.mem_map_of_mem hr)

theorem nodup (hm : Moved φ a g f f') (hf : f.WellFormed) : f'.ids.Nodup := by
  refine hm.ids_perm.nodup_iff.mpr (List.nodup_cons.mpr ⟨fun hmem => ?_, hf.nodup⟩)
  exact Nat.lt_irrefl _ (hm.new_id ▸ hf.fresh _ hmem)

theorem link_lt (hm : Moved φ a g f f') (hf : f.WellFormed) :
    ∀ r ∈ a :: f.refs, r.link < f.numberOfSections := by
  refine List.forall_mem_cons.mpr ⟨hm.new_link, fun r hr => ?_⟩
  obtain ⟨h, hh, rfl⟩ := ElfFile.exists_header hr
  exact hf.link h hh

theorem info_lt (hm : Moved φ a g f f') (hf : f.WellFormed) :
    ∀ r ∈ a :: f.refs, r.isRelocation → r.info < f.numberOfSections := by
  refine List.forall_mem_cons.mpr ⟨hm.new_info, fun r hr => ?_⟩
  obtain ⟨h, hh, rfl⟩ := ElfFile.exists_header hr
  exact hf.info h hh

/-- A stored index keeps its section exactly if it is renumbered. -/
theorem designates_iff (hm : Moved φ a g f f') (hf : f.WellFormed) (hx : x < f.numberOfSections) :
    f'.ids[y]? = f.ids[x]? ↔ y = φ x :=
  hm.ids.designates_iff (hm.nodup hf) (by rwa [f.ids_length])

/-- A section's header after the operation is the one before it, with the link renumbered. -/
theorem ref_eq (hm : Moved φ a g f f') (hf : f.WellFormed) (hr : r ∈ a :: f.refs)
    (hr' : r' ∈ f'.refs) (hid : r'.id = r.id) : r' = r.relink φ := by
  obtain ⟨r₁, hr₁, rfl⟩ := List.mem_map.mp (hm.perm.mem_iff.mp hr')
  have hnodup : ((a :: f.refs).map SectionRef.id).Nodup := by
    rw [List.map_cons, ← f.ids_eq_refs]
    exact hm.ids_perm.nodup_iff.mp (hm.nodup hf)
  rw [List.inj_on_of_nodup_map hnodup hr₁ hr hid]

/-- The link of every section is kept. -/
theorem link_kept (hm : Moved φ a g f f') (hf : f.WellFormed) (hr : r ∈ a :: f.refs)
    (hr' : r' ∈ f'.refs) (hid : r'.id = r.id) : f'.ids[r'.link]? = f.ids[r.link]? := by
  rw [hm.ref_eq hf hr hr' hid]
  exact (hm.designates_iff hf (hm.link_lt hf r hr)).mpr rfl

/-- The info of a relocation section is kept exactly if the section it names did not move. -/
theorem info_kept_iff (hm : Moved φ a g f f') (hf : f.WellFormed) (hr : r ∈ a :: f.refs)
    (hr' : r' ∈ f'.refs) (hid : r'.id = r.id) (hrel : r.isRelocation) :
    f'.ids[r'.info]? = f.ids[r.info]? ↔ r.info = φ r.info := by
  rw [hm.ref_eq hf hr hr' hid]
  exact hm.designates_iff hf (hm.info_lt hf r hr hrel)

/-- The symbols keep their sections exactly if they are renumbered. -/
theorem shndx_kept_iff (hm : Moved φ a g f f') (hf : f.WellFormed) :
    List.Forall₂ (List.Forall₂ fun s s' => ¬ s.IsReserved →
      f'.ids[s'.shndx.toNat]? = f.ids[s.shndx.toNat]?) f.symbolTables f'.symbolTables ↔
    ∀ t ∈ f.symbolTables, ∀ s ∈ t, ¬ s.IsReserved → (g s).shndx.toNat = φ s.shndx.toNat := by
  rw [hm.symbols, List.forall₂_map_right_iff, List.forall₂_same]
  refine forall₂_congr fun t ht => ?_
  rw [List.forall₂_map_right_iff, List.forall₂_same]
  exact forall₃_congr fun s hs hres => hm.designates_iff hf (hf.shndx t ht s hs hres)

/-- What an operation keeps renumbers what it has to. -/
theorem renumbered_of_kept (hm : Moved φ a g f f') (hf : f.WellFormed)
    (hnamed : op.named f = some (a.link, a.info)) (hk : Kept op f f') : Renumbered φ a g f f' := by
  refine ⟨(hm.designates_iff hf hf.shstrndx).mp hk.shstrndx, ?_, (hm.shndx_kept_iff hf).mp hk.shndx⟩
  refine List.forall_mem_cons.mpr ⟨fun hrel => ?_, fun r hr hrel => ?_⟩
  · obtain ⟨h', hh', hid, -, hi⟩ := hk.added _ _ hnamed
    have hmem : h'.ref ∈ f'.refs := List.mem_map_of_mem hh'
    have hia : h'.ref.id = a.id := hid.trans hm.new_id.symm
    have hrel' : h'.ref.isRelocation := by rwa [hm.ref_eq hf List.mem_cons_self hmem hia]
    exact (hm.info_kept_iff hf List.mem_cons_self hmem hia hrel).mp (hi hrel')
  · obtain ⟨h, hh, rfl⟩ := ElfFile.exists_header hr
    have hmem : h.ref ∈ a :: f.refs := List.mem_cons_of_mem _ hr
    obtain ⟨h', hh', heq⟩ := ElfFile.exists_header (hm.mem_refs hmem)
    have hid : h'.ref.id = h.ref.id := by rw [heq]; rfl
    exact (hm.info_kept_iff hf hmem (List.mem_map_of_mem hh') hid hrel).mp
      (hk.info h hh h' hh' hid hrel)

/-- Every index is kept where those are renumbered. -/
theorem kept_of_renumbered (hm : Moved φ a g f f') (hf : f.WellFormed)
    (hnamed : op.named f = some (a.link, a.info)) (hr : Renumbered φ a g f f') : Kept op f f' where
  positions := hm.positions
  count := by rw [hm.count, hm.length, hf.count]
  sections id hid := hm.ids_perm.mem_iff.mpr (List.mem_cons_of_mem _ hid)
  shstrndx := (hm.designates_iff hf hf.shstrndx).mpr hr.shstrndx
  link h hh h' hh' hid :=
    hm.link_kept hf (List.mem_cons_of_mem _ (List.mem_map_of_mem hh : h.ref ∈ f.refs))
      (List.mem_map_of_mem hh' : h'.ref ∈ f'.refs) hid
  info h hh h' hh' hid hrel := by
    have hmem : h.ref ∈ a :: f.refs := List.mem_cons_of_mem _ (List.mem_map_of_mem hh)
    exact (hm.info_kept_iff hf hmem (List.mem_map_of_mem hh' : h'.ref ∈ f'.refs) hid hrel).mpr
      (hr.info h.ref hmem hrel)
  shndx := (hm.shndx_kept_iff hf).mpr hr.shndx
  added link info hop := by
    obtain ⟨rfl, rfl⟩ := Prod.mk.inj (Option.some.inj (hnamed.symm.trans hop))
    obtain ⟨h', hh', heq⟩ := ElfFile.exists_header (hm.mem_refs List.mem_cons_self)
    have hmem : h'.ref ∈ f'.refs := List.mem_map_of_mem hh'
    have hid : h'.ref.id = a.id := by rw [heq]; rfl
    refine ⟨h', hh', hid.trans hm.new_id, hm.link_kept hf List.mem_cons_self hmem hid, fun hrel => ?_⟩
    have hrela : a.isRelocation := by
      change h'.ref.isRelocation at hrel
      rwa [heq] at hrel
    exact (hm.info_kept_iff hf List.mem_cons_self hmem hid hrela).mpr
      (hr.info a List.mem_cons_self hrela)

theorem kept_iff (hm : Moved φ a g f f') (hf : f.WellFormed)
    (hnamed : op.named f = some (a.link, a.info)) : Kept op f f' ↔ Renumbered φ a g f f' :=
  ⟨hm.renumbered_of_kept hf hnamed, hm.kept_of_renumbered hf hnamed⟩

/-- The file stays well-formed, whether or not the indices keep their sections. -/
theorem wellFormed (hm : Moved φ a g f f') (hf : f.WellFormed)
    (hlimit : f.numberOfSections < SHN_LORESERVE) (hstr : f'.shstrndx ≤ f.shstrndx + 1)
    (hres : ∀ s, s.IsReserved → (g s).IsReserved)
    (hg : ∀ s, (g s).shndx.toNat ≤ s.shndx.toNat + 1) : f'.WellFormed where
  positions := hm.positions
  count := by rw [hm.count, hm.length, hf.count]
  limit := by rw [hm.length]; exact hlimit
  raws := hm.raws hf.raws
  nodup := hm.nodup hf
  fresh id hid := by
    rw [hm.nextId]
    rcases List.mem_cons.mp (hm.ids_perm.mem_iff.mp hid) with rfl | hold
    · exact hm.new_id ▸ Nat.lt_succ_self _
    · exact Nat.lt_succ_of_lt (hf.fresh id hold)
  shstrndx := by
    have hlt := hf.shstrndx
    rw [hm.length]
    omega
  link h hh := by
    obtain ⟨r, hr, heq⟩ := List.mem_map.mp
      (hm.perm.mem_iff.mp (List.mem_map_of_mem hh : h.ref ∈ f'.refs))
    have hlink : h.link = φ r.link := congrArg SectionRef.link heq.symm
    exact hlink ▸ hm.lt (hm.link_lt hf r hr)
  info h hh hrel := by
    obtain ⟨r, hr, heq⟩ := List.mem_map.mp
      (hm.perm.mem_iff.mp (List.mem_map_of_mem hh : h.ref ∈ f'.refs))
    have hinfo : h.info = r.info := congrArg SectionRef.info heq.symm
    have hrelr : r.isRelocation := by
      change h.ref.isRelocation at hrel
      rwa [← heq] at hrel
    rw [hinfo, hm.length]
    exact Nat.lt_succ_of_lt (hm.info_lt hf r hr hrelr)
  shndx t ht s hs hnres := by
    rw [hm.symbols, List.mem_map] at ht
    obtain ⟨t₀, ht₀, rfl⟩ := ht
    obtain ⟨s₀, hs₀, rfl⟩ := List.mem_map.mp hs
    have hlt := hf.shndx t₀ ht₀ s₀ hs₀ fun h => hnres (hres s₀ h)
    have hle := hg s₀
    rw [hm.length]
    omega

end Moved

/-! ## Inserting a section -/

/-- The reference of the header made from the arguments. -/
def NewSection.ref (a : NewSection) (f : ElfFile) : SectionRef := ⟨f.nextId, a.type, a.link, a.info⟩

theorem moveIndex_eq {idx count x : Nat} (hx : x < count) : moveIndex idx count x = insertShift idx x := by
  rw [moveIndex, insertShift]
  split <;> split <;> omega

theorem moveIndex_of_le {idx count x : Nat} (hx : count ≤ x) : moveIndex idx count x = x := by
  rw [moveIndex, if_neg (by omega)]

theorem insertShift_eq_self_iff {idx x : Nat} : x = insertShift idx x ↔ x < idx := by
  rw [insertShift]
  split <;> omega

/-- A symbol's section is renumbered like a link, a reserved one not at all. -/
theorem moveShndx_toNat {idx count : Nat} (hcount : count ≤ SHN_LORESERVE) (s : Symbol) :
    (s.moveShndx idx count).shndx.toNat = moveIndex idx count s.shndx.toNat := by
  have hlt : moveIndex idx count s.shndx.toNat < 2 ^ 16 := by
    have hs := s.shndx.isLt
    rw [moveIndex]
    simp only [SHN_LORESERVE] at hcount
    split <;> omega
  rw [Symbol.moveShndx, BitVec.toNat_ofNat, Nat.mod_eq_of_lt hlt]

theorem moveShndx_isReserved {idx count : Nat} (hcount : count ≤ SHN_LORESERVE) {s : Symbol}
    (hs : s.IsReserved) : (s.moveShndx idx count).IsReserved := by
  rw [Symbol.IsReserved, moveShndx_toNat hcount, moveIndex_of_le (hcount.trans hs)]
  exact hs

theorem moveShndx_le {idx count : Nat} (hcount : count ≤ SHN_LORESERVE) (s : Symbol) :
    (s.moveShndx idx count).shndx.toNat ≤ s.shndx.toNat + 1 := by
  rw [moveShndx_toNat hcount, moveIndex]
  split <;> omega

theorem moveLink_refs (idx count : Nat) (headers : List SectionHeader) :
    (headers.map (SectionHeader.moveLink idx count)).map SectionHeader.ref =
      (headers.map SectionHeader.ref).map (SectionRef.relink (moveIndex idx count)) := by
  rw [List.map_map, List.map_map]
  rfl

theorem relink_congr {φ ψ : Nat → Nat} {l : List SectionRef} {n : Nat} (hl : ∀ r ∈ l, r.link < n)
    (h : ∀ x, x < n → φ x = ψ x) : l.map (SectionRef.relink φ) = l.map (SectionRef.relink ψ) :=
  List.map_congr_left fun r hr => by rw [SectionRef.relink, SectionRef.relink, h _ (hl r hr)]

namespace ElfFile

variable {f f' : ElfFile} {idx : Nat} {a : NewSection}

theorem WellFormed.refs_link_lt (hf : f.WellFormed) : ∀ r ∈ f.refs, r.link < f.numberOfSections := by
  intro r hr
  obtain ⟨h, hh, rfl⟩ := exists_header hr
  exact hf.link h hh

/-- What `addSection` does to the references, before anything is known of them. -/
theorem addSection_refs (h : f.addSection idx a = some f') (hidx : idx ≤ f.numberOfSections) :
    f'.refs = (f.refs.insertIdx idx (a.ref f)).map
      (SectionRef.relink (moveIndex idx (f.numberOfSections + 1))) := by
  rw [addSection] at h
  split at h
  · cases h
  · cases h
    rw [refs, moveLink_refs, setIndices_ref, List.map_insertIdx, setIndices_length,
      List.length_insertIdx_of_le_length hidx]
    rfl

theorem addSection_positions (h : f.addSection idx a = some f') : f'.IndicesArePositions := by
  rw [addSection] at h
  split at h
  · cases h
  · cases h
    refine ⟨fun i h hi => ?_, fun i r hi => setSectionIndices_index hi⟩
    rw [List.getElem?_map, Option.map_eq_some_iff] at hi
    obtain ⟨h, hi, rfl⟩ := hi
    exact (setIndices_index hi : h.index = i)

/-- The other parts of the file after `addSection`. -/
theorem addSection_rest (h : f.addSection idx a = some f') (hidx : idx ≤ f.numberOfSections) :
    f'.shnum = f.shnum + 1 ∧ f'.nextId = f.nextId + 1 ∧
    f'.shstrndx = (if idx < f.shstrndx then f.shstrndx + 1 else f.shstrndx) ∧
    f'.rawSections.map RawSection.id = (f.rawSections.map RawSection.id).insertIdx idx f.nextId ∧
    f'.symbolTables = f.symbolTables.map
      (List.map (Symbol.moveShndx idx (f.numberOfSections + 1))) := by
  rw [addSection] at h
  split at h
  · cases h
  · cases h
    refine ⟨rfl, rfl, rfl, ?_, ?_⟩
    · rw [setSectionIndices_id, List.map_insertIdx]
      rfl
    · rw [setIndices_length, List.length_insertIdx_of_le_length hidx]
      rfl

/-- `addSection` moves every section from `idx` on by one. -/
theorem addSection_moved (hf : f.WellFormed) (ha : (SectionOp.addSection idx a).Admissible f)
    (h : f.addSection idx a = some f') :
    Moved (insertShift idx) (a.ref f) (Symbol.moveShndx idx (f.numberOfSections + 1)) f f' := by
  obtain ⟨-, hidx, -, hlink, hinfo⟩ := ha
  obtain ⟨hcount, hnext, -, hraws, hsym⟩ := addSection_rest h hidx
  have hidx' : idx ≤ f.refs.length := by rwa [f.refs_length]
  have hlinks : ∀ r ∈ f.refs.insertIdx idx (a.ref f), r.link < f.numberOfSections := by
    intro r hr
    rcases (List.mem_insertIdx hidx').mp hr with rfl | hr
    · exact hlink
    · exact hf.refs_link_lt r hr
  have hrefs : f'.refs = (f.refs.insertIdx idx (a.ref f)).map
      (SectionRef.relink (insertShift idx)) := by
    rw [addSection_refs h hidx]
    exact relink_congr hlinks fun x hx => moveIndex_eq (Nat.lt_succ_of_lt hx)
  refine ⟨addSection_positions h, hcount, hnext, fun hr => ?_, ?_, ?_, hsym, rfl, hlink, hinfo⟩
  · rw [hraws, hr, f.ids_eq_refs, f'.ids_eq_refs, hrefs, List.map_map, List.map_insertIdx]
    rfl
  · rw [hrefs]
    exact (renumbers_insertIdx f.refs idx (a.ref f)).map _
  · rw [hrefs]
    exact (List.perm_insertIdx (a.ref f) f.refs hidx').map _

theorem addSection_kept_iff (hf : f.WellFormed) (ha : (SectionOp.addSection idx a).Admissible f)
    (h : f.addSection idx a = some f') :
    Kept (.addSection idx a) f f' ↔ (SectionOp.addSection idx a).Safe f := by
  have hm := addSection_moved hf ha h
  obtain ⟨-, hidx, hlimit, hlink, hinfo⟩ := ha
  obtain ⟨-, -, hstr, -, -⟩ := addSection_rest h hidx
  rw [hm.kept_iff hf rfl]
  constructor
  · rintro ⟨hs, hi, -⟩
    refine ⟨?_, fun h hh hrel => ?_, fun hrel => ?_⟩
    · rw [hstr, insertShift] at hs
      split at hs <;> split at hs <;> omega
    · exact insertShift_eq_self_iff.mp (hi h.ref (List.mem_cons_of_mem _ (List.mem_map_of_mem hh)) hrel)
    · exact insertShift_eq_self_iff.mp (hi (a.ref f) List.mem_cons_self hrel)
  · rintro ⟨hs, hi, hnew⟩
    refine ⟨?_, List.forall_mem_cons.mpr ⟨fun hrel => ?_, fun r hr hrel => ?_⟩, fun t ht s hs hres => ?_⟩
    · rw [hstr, insertShift]
      split <;> split <;> omega
    · exact insertShift_eq_self_iff.mpr (hnew hrel)
    · obtain ⟨h, hh, rfl⟩ := exists_header hr
      exact insertShift_eq_self_iff.mpr (hi h hh hrel)
    · rw [moveShndx_toNat hlimit]
      exact moveIndex_eq (Nat.lt_succ_of_lt (hf.shndx t ht s hs hres))

end ElfFile

/-! ## Moving the dynamic table -/

/-- The padding section's header as a reference. -/
def SectionHeader.paddingRef (h : SectionHeader) (f : ElfFile) : SectionRef :=
  ⟨f.nextId, h.type, h.link, h.info⟩

/-- Where `extendDynamicTable` puts the sections: the dynamic table's goes to the end. -/
def dynamicShift (n d : Nat) (x : Nat) : Nat := Equiv.swap n d (insertShift n x)

theorem dynamicShift_of_lt {n d x : Nat} (hx : x < n) :
    dynamicShift n d x = if x = d then n else x := by
  rw [dynamicShift, insertShift, if_pos hx, Equiv.swap_apply_def, if_neg hx.ne]

theorem dynamicShift_eq_self_iff {n d x : Nat} (hx : x < n) :
    x = dynamicShift n d x ↔ x ≠ d := by
  rw [dynamicShift_of_lt hx]
  split <;> omega

namespace ElfFile

variable {f f' : ElfFile} {e : DynamicExtension}

/-- What a run of `extendDynamicTable` that completes went through. -/
theorem extendDynamicTable_cases (h : f.extendDynamicTable e = some f') :
    ∃ raw hdr usableOffset name added, f.dynamicRaw = some raw ∧
      f.sectionHeaders[raw.sectionIndex]? = some hdr ∧
      (f.growDynamic e raw hdr usableOffset).addSection
        (f.growDynamic e raw hdr usableOffset).numberOfSections
        ((hdr.grown e usableOffset).padding name hdr.addr hdr.offset) = some added ∧
      f' = (added.swapSections f.numberOfSections raw.sectionIndex).settle raw.sectionIndex
        f.numberOfSections raw.sizeInBytes := by
  simp only [extendDynamicTable, Option.bind_eq_bind, Option.bind_eq_some_iff, Option.pure_def,
    Option.some.injEq] at h
  obtain ⟨raw, hraw, hdr, hhdr, -, -, -, -, usable, -, -, -, -, -, generic, -, added, hadd, rfl⟩ := h
  rw [dynamicHeader, hraw, Option.bind_some] at hhdr
  refine ⟨raw, hdr, usable, generic.name, added, hraw, hhdr, hadd, ?_⟩
  rw [show (f.growDynamic e raw hdr usable).numberOfSections = f.numberOfSections from
    List.length_set ..]

section Grow

variable {raw : RawSection} {hdr : SectionHeader} {usableOffset : BitVec 64}

theorem growDynamic_refs (hhdr : f.sectionHeaders[raw.sectionIndex]? = some hdr) :
    (f.growDynamic e raw hdr usableOffset).refs = f.refs := by
  rw [refs, growDynamic, refs]
  exact map_set_of_eq hhdr rfl

theorem growDynamic_raws :
    (f.growDynamic e raw hdr usableOffset).rawSections.map RawSection.id =
      f.rawSections.map RawSection.id := by
  rw [growDynamic, List.map_map]
  refine List.map_congr_left fun r _ => ?_
  simp only [Function.comp_apply]
  split <;> rfl

end Grow

theorem followLink_refs (oldIdx newIdx : Nat) (headers : List SectionHeader) :
    (headers.map (SectionHeader.followLink oldIdx newIdx)).map SectionHeader.ref =
      (headers.map SectionHeader.ref).map
        (SectionRef.relink fun x => if x = oldIdx then newIdx else x) := by
  rw [List.map_map, List.map_map]
  refine List.map_congr_left fun h _ => ?_
  simp only [Function.comp_apply, SectionHeader.followLink, SectionHeader.ref, SectionRef.relink]
  split <;> simp_all

theorem map_modify_of_eq {α β : Type} (g : α → β) (u : α → α) (hu : ∀ x, g (u x) = g x)
    (l : List α) (i : Nat) : (l.modify i u).map g = l.map g := by
  refine List.ext_getElem (by simp) fun k _ _ => ?_
  simp only [List.getElem_map, List.getElem_modify]
  split
  · exact hu _
  · rfl

theorem settle_refs (oldIdx newIdx oldSize : Nat) :
    (f.settle oldIdx newIdx oldSize).refs =
      f.refs.map (SectionRef.relink fun x => if x = oldIdx then newIdx else x) := by
  rw [refs, settle, followLink_refs, setIndices_ref, map_modify_of_eq SectionHeader.ref
    (fun h => { h with size := BitVec.ofNat 64 oldSize }) fun _ => rfl]
  rfl

theorem settle_raws (oldIdx newIdx oldSize : Nat) :
    (f.settle oldIdx newIdx oldSize).rawSections.map RawSection.id =
      f.rawSections.map RawSection.id := by
  rw [settle, setSectionIndices_id, map_modify_of_eq RawSection.id
    (fun r => { r with sizeInBytes := r.sizeInBytes + oldSize }) fun _ => rfl]

theorem settle_positions (oldIdx newIdx oldSize : Nat) :
    (f.settle oldIdx newIdx oldSize).IndicesArePositions := by
  refine ⟨fun i h hi => ?_, fun i r hi => setSectionIndices_index hi⟩
  rw [settle, List.getElem?_map, Option.map_eq_some_iff] at hi
  obtain ⟨h, hi, rfl⟩ := hi
  have hindex : (h.followLink oldIdx newIdx).index = h.index := by
    rw [SectionHeader.followLink]
    split <;> rfl
  exact hindex.trans (setIndices_index hi)

theorem settle_swap_raws (i j oldIdx newIdx oldSize : Nat) :
    ((f.swapSections i j).settle oldIdx newIdx oldSize).rawSections.map RawSection.id =
      swapAt (f.rawSections.map RawSection.id) i j := by
  rw [settle_raws, swapSections, map_swapAt]

/-- What `extendDynamicTable` does to a symbol; the section index of one in the dynamic
table is not touched. -/
def moveDynamicSymbol (old new : BitVec 64) (n : Nat) (s : Symbol) : Symbol :=
  (s.moveValue old new).moveShndx n (n + 1)

theorem moveDynamicSymbol_toNat {old new : BitVec 64} {n : Nat} (hn : n < SHN_LORESERVE) (s : Symbol) :
    (moveDynamicSymbol old new n s).shndx.toNat = moveIndex n (n + 1) s.shndx.toNat := by
  have hvalue : (s.moveValue old new).shndx = s.shndx := by
    rw [Symbol.moveValue]
    split <;> rfl
  rw [moveDynamicSymbol, moveShndx_toNat hn, hvalue]

/-- The references after the swap and the last loop: swapped and renumbered. -/
theorem swapped_refs {l : List SectionRef} {n d : Nat} (hl : ∀ r ∈ l, r.link < n) (hn : n < l.length)
    (hd : d < l.length) :
    (swapAt (l.map (SectionRef.relink (moveIndex n (n + 1)))) n d).map
        (SectionRef.relink fun x => if x = d then n else x) =
      (swapAt l n d).map (SectionRef.relink (dynamicShift n d)) := by
  rw [← map_swapAt, List.map_map]
  refine List.map_congr_left fun r hr => ?_
  have hlink := hl r ((swapAt_perm hn hd).mem_iff.mp hr)
  rw [Function.comp_apply, SectionRef.relink, SectionRef.relink, SectionRef.relink,
    dynamicShift_of_lt hlink, moveIndex, if_neg (by omega)]

/-- The file after `extendDynamicTable`, with `d` where the dynamic table was. -/
theorem extendDynamicTable_moved (hf : f.WellFormed) (h : f.extendDynamicTable e = some f') :
    ∃ raw hdr, f.dynamicRaw = some raw ∧ f.dynamicHeader = some hdr ∧
      raw.sectionIndex < f.numberOfSections ∧ f'.shstrndx = f.shstrndx ∧
      Moved (dynamicShift f.numberOfSections raw.sectionIndex) (hdr.paddingRef f)
        (moveDynamicSymbol hdr.addr e.dynamicTableReserved f.numberOfSections) f f' := by
  obtain ⟨raw, hdr, usable, name, added, hraw, hhdr, hadd, rfl⟩ := extendDynamicTable_cases h
  set d := raw.sectionIndex with hd
  set n := f.numberOfSections with hn
  set g := f.growDynamic e raw hdr usable with hg
  have hgn : g.numberOfSections = n := List.length_set ..
  have hgrefs : g.refs = f.refs := growDynamic_refs hhdr
  have hdn : d < n := (List.getElem?_eq_some_iff.mp hhdr).1
  rw [hgn] at hadd
  have hrefs := addSection_refs hadd hgn.ge
  obtain ⟨hcount, hnext, hstr, hraws, hsym⟩ := addSection_rest hadd hgn.ge
  rw [hgrefs, hgn] at hrefs
  rw [hgn] at hsym
  have hlink : hdr.link < n := hf.link hdr (List.mem_of_getElem? hhdr)
  have hlen : (f.refs.insertIdx n (hdr.paddingRef f)).length = n + 1 := by
    rw [List.length_insertIdx_of_le_length f.refs_length.ge, f.refs_length]
  have hlinks : ∀ r ∈ f.refs.insertIdx n (hdr.paddingRef f), r.link < n := by
    intro r hr
    rcases (List.mem_insertIdx f.refs_length.ge).mp hr with rfl | hr
    · exact hlink
    · exact hf.refs_link_lt r hr
  have hnlen : n < (f.refs.insertIdx n (hdr.paddingRef f)).length := by omega
  have hdlen : d < (f.refs.insertIdx n (hdr.paddingRef f)).length := by omega
  have hrefs' : ((added.swapSections n d).settle d n raw.sizeInBytes).refs =
      (swapAt (f.refs.insertIdx n (hdr.paddingRef f)) n d).map
        (SectionRef.relink (dynamicShift n d)) := by
    rw [settle_refs, ← swapped_refs hlinks hnlen hdlen, swapSections, refs, map_swapAt]
    exact congrArg (fun l => (swapAt l n d).map _) hrefs
  refine ⟨raw, hdr, hraw, by rw [dynamicHeader, hraw]; exact hhdr, hdn, ?_,
    settle_positions .., hcount, hnext, fun hr => ?_, ?_, ?_, ?_, rfl, hlink, fun hrel => ?_⟩
  · have hlt := hf.shstrndx
    rw [show ((added.swapSections n d).settle d n raw.sizeInBytes).shstrndx = added.shstrndx from rfl,
      hstr, if_neg]
    · rfl
    · exact Nat.not_lt.mpr hlt.le
  · rw [settle_swap_raws, hraws, growDynamic_raws, hr, ids_eq_refs, ids_eq_refs, hrefs', List.map_map,
      show SectionRef.id ∘ SectionRef.relink (dynamicShift n d) = SectionRef.id from rfl,
      map_swapAt, List.map_insertIdx]
    rfl
  · rw [hrefs']
    exact ((renumbers_insertIdx f.refs n _).trans (renumbers_swapAt hnlen hdlen)).map _
  · rw [hrefs']
    exact ((swapAt_perm hnlen hdlen).trans (List.perm_insertIdx _ f.refs f.refs_length.ge)).map _
  · rw [show ((added.swapSections n d).settle d n raw.sizeInBytes).symbolTables = added.symbolTables
      from rfl, hsym, hg, growDynamic, List.map_map]
    refine List.map_congr_left fun t _ => ?_
    rw [Function.comp_apply, List.map_map]
    rfl
  · exact hf.info hdr (List.mem_of_getElem? hhdr) hrel

theorem extendDynamicTable_kept_iff (hf : f.WellFormed) (hlimit : f.numberOfSections < SHN_LORESERVE)
    (h : f.extendDynamicTable e = some f') :
    Kept (.extendDynamicTable e) f f' ↔ (SectionOp.extendDynamicTable e).Safe f := by
  obtain ⟨raw, hdr, hraw, hhdr, hdn, hstr, hm⟩ := extendDynamicTable_moved hf h
  have hnamed : (SectionOp.extendDynamicTable e).named f = some (hdr.link, hdr.info) := by
    rw [SectionOp.named, hhdr]
    rfl
  have hmem : hdr ∈ f.sectionHeaders := by
    rw [dynamicHeader, hraw, Option.bind_some] at hhdr
    exact List.mem_of_getElem? hhdr
  rw [hm.kept_iff hf hnamed]
  constructor
  · rintro ⟨hs, hi, hsym⟩ raw' hraw'
    obtain rfl := Option.some.inj (hraw.symm.trans hraw')
    refine ⟨?_, fun h hh hrel => ?_, fun t ht s hs' => ?_⟩
    · rw [hstr] at hs
      exact (dynamicShift_eq_self_iff hf.shstrndx).mp hs
    · exact (dynamicShift_eq_self_iff (hf.info h hh hrel)).mp
        (hi h.ref (List.mem_cons_of_mem _ (List.mem_map_of_mem hh)) hrel)
    · by_cases hres : s.IsReserved
      · rw [Symbol.IsReserved] at hres
        omega
      · have hlt := hf.shndx t ht s hs' hres
        have heq := hsym t ht s hs' hres
        rw [moveDynamicSymbol_toNat hlimit, moveIndex, if_neg (by omega)] at heq
        exact (dynamicShift_eq_self_iff hlt).mp heq
  · intro hsafe
    obtain ⟨hs, hi, hsym⟩ := hsafe raw hraw
    refine ⟨?_, List.forall_mem_cons.mpr ⟨fun hrel => ?_, fun r hr hrel => ?_⟩,
      fun t ht s hs' hres => ?_⟩
    · rw [hstr]
      exact (dynamicShift_eq_self_iff hf.shstrndx).mpr hs
    · -- the padding section has the info of the dynamic table's header
      exact (dynamicShift_eq_self_iff (hf.info hdr hmem hrel)).mpr (hi hdr hmem hrel)
    · obtain ⟨h, hh, rfl⟩ := exists_header hr
      exact (dynamicShift_eq_self_iff (hf.info h hh hrel)).mpr (hi h hh hrel)
    · have hlt := hf.shndx t ht s hs' hres
      rw [moveDynamicSymbol_toNat hlimit, moveIndex, if_neg (by omega)]
      exact (dynamicShift_eq_self_iff hlt).mpr (hsym t ht s hs')

/-! ## Runs -/

variable {op : SectionOp}

/-- Step lemma: what one operation keeps. -/
theorem step_kept_iff (hf : f.WellFormed) (ha : op.Admissible f) (h : f.step op = some f') :
    Kept op f f' ↔ op.Safe f := by
  cases op with
  | addSection idx a => exact addSection_kept_iff hf ha h
  | extendDynamicTable e => exact extendDynamicTable_kept_iff hf ha h

/-- Step lemma: the file stays well-formed, safe or not. -/
theorem step_wellFormed (hf : f.WellFormed) (ha : op.Admissible f) (h : f.step op = some f') :
    f'.WellFormed := by
  cases op with
  | addSection idx a =>
    have hm := addSection_moved hf ha h
    obtain ⟨-, hidx, hlimit, -, -⟩ := ha
    obtain ⟨-, -, hstr, -, -⟩ := addSection_rest h hidx
    refine hm.wellFormed hf hlimit ?_ (fun s hs => moveShndx_isReserved hlimit hs)
      (moveShndx_le hlimit)
    rw [hstr]
    split <;> omega
  | extendDynamicTable e =>
    obtain ⟨raw, hdr, -, -, -, hstr, hm⟩ := extendDynamicTable_moved hf h
    have hlimit : f.numberOfSections < SHN_LORESERVE := ha
    refine hm.wellFormed hf hlimit (by omega) (fun s hs => ?_) fun s => ?_
    · rw [Symbol.IsReserved] at hs ⊢
      rwa [moveDynamicSymbol_toNat hlimit, moveIndex_of_le (by omega)]
    · rw [moveDynamicSymbol_toNat hlimit, moveIndex]
      split <;> omega

end ElfFile

/-- **Runs.** Every stored index keeps its section throughout a run exactly if every operation
of it that completes is safe. -/
theorem keptThroughout_iff {f : ElfFile} {ops : List SectionOp} (hf : f.WellFormed)
    (ha : AdmissibleThroughout f ops) : KeptThroughout f ops ↔ SafeThroughout f ops := by
  induction ops generalizing f with
  | nil => exact Iff.rfl
  | cons op ops ih =>
    refine forall₂_congr fun f' hstep => ?_
    rw [ElfFile.step_kept_iff hf ha.1 hstep, ih (ElfFile.step_wellFormed hf ha.1 hstep) (ha.2 f' hstep)]

/-! ## The symbol of the dynamic table -/

/-- A header of the example, with nothing but what is needed. -/
def plainHeader (index : Nat) (type : BitVec 32) (addr : BitVec 64) (link : Nat) : SectionHeader where
  id := index
  index := index
  sectionNamePtr := none
  name := 0
  type := type
  flags := 0
  addr := addr
  offset := addr
  size := 16
  link := link
  info := 0
  addralign := 8
  entsize := 0

/-- A file with a null section, `.dynamic`, `.dynstr` and the symbol `_DYNAMIC`, which lies in
`.dynamic`. -/
def dynamicFile : ElfFile where
  sectionHeaders := [plainHeader 0 0 0 0, plainHeader 1 6 0x2000 2, plainHeader 2 3 0x1000 0]
  rawSections := [⟨0, 0, .other, 16⟩, ⟨1, 1, .other, 16⟩, ⟨2, 2, .other, 16⟩]
  symbolTables := [[⟨some ⟨[95, 68, 89, 78, 65, 77, 73, 67], by decide⟩, 0x2000, 0, 0, 0, 1⟩]]
  programHeaders := [⟨1, 0, 0, 0, 0, 0, 0x1000⟩]
  dynamicTable := some 1
  shnum := 3
  shstrndx := 2
  nextId := 3

/-- The extension of its dynamic table. -/
def dynamicFileExtension : SectionOp := .extendDynamicTable ⟨0, 0x8000, 1, 16⟩

/-- A data section put in front of `.dynstr`'s successor, linked to `.dynstr`. -/
def dynamicFileInsertion : SectionOp :=
  .addSection 3 ⟨.dataSection, 0, 1, 0, 0x3000, 0x3000, 16, 2, 0, 8, 0⟩

theorem dynamicFile_wellFormed : dynamicFile.WellFormed where
  positions := by
    refine ⟨fun i h hi => ?_, fun i r hi => ?_⟩
    · obtain ⟨hlt, rfl⟩ := List.getElem?_eq_some_iff.mp hi
      change i < 3 at hlt
      interval_cases i <;> rfl
    · obtain ⟨hlt, rfl⟩ := List.getElem?_eq_some_iff.mp hi
      change i < 3 at hlt
      interval_cases i <;> rfl
  count := rfl
  limit := by decide
  raws := rfl
  nodup := by decide
  fresh := by decide
  shstrndx := by decide
  link := by decide
  info := by decide
  shndx t ht s hs _ := by
    rw [List.mem_singleton.mp ht] at hs
    rw [List.mem_singleton.mp hs]
    decide

theorem keptThroughout_iff_insertion :
    KeptThroughout dynamicFile [dynamicFileInsertion] :=
  (@keptThroughout_iff dynamicFile [dynamicFileInsertion] dynamicFile_wellFormed
    ⟨⟨by decide, by decide, by decide, by decide, by decide⟩, fun _ _ => trivial⟩).mpr
    fun _ _ => ⟨⟨by decide, by decide, by decide⟩, trivial⟩

/-- `_DYNAMIC` names the padding section after the extension. -/
theorem dynamicSymbol_not_kept : dynamicFile.WellFormed ∧
    AdmissibleThroughout dynamicFile [dynamicFileExtension] ∧
    ¬ KeptThroughout dynamicFile [dynamicFileExtension] := by
  have hadmissible : dynamicFileExtension.Admissible dynamicFile :=
    show 3 < SHN_LORESERVE by decide
  refine ⟨dynamicFile_wellFormed, ⟨hadmissible, fun _ _ => trivial⟩, fun hkept => ?_⟩
  obtain ⟨f', hstep⟩ : ∃ f', dynamicFile.step dynamicFileExtension = some f' :=
    Option.isSome_iff_exists.mp (by decide)
  have hsafe := (ElfFile.step_kept_iff dynamicFile_wellFormed hadmissible hstep).mp
    (hkept f' hstep).1
  exact (hsafe ⟨1, 1, .other, 16⟩ rfl).2.2 _ List.mem_cons_self _ List.mem_cons_self rfl

end Pebil

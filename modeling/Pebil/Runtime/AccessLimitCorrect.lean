import Pebil.Lib.Rounds
import Pebil.Runtime.AccessLimit

/-!
# When the access limit removes the hot blocks

An entry leads to the number and the count of its block, whichever way the image is instrumented
(`reference_eq`); the loop over the references takes out the three keys of every number that is
beyond the limit and listed (`mem_foldl_removeReference`). From there the removal is right when no
two blocks share a number that matters, and `LimitInv` is what a run has to keep for that.
-/

namespace Pebil

/-! ## Keys -/

theorem generateKey_injective {b b' : Nat} {typ typ' : PointType}
    (h : generateKey b typ = generateKey b' typ') : b = b' ∧ typ = typ' := by
  rw [generateKey_eq, generateKey_eq] at h
  cases typ <;> cases typ' <;> simp only [PointType.number] at h <;> simp <;> omega

namespace AccessLimit

open CounterReport (CounterType)

/-! ## The references of a buffer -/

namespace SimulatedImage

variable (image : SimulatedImage)

/-- An entry leads to the number and the count of its block. -/
theorem reference_eq (count : Nat → Nat) (memseq : Nat) :
    image.reference count memseq = (image.memops[memseq]?).map fun b => (b, count b) := by
  cases hb : image.memops[memseq]? with
  | none => simp [reference, blockIds, hb]
  | some b =>
    by_cases hper : image.perInstruction
    · have hmem : b ∈ image.memops := List.mem_of_getElem? hb
      have hfirst : image.memops[image.memops.idxOf b]? = some b := by
        rw [List.getElem?_eq_getElem (List.idxOf_lt_length_of_mem hmem), List.getElem_idxOf]
      have hidx : (if image.types memseq = .instruction then image.counters count memseq
          else memseq) = image.memops.idxOf b := by
        simp only [types, counters, hper, if_true, hb]
        split_ifs with h <;> simp_all
      have hcount : image.counters count (image.memops.idxOf b) = count b := by
        simp only [counters, hper, if_true, hfirst]
      simp only [reference, blockIds, memopIds, hb, hper, if_true, Option.map_some,
        Option.bind_eq_bind, Option.bind_some, hidx, hcount]
    · simp [reference, blockIds, types, counters, hb, hper]

end SimulatedImage

variable {images : Nat → SimulatedImage} {counts : Nat → Nat → Nat} {row : Nat → Option Nat}
  {buffer : List Entry} {refs : List (Nat × Nat)}

/-- A reference is the block of an entry in the image of its row. -/
theorem mem_references (h : references images counts row buffer = some refs) {r : Nat × Nat} :
    r ∈ refs ↔ ∃ j e i b, buffer[j]? = some e ∧ row j = some i ∧
      (images i).memops[e.memseq]? = some b ∧ r = (b, counts i b) := by
  rw [mem_mapM_iff h]
  simp only [Prod.exists, List.mem_zipIdx_iff_getElem?, Option.bind_eq_bind,
    Option.bind_eq_some_iff, SimulatedImage.reference_eq, Option.map_eq_some_iff]
  constructor
  · rintro ⟨e, j, he, i, hi, b, hb, rfl⟩
    exact ⟨j, e, i, b, he, hi, hb, rfl⟩
  · rintro ⟨j, e, i, b, he, hi, hb, rfl⟩
    exact ⟨e, j, he, i, hi, b, hb, rfl⟩

/-- Every entry is looked up through its row. -/
theorem row_of_references (h : references images counts row buffer = some refs) {j : Nat}
    {e : Entry} (he : buffer[j]? = some e) : ∃ i, row j = some i := by
  obtain ⟨r, -, hr⟩ := exists_of_mem_mapM h (List.mem_zipIdx_iff_getElem?.mpr he : (e, j) ∈ _)
  obtain ⟨i, hi, -⟩ := Option.bind_eq_some_iff.mp hr
  exact ⟨i, hi⟩

theorem mem_hot {sampler : SamplingMethod} {i b : Nat} :
    (i, b) ∈ hot images sampler counts buffer ↔ i ≠ 0 ∧ sampler.exceedsAccessLimit (counts i b) ∧
      ∃ e ∈ buffer, e.imageid = i ∧ (images i).memops[e.memseq]? = some b := by
  simp only [hot, List.mem_toFinset, List.mem_filterMap]
  constructor
  · rintro ⟨e, he, hb⟩
    split at hb
    · cases hb
    · rename_i hne
      obtain ⟨b', hb', hexceeds⟩ := Option.bind_eq_some_iff.mp hb
      split at hexceeds
      · rename_i hlimit
        obtain ⟨rfl, rfl⟩ := Prod.mk.inj (Option.some.inj hexceeds)
        exact ⟨hne, hlimit, e, he, rfl, hb'⟩
      · cases hexceeds
  · rintro ⟨hne, hlimit, e, he, rfl, hb⟩
    refine ⟨e, he, ?_⟩
    rw [if_neg hne, hb, Option.bind_some, if_pos hlimit]

/-! ## The removal -/

/-- What one reference removes. -/
theorem mem_removeReference (sampler : SamplingMethod) (r : Removal) (ref : Nat × Nat) (k : Nat) :
    (k ∈ (removeReference sampler r ref).nonmaxKeys ↔ k ∈ r.nonmaxKeys ∧
      (sampler.exceedsAccessLimit ref.2 → k ≠ generateKey ref.1 .bufferfill)) ∧
    (k ∈ (removeReference sampler r ref).memsRemoved ↔ k ∈ r.memsRemoved ∨
      (sampler.exceedsAccessLimit ref.2 ∧ generateKey ref.1 .bufferfill ∈ r.nonmaxKeys ∧
        ∃ typ ∈ bufferTypes, k = generateKey ref.1 typ)) := by
  unfold removeReference
  simp only
  split
  · rename_i h
    constructor
    · simp only [Finset.mem_erase, h.1, forall_true_left, and_comm]
    · simp only [Finset.mem_insert, h.1, h.2, bufferTypes, List.mem_cons, List.not_mem_nil,
        or_false, exists_eq_or_imp, exists_eq_left, true_and]
      tauto
  · rename_i h
    constructor
    · refine ⟨fun hk => ⟨hk, fun hexceeds heq => h ⟨hexceeds, heq ▸ hk⟩⟩, fun hk => hk.1⟩
    · exact ⟨.inl, fun hk => hk.resolve_right fun hnew => h ⟨hnew.1, hnew.2.1⟩⟩

/-- The loop takes out the keys of the numbers that are beyond the limit and listed. -/
theorem mem_foldl_removeReference (sampler : SamplingMethod) (refs : List (Nat × Nat))
    (r : Removal) (k : Nat) :
    (k ∈ (refs.foldl (removeReference sampler) r).nonmaxKeys ↔ k ∈ r.nonmaxKeys ∧
      ∀ ref ∈ refs, sampler.exceedsAccessLimit ref.2 → k ≠ generateKey ref.1 .bufferfill) ∧
    (k ∈ (refs.foldl (removeReference sampler) r).memsRemoved ↔ k ∈ r.memsRemoved ∨
      ∃ ref ∈ refs, sampler.exceedsAccessLimit ref.2 ∧
        generateKey ref.1 .bufferfill ∈ r.nonmaxKeys ∧
        ∃ typ ∈ bufferTypes, k = generateKey ref.1 typ) := by
  induction refs generalizing r with
  | nil => simp
  | cons ref refs ih =>
    obtain ⟨hnonmax, hremoved⟩ := ih (removeReference sampler r ref)
    have hone := fun k => mem_removeReference sampler r ref k
    rw [List.foldl_cons]
    constructor
    · rw [hnonmax, (hone k).1, List.forall_mem_cons, and_assoc]
    · simp only [hremoved, (hone k).2, List.mem_cons, exists_eq_or_imp, or_assoc]
      refine or_congr_right ⟨?_, ?_⟩
      · rintro (hnew | ⟨ref', hmem, hexceeds, hlisted, htyp⟩)
        · exact .inl hnew
        · exact .inr ⟨ref', hmem, hexceeds, ((hone _).1.mp hlisted).1, htyp⟩
      · rintro (hnew | ⟨ref', hmem, hexceeds, hlisted, htyp⟩)
        · exact .inl hnew
        · -- a number that an earlier reference took out is that of the earlier reference
          by_cases hsame : sampler.exceedsAccessLimit ref.2 ∧ ref'.1 = ref.1
          · rw [hsame.2] at hlisted htyp
            exact .inl ⟨hsame.1, hlisted, htyp⟩
          · refine .inr ⟨ref', hmem, hexceeds, (hone _).1.mpr ⟨hlisted, fun h heq => ?_⟩, htyp⟩
            exact hsame ⟨h, (generateKey_injective heq).1⟩

/-! ## What a run keeps of the points -/

section Points

variable {ι τ : Type} [DecidableEq ι] {imageOf : ι → Nat} {st st' : SamplingState ι τ}
  {removed blocks : Finset (Nat × Nat)}

/-- Between loads, the points have the same keys and the same images. -/
structure SamePoints (st st' : SamplingState ι τ) : Prop where
  key : ∀ d, (st'.points.insts d).key = (st.points.insts d).key
  dynamics : st'.points.dynamics = st.points.dynamics
  images : st'.images = st.images

omit [DecidableEq ι] in
theorem SamePoints.selected (h : SamePoints st st') (keys : Finset Nat) :
    st'.points.selected keys = st.points.selected keys := by
  unfold DynamicState.selected
  rw [h.dynamics]

omit [DecidableEq ι] in
theorem SamePoints.symm (h : SamePoints st st') : SamePoints st' st :=
  ⟨fun d => (h.key d).symm, h.dynamics.symm, h.images.symm⟩

omit [DecidableEq ι] in
theorem SamePoints.pointOf {d : ι} {i b : Nat} (h : SamePoints st st')
    (hpoint : PointOf imageOf st d i b) : PointOf imageOf st' d i b where
  loaded := by
    rw [h.selected, h.key]
    exact hpoint.loaded
  noImage := by
    rw [h.key, h.images]
    exact hpoint.noImage
  image := hpoint.image
  key := by
    rw [h.key]
    exact hpoint.key

theorem samePoints_removeMaxedOut (st : SamplingState ι τ) (refs : List (Nat × Nat)) :
    SamePoints st (st.removeMaxedOut refs) where
  key _ := SamplingState.removeMaxedOut_key
  dynamics := SamplingState.removeMaxedOut_dynamics
  images := rfl

theorem samePoints_switchPoints {numElements : Nat} {state : Bool} :
    SamePoints st (st.switchPoints numElements state) := by
  unfold SamplingState.switchPoints
  split
  · exact ⟨fun _ => DynamicState.setDynamicPoints_key, DynamicState.setDynamicPoints_dynamics, rfl⟩
  · exact ⟨fun _ => rfl, rfl, rfl⟩

/-- The loop over the references takes out the key of a point. -/
def Removes (st : SamplingState ι τ) (refs : List (Nat × Nat)) (d : ι) : Prop :=
  d ∈ st.points.selected {(st.points.insts d).key} ∧ ∃ ref ∈ refs,
    st.sampler.exceedsAccessLimit ref.2 ∧ generateKey ref.1 .bufferfill ∈ st.nonmaxKeys ∧
      ∃ typ ∈ bufferTypes, (st.points.insts d).key = generateKey ref.1 typ

theorem mem_nonmaxKeys_removeMaxedOut {k : Nat} :
    k ∈ (st.removeMaxedOut refs).nonmaxKeys ↔ k ∈ st.nonmaxKeys ∧
      ∀ ref ∈ refs, st.sampler.exceedsAccessLimit ref.2 → k ≠ generateKey ref.1 .bufferfill :=
  (mem_foldl_removeReference st.sampler refs ⟨∅, st.nonmaxKeys⟩ k).1

/-- The removal disables the points whose keys it took out, and no others. -/
theorem isEnabled_removeMaxedOut (h : st.points.Keyed) (refs : List (Nat × Nat)) (d : ι) :
    (Removes st refs d → ((st.removeMaxedOut refs).points.insts d).isEnabled = false) ∧
      (¬Removes st refs d → ((st.removeMaxedOut refs).points.insts d).isEnabled =
        (st.points.insts d).isEnabled) := by
  have hmem := (mem_foldl_removeReference st.sampler refs ⟨∅, st.nonmaxKeys⟩
    (st.points.insts d).key).2
  simp only [Finset.notMem_empty, false_or] at hmem
  have hiff : d ∈ st.points.selected
      (refs.foldl (removeReference st.sampler) ⟨∅, st.nonmaxKeys⟩).memsRemoved ↔
        Removes st refs d := by
    rw [h.mem_selected_iff, hmem]
    rfl
  unfold SamplingState.removeMaxedOut
  simp only
  split
  · rename_i hempty
    rw [hempty, h.mem_selected_iff] at hiff
    exact ⟨fun hr => absurd (hiff.mpr hr).2 (Finset.notMem_empty _), fun _ => rfl⟩
  · rw [DynamicState.isEnabled_setDynamicPoints]
    exact ⟨fun hr => if_pos (hiff.mpr hr), fun hr => if_neg (mt hiff.mp hr)⟩

variable (imageOf st removed) in
/-- The keys that a phase may switch are those of the blocks that were not removed; the points of
the removed blocks are disabled. -/
structure PointsInv : Prop where
  keyed : st.points.Keyed
  registered : ∀ entry ∈ st.points.dynamics, entry.2 ≠ []
  fill : ∀ k ∈ st.nonmaxKeys, getType k = PointType.bufferfill.number
  loaded : ∀ k ∈ st.nonmaxKeys, ∃ d, d ∈ st.points.selected {k}
  gone : ∀ x ∈ removed, generateKey x.2 .bufferfill ∉ st.nonmaxKeys
  disabled : ∀ d, ∀ x ∈ removed, PointOf imageOf st d x.1 x.2 →
    (st.points.insts d).isEnabled = false
  listed : st.sampler.sampleOn ≠ 0 → ∀ d i b, PointOf imageOf st d i b → (i, b) ∉ removed →
    generateKey b .bufferfill ∈ st.nonmaxKeys
  apart : ∀ b, generateKey b .bufferfill ∈ st.nonmaxKeys →
    ∀ typ ∈ bufferTypes, generateKey b typ ∉ st.images

variable (refs imageOf st removed blocks) in
/-- The references that remove something stand for the hot blocks, and these share no number with
other blocks. -/
structure Hits : Prop where
  found : ∀ x ∈ blocks, ∃ ref ∈ refs, ref.1 = x.2 ∧ st.sampler.exceedsAccessLimit ref.2
  isHot : ∀ ref ∈ refs, st.sampler.exceedsAccessLimit ref.2 →
    generateKey ref.1 .bufferfill ∈ st.nonmaxKeys → ∃ i, (i, ref.1) ∈ blocks
  shared : ∀ x ∈ blocks, x ∉ removed → ∀ d i, PointOf imageOf st d i x.2 → (i, x.2) ∈ blocks

namespace PointsInv

omit [DecidableEq ι] in
/-- What does not touch the keys keeps the invariant when it leaves the removed blocks disabled. -/
theorem of_samePoints (h : PointsInv imageOf st removed) (hsame : SamePoints st st')
    (hnonmax : st'.nonmaxKeys = st.nonmaxKeys) (hon : st'.sampler.sampleOn = st.sampler.sampleOn)
    (hdisabled : ∀ d, ∀ x ∈ removed, PointOf imageOf st d x.1 x.2 →
      (st'.points.insts d).isEnabled = false) : PointsInv imageOf st' removed where
  keyed k d hd := by
    rw [hsame.selected] at hd
    rw [hsame.key]
    exact h.keyed k d hd
  registered := by
    rw [hsame.dynamics]
    exact h.registered
  fill := by
    rw [hnonmax]
    exact h.fill
  loaded k hk := by
    rw [hnonmax] at hk
    simp only [hsame.selected]
    exact h.loaded k hk
  gone := by
    rw [hnonmax]
    exact h.gone
  disabled d x hx hpoint := hdisabled d x hx (hsame.symm.pointOf hpoint)
  listed := by
    rw [hnonmax, hon]
    exact fun hpos d i b hpoint => h.listed hpos d i b (hsame.symm.pointOf hpoint)
  apart := by
    rw [hnonmax, hsame.images]
    exact h.apart

/-- A switch leaves the removed blocks alone: their keys are not listed. -/
theorem switchPoints (h : PointsInv imageOf st removed) (numElements : Nat) (state : Bool) :
    PointsInv imageOf (st.switchPoints numElements state) removed := by
  refine h.of_samePoints samePoints_switchPoints ?_ ?_ fun d x hx hpoint => ?_
  · unfold SamplingState.switchPoints
    split <;> rfl
  · unfold SamplingState.switchPoints
    split <;> rfl
  · have hoff := h.disabled d x hx hpoint
    unfold SamplingState.switchPoints
    split
    · simp only [DynamicState.isEnabled_setDynamicPoints]
      rw [if_neg, hoff]
      intro hsel
      have hmem := (h.keyed.mem_selected_iff.mp hsel).2
      obtain ⟨typ, -, hkey⟩ := hpoint.key
      have hfill := generateKey_getBlockId .bufferfill (h.fill _ hmem)
      rw [hkey] at hfill hmem
      rw [(generateKey_injective hfill).2.symm] at hmem
      exact h.gone x hx hmem
    · exact hoff

omit [DecidableEq ι] in
/-- A hot block that was not removed before is removed now. -/
theorem removes (h : PointsInv imageOf st removed) (hon : st.sampler.sampleOn ≠ 0)
    (hhits : Hits refs imageOf st removed blocks) {x : Nat × Nat} (hx : x ∈ blocks)
    (hnew : x ∉ removed) {d : ι} (hpoint : PointOf imageOf st d x.1 x.2) : Removes st refs d := by
  obtain ⟨ref, href, hblock, hexceeds⟩ := hhits.found x hx
  obtain ⟨typ, htyp, hkey⟩ := hpoint.key
  refine ⟨hpoint.loaded, ref, href, hexceeds, ?_, typ, htyp, ?_⟩
  · rw [hblock]
    exact h.listed hon d x.1 x.2 hpoint hnew
  · rw [hblock, hkey]

/-- The points of the hot blocks are disabled after the removal. -/
theorem disabled_removeMaxedOut (h : PointsInv imageOf st removed)
    (hon : st.sampler.sampleOn ≠ 0) (hhits : Hits refs imageOf st removed blocks) {d : ι}
    {x : Nat × Nat} (hx : x ∈ removed ∪ blocks) (hpoint : PointOf imageOf st d x.1 x.2) :
    ((st.removeMaxedOut refs).points.insts d).isEnabled = false := by
  obtain ⟨hremoves, hkeeps⟩ := isEnabled_removeMaxedOut h.keyed refs d
  by_cases hr : Removes st refs d
  · exact hremoves hr
  · by_cases hold : x ∈ removed
    · rw [hkeeps hr]
      exact h.disabled d x hold hpoint
    · have hnew := (Finset.mem_union.mp hx).resolve_left hold
      exact absurd (h.removes hon hhits hnew hold hpoint) hr

omit [DecidableEq ι] in
/-- A number that is removed is that of a hot block, and so are all points with it. -/
theorem mem_blocks (h : PointsInv imageOf st removed) (hhits : Hits refs imageOf st removed blocks)
    {ref : Nat × Nat} (href : ref ∈ refs) (hexceeds : st.sampler.exceedsAccessLimit ref.2)
    (hlisted : generateKey ref.1 .bufferfill ∈ st.nonmaxKeys) {d : ι} {i : Nat}
    (hpoint : PointOf imageOf st d i ref.1) : (i, ref.1) ∈ blocks := by
  obtain ⟨i', hhot⟩ := hhits.isHot ref href hexceeds hlisted
  exact hhits.shared _ hhot (fun hold => h.gone _ hold hlisted) d i hpoint

/-- **The removal disables the points of the hot blocks**, and leaves the others as they are. -/
theorem isEnabled_removeMaxedOut_eq (h : PointsInv imageOf st removed)
    (hon : st.sampler.sampleOn ≠ 0) (hhits : Hits refs imageOf st removed blocks) (d : ι)
    [Decidable (∃ x ∈ blocks, PointOf imageOf st d x.1 x.2)] :
    ((st.removeMaxedOut refs).points.insts d).isEnabled =
      if ∃ x ∈ blocks, PointOf imageOf st d x.1 x.2 then false
      else (st.points.insts d).isEnabled := by
  split
  · rename_i hhot
    obtain ⟨x, hx, hpoint⟩ := hhot
    exact h.disabled_removeMaxedOut hon hhits (Finset.mem_union_right _ hx) hpoint
  · rename_i hcold
    refine (isEnabled_removeMaxedOut h.keyed refs d).2 ?_
    rintro ⟨hsel, ref, href, hexceeds, hlisted, typ, htyp, hkey⟩
    have hpoint : PointOf imageOf st d (imageOf d) ref.1 :=
      ⟨hsel, by rw [hkey]; exact h.apart _ hlisted typ htyp, rfl, typ, htyp, hkey⟩
    exact hcold ⟨_, h.mem_blocks hhits href hexceeds hlisted hpoint, hpoint⟩

theorem removeMaxedOut (h : PointsInv imageOf st removed) (hon : st.sampler.sampleOn ≠ 0)
    (hhits : Hits refs imageOf st removed blocks) :
    PointsInv imageOf (st.removeMaxedOut refs) (removed ∪ blocks) := by
  have hsub : ∀ k ∈ (st.removeMaxedOut refs).nonmaxKeys, k ∈ st.nonmaxKeys := fun k hk =>
    (mem_nonmaxKeys_removeMaxedOut.mp hk).1
  have hsame := samePoints_removeMaxedOut st refs
  constructor
  case keyed =>
    intro k d hd
    rw [hsame.selected] at hd
    rw [hsame.key]
    exact h.keyed k d hd
  case registered =>
    rw [hsame.dynamics]
    exact h.registered
  case fill => exact fun k hk => h.fill k (hsub k hk)
  case loaded =>
    intro k hk
    simp only [hsame.selected]
    exact h.loaded k (hsub k hk)
  case gone =>
    intro x hx hmem
    rcases Finset.mem_union.mp hx with hold | hnew
    · exact h.gone x hold (hsub _ hmem)
    · obtain ⟨ref, href, hblock, hexceeds⟩ := hhits.found x hnew
      refine (mem_nonmaxKeys_removeMaxedOut.mp hmem).2 ref href hexceeds ?_
      rw [hblock]
  case disabled =>
    exact fun d x hx hpoint => h.disabled_removeMaxedOut hon hhits hx (hsame.symm.pointOf hpoint)
  case listed =>
    intro _ d i b hpoint hcold
    have hbefore := hsame.symm.pointOf hpoint
    have hout := mt Finset.mem_union.mpr hcold
    have hlisted := h.listed hon d i b hbefore fun hold => hout (.inl hold)
    refine mem_nonmaxKeys_removeMaxedOut.mpr ⟨hlisted, fun ref href hexceeds heq => ?_⟩
    obtain rfl := (generateKey_injective heq).1
    exact hout (.inr (h.mem_blocks hhits href hexceeds hlisted hbefore))
  case apart => exact fun b hb typ htyp => h.apart b (hsub _ hb) typ htyp

/-- The third section keeps the invariant; only a call that sampled removes anything. -/
theorem finishCall (h : PointsInv imageOf st removed) {isSampling : Bool} {numElements : Nat}
    (hon : isSampling = true → st.sampler.sampleOn ≠ 0)
    (hhits : isSampling = true → Hits refs imageOf st removed blocks) (threads : τ → CallPhase) :
    PointsInv imageOf { st.finishCall isSampling numElements refs with threads := threads }
      (if isSampling then removed ∪ blocks else removed) := by
  unfold SamplingState.finishCall
  cases isSampling with
  | true =>
    simp only [if_true]
    have hswitched := (h.removeMaxedOut (hon rfl) (hhits rfl)).switchPoints numElements false
    exact hswitched.of_samePoints ⟨fun _ => rfl, rfl, rfl⟩ rfl rfl hswitched.disabled
  | false =>
    simp only [Bool.false_eq_true, if_false]
    have hswitched := h.switchPoints numElements true
    exact hswitched.of_samePoints ⟨fun _ => rfl, rfl, rfl⟩ rfl rfl hswitched.disabled

end PointsInv

/-! ## Image loads -/

omit [DecidableEq ι] in
/-- No key is registered without a point. -/
theorem registered_initialize {points : DynamicState ι} (dyn : List ι)
    (h : ∀ entry ∈ points.dynamics, entry.2 ≠ []) :
    ∀ entry ∈ (points.initializeDynamicInstrumentation dyn).dynamics, entry.2 ≠ [] := by
  have hpush : ∀ k d (dynamics : List (Nat × List ι)), (∀ entry ∈ dynamics, entry.2 ≠ []) →
      ∀ entry ∈ pushBack k d dynamics, entry.2 ≠ [] := by
    intro k d dynamics hdynamics
    induction dynamics with
    | nil => simp [pushBack]
    | cons entry dynamics ih =>
      rw [List.forall_mem_cons] at hdynamics
      unfold pushBack
      split
      · exact List.forall_mem_cons.mpr ⟨by simp, hdynamics.2⟩
      · exact List.forall_mem_cons.mpr ⟨hdynamics.1, ih hdynamics.2⟩
  unfold DynamicState.initializeDynamicInstrumentation
  simp only
  generalize points.dynamics = dynamics at h ⊢
  induction dyn generalizing dynamics with
  | nil => exact h
  | cons d dyn ih =>
    rw [List.foldl_cons]
    refine ih _ ?_
    split
    · exact hpush _ _ _ h
    · exact h

omit [DecidableEq ι] in
theorem exists_of_mem_getAllDynamicKeys {points : DynamicState ι} {k : Nat}
    (h : ∀ entry ∈ points.dynamics, entry.2 ≠ [])
    (hk : k ∈ SamplingState.getAllDynamicKeys points) :
    ∃ d, d ∈ points.selected {k} := by
  rw [SamplingState.getAllDynamicKeys, List.mem_toFinset] at hk
  obtain ⟨entry, hentry, rfl⟩ := List.mem_map.mp hk
  obtain ⟨d, hd⟩ := List.exists_mem_of_ne_nil _ (h entry hentry)
  exact ⟨d, DynamicState.mem_selected.mpr ⟨_, Finset.mem_singleton_self _, entry, hentry, rfl, hd⟩⟩

/-- A new image keeps the invariant while nothing is removed and the keys of images and points are
kept apart. -/
theorem PointsInv.loadImage (h : PointsInv imageOf st ∅) {key : Nat} {dyn : List ι}
    (henabled : dyn.all fun d => (st.points.insts d).isEnabled)
    (hown : ownPoints imageOf st.points key dyn)
    (hkeys : ∀ d, ((d ∈ dyn ∧ (st.points.insts d).key ≠ key) ∨
        (d ∈ st.points.selected {(st.points.insts d).key} ∧
          (st.points.insts d).key ∉ st.images)) →
      ∀ b, ∀ typ ∈ bufferTypes, (st.points.insts d).key = generateKey b typ →
        ∀ typ' ∈ bufferTypes, generateKey b typ' ∉ insert key st.images) :
    PointsInv imageOf (st.loadImage key dyn) ∅ := by
  have hkeyed := h.keyed.initialize dyn
  have hregistered := registered_initialize dyn h.registered
  have hfill : PointType.bufferfill ∈ bufferTypes := by decide
  -- the listed keys after the load
  have hlisted : ∀ k ∈ st.nonmaxKeys ∪ (SamplingState.getAllDynamicKeys
      ((st.points.initializeDynamicInstrumentation dyn).setDynamicPoints {key} false)).filter
        (fun k => getType k = PointType.bufferfill.number ∧ k ∉ insert key st.images),
      getType k = PointType.bufferfill.number ∧
      ∃ d ∈ (st.points.initializeDynamicInstrumentation dyn).selected {k},
        (st.points.insts d).key = k ∧ ((d ∈ dyn ∧ (st.points.insts d).key ≠ key) ∨
          (d ∈ st.points.selected {(st.points.insts d).key} ∧
            (st.points.insts d).key ∉ st.images)) := by
    intro k hk
    rcases Finset.mem_union.mp hk with hold | hnew
    · obtain ⟨d, hd⟩ := h.loaded k hold
      have hkey := h.keyed k d hd
      have htype := h.fill k hold
      have hapart := h.apart (getBlockId k) (by rwa [generateKey_getBlockId _ htype]) _ hfill
      rw [generateKey_getBlockId _ htype] at hapart
      rw [← hkey] at hd hapart
      exact ⟨htype, d, DynamicState.mem_selected_initialize.mpr (.inl (hkey ▸ hd)), hkey,
        .inr ⟨hd, hapart⟩⟩
    · obtain ⟨hmem, htype, hnoImage⟩ := Finset.mem_filter.mp hnew
      obtain ⟨d, hd⟩ := exists_of_mem_getAllDynamicKeys (by simpa using hregistered) hmem
      rw [DynamicState.setDynamicPoints_selected] at hd
      have hkey : (st.points.insts d).key = k := hkeyed k d hd
      refine ⟨htype, d, hd, hkey, ?_⟩
      rw [Finset.mem_insert, not_or] at hnoImage
      rcases DynamicState.mem_selected_initialize.mp hd with hold | ⟨hdyn, -, -⟩
      · exact .inr (hkey.symm ▸ ⟨hold, hnoImage.2⟩)
      · exact .inl ⟨hdyn, hkey ▸ hnoImage.1⟩
  unfold SamplingState.loadImage
  simp only
  split
  · rename_i hzero
    constructor
    case keyed => exact hkeyed.setDynamicPoints.setDynamicPoints
    case registered => simpa using hregistered
    case fill => exact fun k hk => absurd hk (Finset.notMem_empty k)
    case loaded => exact fun k hk => absurd hk (Finset.notMem_empty k)
    case gone => exact fun x hx => absurd hx (Finset.notMem_empty x)
    case disabled => exact fun _ x hx => absurd hx (Finset.notMem_empty x)
    case listed => exact fun hon => absurd hzero hon
    case apart => exact fun b hb => absurd hb (Finset.notMem_empty _)
  · rename_i hon
    constructor
    case keyed => exact hkeyed.setDynamicPoints
    case registered => simpa using hregistered
    case fill => exact fun k hk => (hlisted k hk).1
    case loaded =>
      intro k hk
      obtain ⟨-, d, hd, -⟩ := hlisted k hk
      exact ⟨d, by rwa [DynamicState.setDynamicPoints_selected]⟩
    case gone => exact fun x hx => absurd hx (Finset.notMem_empty x)
    case disabled => exact fun _ x hx => absurd hx (Finset.notMem_empty x)
    case listed =>
      rintro - d i b ⟨hloaded, hnoImage, himage, typ, htyp, hkey⟩ -
      simp only [DynamicState.setDynamicPoints_key, DynamicState.setDynamicPoints_selected]
        at hloaded hnoImage hkey
      change (st.points.insts d).key = _ at hkey
      change d ∈ DynamicState.selected _ {(st.points.insts d).key} at hloaded
      change (st.points.insts d).key ∉ _ at hnoImage
      rw [Finset.mem_insert, not_or] at hnoImage
      rcases DynamicState.mem_selected_initialize.mp hloaded with hold | ⟨hdyn, -, -⟩
      · exact Finset.mem_union_left _ (h.listed hon d i b ⟨hold, hnoImage.2, himage, typ, htyp,
          hkey⟩ (Finset.notMem_empty _))
      · -- a block of the new image has a point that fills
        have hpoint := List.all_eq_true.mp hown d hdyn
        simp only [Bool.and_eq_true, Bool.or_eq_true, beq_iff_eq, hnoImage.1, false_or] at hpoint
        rcases hpoint.2 with hother | hfills
        · have hne := List.all_eq_true.mp hother typ htyp
          rw [hkey, getType_generateKey] at hne
          simp at hne
        · obtain ⟨d', hd', hkey'⟩ := List.any_eq_true.mp hfills
          have hblock : getBlockId (st.points.insts d).key = b := by
            have htype : getType (st.points.insts d).key = typ.number := by
              rw [hkey, getType_generateKey]
            have hsame := generateKey_getBlockId typ htype
            rw [hkey] at hsame ⊢
            exact (generateKey_injective hsame).1
          rw [beq_iff_eq, hblock] at hkey'
          refine Finset.mem_union_right _ (Finset.mem_filter.mpr ⟨?_, getType_generateKey .., ?_⟩)
          · refine SamplingState.mem_getAllDynamicKeys (d := d') ?_
            rw [DynamicState.setDynamicPoints_selected]
            exact DynamicState.mem_selected_initialize.mpr (.inr ⟨hd', List.all_eq_true.mp henabled
              d' hd', Finset.mem_singleton.mpr hkey'⟩)
          · exact hkeys d (.inl ⟨hdyn, hnoImage.1⟩) b typ htyp hkey _ hfill
    case apart =>
      intro b hb typ htyp
      obtain ⟨-, d, -, hkey, hd⟩ := hlisted _ hb
      exact hkeys d hd b _ hfill hkey typ htyp

end Points

/-! ## What a run keeps of the buffers -/

/-- The slots of the entries that are not blank have the images of the entries. -/
def SlotsOf (buffer : List Entry) (row : Nat → Option Nat) : Prop :=
  ∀ (j : Nat) e i, buffer[j]? = some e → e.imageid ≠ 0 → row j = some i → i = e.imageid

/-- The loop of `Refresh` sets the slots of its entries and leaves the slots before them. -/
theorem refreshFrom_spec {loaded : Finset Nat} {threadCount : Nat} {j : Nat}
    {row' : Nat → Option Nat} (h : refreshFrom loaded threadCount buffer j row = some row') :
    (∀ k < j, row' k = row k) ∧
      (∀ (k : Nat) e, buffer[k]? = some e → e.imageid ≠ 0 → row' (j + k) = some e.imageid) ∧
      ∀ k i, row' k = some i → row k = some i ∨ i ∈ loaded := by
  induction buffer generalizing j row with
  | nil =>
    obtain rfl := Option.some.inj h
    exact ⟨fun _ _ => rfl, by simp, fun _ _ => .inl⟩
  | cons e buffer ih =>
    unfold refreshFrom at h
    split at h
    · rename_i hblank
      split at h
      · obtain ⟨hbefore, hset, hrows⟩ := ih h
        refine ⟨fun k hk => hbefore k (Nat.lt_succ_of_lt hk), fun k e' he' hne => ?_, hrows⟩
        cases k with
        | zero =>
          obtain rfl := Option.some.inj he'
          exact absurd hblank hne
        | succ k =>
          rw [Nat.add_comm k, ← Nat.add_assoc]
          exact hset k e' he' hne
      · cases h
    · split at h
      · rename_i hloaded
        obtain ⟨hbefore, hset, hrows⟩ := ih h
        refine ⟨fun k hk => ?_, fun k e' he' hne => ?_, fun k i hi => ?_⟩
        · rw [hbefore k (Nat.lt_succ_of_lt hk), Function.update_of_ne hk.ne]
        · cases k with
          | zero =>
            obtain rfl := Option.some.inj he'
            rw [Nat.add_zero, hbefore j (Nat.lt_succ_self j), Function.update_self]
          | succ k =>
            rw [Nat.add_comm k, ← Nat.add_assoc]
            exact hset k e' he' hne
        · rcases hrows k i hi with hold | hnew
          · by_cases hk : k = j
            · rw [hk, Function.update_self] at hold
              obtain rfl := Option.some.inj hold
              exact .inr hloaded
            · rw [Function.update_of_ne hk] at hold
              exact .inl hold
          · exact .inr hnew
      · cases h

/-- With one image there is nothing to refresh: all entries and all slots are of that image. -/
theorem slotsOf_refresh {loaded : Finset Nat} {threadCount : Nat} {row' : Nat → Option Nat}
    (hentries : ∀ e ∈ buffer, e.imageid = 0 ∨ e.imageid ∈ loaded)
    (hrow : ∀ j i, row j = some i → i ∈ loaded)
    (h : refresh loaded threadCount buffer row = some row') :
    SlotsOf buffer row' ∧ ∀ j i, row' j = some i → i ∈ loaded := by
  unfold refresh at h
  split at h
  · rename_i hone
    obtain ⟨only, rfl⟩ := Finset.card_eq_one.mp hone
    obtain rfl := Option.some.inj h
    refine ⟨fun j e i he hne hi => ?_, hrow⟩
    have hloaded := (hentries e (List.mem_of_getElem? he)).resolve_left hne
    rw [Finset.mem_singleton.mp hloaded, Finset.mem_singleton.mp (hrow j i hi)]
  · obtain ⟨-, hset, hrows⟩ := refreshFrom_spec h
    refine ⟨fun j e i he hne hi => ?_, fun j i hi => (hrows j i hi).elim (hrow j i) id⟩
    have hslot := hset j e he hne
    rw [Nat.zero_add, hi] at hslot
    exact Option.some.inj hslot

section Run

variable {ι τ : Type} [DecidableEq ι] [DecidableEq τ] {imageOf : ι → Nat}
  {st next : LimitState ι τ}

/-- A call that sampled does so in phases, and its slots are those of its entries. -/
structure BufferInv (st : LimitState ι τ) : Prop where
  sampled : ∀ t numElements, st.sampling.threads t = .read true numElements ∨
    st.sampling.threads t = .processed true numElements → st.sampling.sampler.sampleOn ≠ 0
  first : st.sampling.images ≠ ∅ → st.firstimage ∈ st.sampling.images
  rows : ∀ t j i, st.rows t j = some i → i ∈ st.sampling.images
  slots : ∀ t numElements, st.sampling.threads t = .processed true numElements →
    SlotsOf (st.buffers t) (st.rows t)

variable (imageOf st) in
/-- What a run keeps. -/
structure LimitInv : Prop where
  points : PointsInv imageOf st.sampling st.removed
  buffers : BufferInv st

namespace LimitInv

omit [DecidableEq ι] [DecidableEq τ] in
/-- Where the condition holds, the references stand for the hot blocks. -/
theorem hits (h : LimitInv imageOf st) {t : τ} {numElements : Nat}
    (hphase : st.sampling.threads t = .processed true numElements)
    (hrefs : references images counts (st.rows t) (st.buffers t) = some refs)
    (hmeets : StepMeets images imageOf st (.finish t counts)) :
    Hits refs imageOf st.sampling st.removed
      (hot images st.sampling.sampler counts (st.buffers t)) := by
  obtain ⟨hshared, hblank⟩ := hmeets numElements hphase
  have hslots := h.buffers.slots t numElements hphase
  constructor
  case found =>
    rintro ⟨i, b⟩ hx
    obtain ⟨hne, hexceeds, e, he, rfl, hb⟩ := mem_hot.mp hx
    obtain ⟨j, hj⟩ := List.mem_iff_getElem?.mp he
    obtain ⟨i, hi⟩ := row_of_references hrefs hj
    obtain rfl := hslots j e i hj hne hi
    exact ⟨(b, counts e.imageid b), (mem_references hrefs).mpr ⟨j, e, _, b, hj, hi, hb, rfl⟩, rfl,
      hexceeds⟩
  case isHot =>
    intro ref href hexceeds hlisted
    obtain ⟨j, e, i, b, hj, hi, hb, rfl⟩ := (mem_references hrefs).mp href
    refine ⟨i, ?_⟩
    by_cases hne : e.imageid = 0
    · exact hblank j e i b hj hne hi hb hexceeds hlisted
    · obtain rfl := hslots j e i hj hne hi
      exact mem_hot.mpr ⟨hne, hexceeds, e, List.mem_of_getElem? hj, rfl, hb⟩
  case shared => exact hshared

omit [DecidableEq τ] in
/-- What the third section disables. -/
theorem stepRight (h : LimitInv imageOf st) {act : LimitAct ι τ}
    (hmeets : StepMeets images imageOf st act) : StepRight images imageOf st act := by
  cases act with
  | finish t counts =>
    intro numElements refs hphase hrefs d
    classical
    exact h.points.isEnabled_removeMaxedOut_eq
      (h.buffers.sampled t numElements (.inr hphase)) (h.hits hphase hrefs hmeets) d
  | startThread | snapshot | process | loadImage => trivial

theorem startThread (h : LimitInv imageOf st) {t : τ}
    (hstep : step images imageOf st (.startThread t) = some next) : LimitInv imageOf next := by
  obtain ⟨hpoints, hsampled, hfirst, hrows, hslots⟩ := h
  simp only [AccessLimit.step] at hstep
  split at hstep
  · rename_i hidle
    obtain rfl := Option.some.inj hstep
    refine ⟨hpoints, hsampled, hfirst, fun t' j i hi => ?_, fun t' n hphase => ?_⟩
    · by_cases ht : t' = t
      · simp only [ht, Function.update_self] at hi
        split at hi
        · rename_i hone
          obtain rfl := Option.some.inj hi
          exact hfirst fun hempty => by simp [hempty] at hone
        · cases hi
      · simp only [Function.update_of_ne ht] at hi
        exact hrows t' j i hi
    · have ht : t' ≠ t := fun ht => by simp [ht, hidle] at hphase
      simp only [Function.update_of_ne ht]
      exact hslots t' n hphase
  · cases hstep

theorem snapshot (h : LimitInv imageOf st) {t : τ} {numElements : Nat}
    (hstep : step images imageOf st (.snapshot t numElements) = some next) :
    LimitInv imageOf next := by
  obtain ⟨hpoints, hsampled, hfirst, hrows, hslots⟩ := h
  simp only [AccessLimit.step] at hstep
  obtain ⟨sampling, hsampling, hnext⟩ := Option.bind_eq_some_iff.mp hstep
  obtain rfl := Option.some.inj hnext
  simp only [SamplingState.step] at hsampling
  split at hsampling
  · split at hsampling
    · obtain rfl := Option.some.inj hsampling
      exact ⟨hpoints, hsampled, hfirst, hrows, hslots⟩
    · obtain rfl := Option.some.inj hsampling
      refine ⟨hpoints.of_samePoints ⟨fun _ => rfl, rfl, rfl⟩ rfl rfl hpoints.disabled,
        fun t' n hphase => ?_, hfirst, hrows, fun t' n hphase => ?_⟩
      · by_cases ht : t' = t
        · simp only [ht, Function.update_self, CallPhase.read.injEq, reduceCtorEq, or_false]
            at hphase
          intro hzero
          change st.sampling.sampler.sampleOn = 0 at hzero
          simp [SamplingMethod.currentlySampling, hzero] at hphase
        · simp only [Function.update_of_ne ht] at hphase
          exact hsampled t' n hphase
      · have ht : t' ≠ t := fun ht => by simp [ht] at hphase
        simp only [Function.update_of_ne ht] at hphase
        exact hslots t' n hphase
  · cases hsampling

/-- The second section brings the slots to its entries. -/
theorem process (h : LimitInv imageOf st) {t : τ} {buffer : List Entry}
    (hstep : step images imageOf st (.process t buffer) = some next) : LimitInv imageOf next := by
  obtain ⟨hpoints, hsampled, hfirst, hrows, hslots⟩ := h
  simp only [AccessLimit.step] at hstep
  split at hstep
  · rename_i isSampling numElements hread
    split at hstep
    · rename_i hbuffer
      obtain ⟨row, hrow, hrest⟩ := Option.bind_eq_some_iff.mp hstep
      obtain ⟨sampling, hsampling, hnext⟩ := Option.bind_eq_some_iff.mp hrest
      obtain rfl := Option.some.inj hnext
      simp only [SamplingState.step, hread] at hsampling
      obtain rfl := Option.some.inj hsampling
      have hrefreshed : (∀ j i, row j = some i → i ∈ st.sampling.images) ∧
          (isSampling = true → SlotsOf buffer row) := by
        cases isSampling with
        | true =>
          obtain ⟨hslots', hrows'⟩ := slotsOf_refresh hbuffer.2 (hrows t) hrow
          exact ⟨hrows', fun _ => hslots'⟩
        | false =>
          obtain rfl := Option.some.inj hrow
          exact ⟨hrows t, fun htrue => absurd htrue Bool.false_ne_true⟩
      refine ⟨hpoints.of_samePoints ⟨fun _ => rfl, rfl, rfl⟩ rfl rfl hpoints.disabled,
        fun t' n hphase => ?_, hfirst, fun t' => ?_, fun t' n hphase => ?_⟩
      · by_cases ht : t' = t
        · simp only [ht, Function.update_self, CallPhase.processed.injEq, reduceCtorEq, false_or]
            at hphase
          rw [hphase.1] at hread
          exact hsampled t numElements (.inl hread)
        · simp only [Function.update_of_ne ht] at hphase
          exact hsampled t' n hphase
      · by_cases ht : t' = t
        · simp only [ht, Function.update_self]
          exact hrefreshed.1
        · simp only [Function.update_of_ne ht]
          exact hrows t'
      · by_cases ht : t' = t
        · simp only [ht, Function.update_self, CallPhase.processed.injEq] at hphase ⊢
          exact hrefreshed.2 hphase.1
        · simp only [Function.update_of_ne ht] at hphase ⊢
          exact hslots t' n hphase
    · cases hstep
  · cases hstep

theorem finish (h : LimitInv imageOf st) {t : τ}
    (hmeets : StepMeets images imageOf st (.finish t counts))
    (hstep : step images imageOf st (.finish t counts) = some next) : LimitInv imageOf next := by
  obtain ⟨hpoints, hsampled, hfirst, hrows, hslots⟩ := h
  simp only [AccessLimit.step] at hstep
  split at hstep
  · rename_i isSampling numElements hprocessed
    obtain ⟨refs, hrefs, hrest⟩ := Option.bind_eq_some_iff.mp hstep
    obtain ⟨sampling, hsampling, hnext⟩ := Option.bind_eq_some_iff.mp hrest
    obtain rfl := Option.some.inj hnext
    simp only [SamplingState.step, hprocessed] at hsampling
    obtain rfl := Option.some.inj hsampling
    have hon : isSampling = true → st.sampling.sampler.sampleOn ≠ 0 := by
      rintro rfl
      exact hsampled t numElements (.inr hprocessed)
    have hhits : isSampling = true → Hits refs imageOf st.sampling st.removed
        (hot images st.sampling.sampler counts (st.buffers t)) := by
      rintro rfl
      exact LimitInv.hits ⟨hpoints, hsampled, hfirst, hrows, hslots⟩ hprocessed hrefs hmeets
    obtain ⟨hsampler, himages⟩ :
        (st.sampling.finishCall isSampling numElements refs).sampler.sampleOn =
          st.sampling.sampler.sampleOn ∧
        (st.sampling.finishCall isSampling numElements refs).images = st.sampling.images := by
      unfold SamplingState.finishCall SamplingState.switchPoints
      cases isSampling <;> simp only [Bool.false_eq_true, if_true, if_false] <;> split <;>
        exact ⟨rfl, rfl⟩
    refine ⟨hpoints.finishCall hon hhits _, fun t' n hphase => ?_, ?_, fun t' => ?_,
      fun t' n hphase => ?_⟩
    · have ht : t' ≠ t := fun ht => by simp [ht] at hphase
      simp only [Function.update_of_ne ht] at hphase
      show (st.sampling.finishCall isSampling numElements refs).sampler.sampleOn ≠ 0
      rw [hsampler]
      exact hsampled t' n hphase
    · show (st.sampling.finishCall isSampling numElements refs).images ≠ ∅ → _
      simp only [himages]
      exact hfirst
    · simp only [himages]
      exact hrows t'
    · have ht : t' ≠ t := fun ht => by simp [ht] at hphase
      simp only [Function.update_of_ne ht] at hphase
      exact hslots t' n hphase
  · cases hstep

theorem loadImage (h : LimitInv imageOf st) {t : τ} {key : Nat} {dyn : List ι}
    (hmeets : StepMeets images imageOf st (.loadImage t key dyn))
    (hstep : step images imageOf st (.loadImage t key dyn) = some next) :
    LimitInv imageOf next := by
  obtain ⟨hpoints, hsampled, hfirst, hrows, hslots⟩ := h
  simp only [AccessLimit.step] at hstep
  split at hstep
  · rename_i hload
    obtain ⟨sampling, hsampling, hnext⟩ := Option.bind_eq_some_iff.mp hstep
    obtain rfl := Option.some.inj hnext
    simp only [SamplingState.step] at hsampling
    split at hsampling
    · rename_i henabled
      obtain rfl := Option.some.inj hsampling
      obtain ⟨hremoved, hkeys⟩ := hmeets
      have himages : (st.sampling.loadImage key dyn).images = insert key st.sampling.images := by
        unfold SamplingState.loadImage
        simp only
        split <;> rfl
      have hsame : (st.sampling.loadImage key dyn).sampler = st.sampling.sampler ∧
          (st.sampling.loadImage key dyn).threads = st.sampling.threads := by
        unfold SamplingState.loadImage
        simp only
        split <;> exact ⟨rfl, rfl⟩
      refine ⟨?_, ?_, ?_, fun t' j i hi => ?_, fun t' n hphase => ?_⟩
      · simp only [hremoved] at hpoints ⊢
        exact hpoints.loadImage henabled hload.2.2.2 hkeys
      · simp only [hsame]
        exact hsampled
      · simp only [himages]
        intro _
        split
        · exact Finset.mem_insert_self ..
        · rename_i hne
          exact Finset.mem_insert_of_mem (hfirst hne)
      · simp only [himages]
        simp only at hi
        split at hi
        · by_cases ht : t' = t
          · rw [ht, Function.update_self] at hi
            obtain rfl := Option.some.inj hi
            exact Finset.mem_insert_self ..
          · rw [Function.update_of_ne ht] at hi
            exact Finset.mem_insert_of_mem (hrows t' j i hi)
        · exact Finset.mem_insert_of_mem (hrows t' j i hi)
      · simp only [hsame] at hphase ⊢
        have ht : t' ≠ t := fun ht => by simp [ht, hload.1] at hphase
        split
        · rw [Function.update_of_ne ht]
          exact hslots t' n hphase
        · exact hslots t' n hphase
    · cases hsampling
  · cases hstep

/-- Every step that meets the condition keeps the invariant. -/
theorem step (h : LimitInv imageOf st) {act : LimitAct ι τ}
    (hmeets : StepMeets images imageOf st act) (hstep : step images imageOf st act = some next) :
    LimitInv imageOf next := by
  cases act with
  | startThread t => exact h.startThread hstep
  | snapshot t numElements => exact h.snapshot hstep
  | process t buffer => exact h.process hstep
  | finish t counts => exact h.finish hmeets hstep
  | loadImage t key dyn => exact h.loadImage hmeets hstep

theorem runRight (h : LimitInv imageOf st) {acts : List (LimitAct ι τ)}
    (hmeets : RunMeets images imageOf st acts) : RunRight images imageOf st acts := by
  induction acts generalizing st with
  | nil => exact h.points.disabled
  | cons act acts ih =>
    exact ⟨h.points.disabled, h.stepRight hmeets.1, fun next hstep =>
      ih (h.step hmeets.1 hstep) (hmeets.2 next hstep)⟩

end LimitInv

omit [DecidableEq ι] [DecidableEq τ] in
theorem limitInv_initial (imageOf : ι → Nat) (sampler : SamplingMethod) (memory : ByteMemory)
    (insts : ι → DynamicInst) :
    LimitInv imageOf (initial sampler memory insts : LimitState ι τ) where
  points :=
    { keyed := fun _ _ hd => absurd hd List.not_mem_nil
      registered := fun _ hentry => absurd hentry List.not_mem_nil
      fill := fun k hk => absurd hk (Finset.notMem_empty k)
      loaded := fun k hk => absurd hk (Finset.notMem_empty k)
      gone := fun x hx => absurd hx (Finset.notMem_empty x)
      disabled := fun _ x hx => absurd hx (Finset.notMem_empty x)
      listed := fun _ _ _ _ hpoint => absurd hpoint.loaded List.not_mem_nil
      apart := fun b hb => absurd hb (Finset.notMem_empty (generateKey b .bufferfill)) }
  buffers :=
    { sampled := fun _ _ hphase => by rcases hphase with hphase | hphase <;> cases hphase
      first := fun hne => absurd rfl hne
      rows := nofun
      slots := nofun }

end Run

/-- Every image has one operation, of its block 1. -/
def oneBlock : Nat → SimulatedImage := fun _ => ⟨false, [1], List.pairwise_singleton ..⟩

/-- Blocks that were executed more than 3 times are not simulated. -/
def limitThree : SamplingMethod := ⟨3, 1, 1, 0⟩

/-- A point that fills the buffer for block 1. -/
def fillPoint : DynamicInst where
  virtualAddress := 0
  key := generateKey 1 .bufferfill
  size := 5
  oppContent _ := 0x90
  isEnabled := true

/-- One image, and one call with an entry of its block. -/
def oneImage : List (LimitAct Unit Bool) :=
  [.loadImage true 1 [()], .snapshot true 1, .process true [⟨1, 0⟩], .finish true fun _ _ => 5]

end AccessLimit

end Pebil

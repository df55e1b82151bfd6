import Mathlib.Data.Finset.Union
import Mathlib.Data.Nat.Bitwise
import Pebil.Runtime.DynamicPoints

/-!
# Sampling (instcode/Simulation.cpp:184–213, 271–428, 1284–1306)

The sampler alternates between phases: while it samples, the points that record memory
addresses are enabled. `process_thread_buffer` has three sections under the lock: it reads
whether the sampler samples, it simulates the buffer, and it advances the sampler, switching
the points if the phase changes. Which way to switch them it decides by what it read in the
first section; other threads and image loads come between the sections.

`InStep` says that this does no harm: the phase is the one that was read, or it does not
change. A run whose steps are all in step keeps the points as the sampler wants them
(`synced_run`).
-/

namespace Pebil

/-! ## Keys -/

/-- `PointTypes`. -/
inductive PointType where
  | undefined
  | blockcount
  | buffercheck
  | bufferinc
  | bufferfill
  deriving DecidableEq, Repr

/-- The number of a point type. -/
def PointType.number : PointType → Nat
  | undefined => 0
  | blockcount => 1
  | buffercheck => 2
  | bufferinc => 3
  | bufferfill => 4

/-- `GENERATE_KEY`. -/
def generateKey (blockId : Nat) (typ : PointType) : Nat := typ.number &&& 0xf ||| blockId <<< 4

/-- `GET_BLOCKID`. -/
def getBlockId (key : Nat) : Nat := key >>> 4

/-- `GET_TYPE`. -/
def getType (key : Nat) : Nat := key &&& 0xf

theorem generateKey_eq (blockId : Nat) (typ : PointType) :
    generateKey blockId typ = 16 * blockId + typ.number := by
  have hlt : typ.number < 2 ^ 4 := by cases typ <;> decide
  have hmask : typ.number &&& 0xf = typ.number := by cases typ <;> rfl
  rw [generateKey, hmask, Nat.or_comm, ← Nat.shiftLeft_add_eq_or_of_lt hlt, Nat.shiftLeft_eq]
  omega

theorem getType_eq (key : Nat) : getType key = key % 16 := Nat.and_two_pow_sub_one_eq_mod key 4

@[simp] theorem getType_generateKey (blockId : Nat) (typ : PointType) :
    getType (generateKey blockId typ) = typ.number := by
  have hlt : typ.number < 16 := by cases typ <;> decide
  rw [getType_eq, generateKey_eq, Nat.mul_add_mod, Nat.mod_eq_of_lt hlt]

/-- A key is made of its block and its type. -/
theorem generateKey_getBlockId {key : Nat} (typ : PointType) (h : getType key = typ.number) :
    generateKey (getBlockId key) typ = key := by
  rw [getType_eq] at h
  rw [generateKey_eq, getBlockId, Nat.shiftRight_eq_div_pow, ← h]
  exact Nat.div_add_mod key 16

/-! ## The sampler -/

/-- `SamplingMethod`. -/
structure SamplingMethod where
  accessLimit : Nat
  sampleOn : Nat
  sampleOff : Nat
  accessCount : Nat
  deriving DecidableEq, Repr

namespace SamplingMethod

variable (s : SamplingMethod)

/-- `CurrentlySampling(count)`, where its division is possible. -/
def currentlySampling (count : Nat) : Bool :=
  let periodLength := (s.sampleOn + s.sampleOff) % 2 ^ 32
  if s.sampleOn = 0 then false
  else decide (periodLength = 0) ||
    decide ((s.accessCount + count) % 2 ^ 64 % periodLength < s.sampleOn)

/-- `SwitchesMode`. -/
def switchesMode (count : Nat) : Bool := s.currentlySampling 0 != s.currentlySampling count

/-- `ExceedsAccessLimit`. -/
def exceedsAccessLimit (count : Nat) : Bool :=
  decide (0 < s.accessLimit) && decide (s.accessLimit < count)

/-- `IncrementAccessCount`. -/
def incrementAccessCount (count : Nat) : SamplingMethod :=
  { s with accessCount := (s.accessCount + count) % 2 ^ 64 }

/-- The phase that `SwitchesMode` looks ahead to is the one that follows. -/
theorem currentlySampling_incrementAccessCount (count : Nat) :
    (s.incrementAccessCount count).currentlySampling 0 = s.currentlySampling count := by
  have hcount : ((s.accessCount + count) % 2 ^ 64 + 0) % 2 ^ 64 = (s.accessCount + count) % 2 ^ 64 :=
    Nat.mod_mod ..
  unfold currentlySampling incrementAccessCount
  simp only [hcount]

end SamplingMethod

/-! ## The sections -/

/-- How far a call of `process_thread_buffer` is: what it read in the first section, and the
number of entries in its buffer. -/
inductive CallPhase where
  | idle
  | read (isSampling : Bool) (numElements : Nat)
  | processed (isSampling : Bool) (numElements : Nat)
  deriving DecidableEq, Repr

/-- The shared state, and where each thread is. `images` is `AllData->allimages`; `maxedOut`
records the keys that ever left `NonmaxKeys` because their blocks exceeded the limit. -/
structure SamplingState (ι τ : Type*) where
  sampler : SamplingMethod
  points : DynamicState ι
  nonmaxKeys : Finset Nat
  images : Finset Nat
  maxedOut : Finset Nat
  threads : τ → CallPhase

/-- The steps of a run: the three sections of a call, and an image load. A reference of the
last section is a slot of the buffer: the index of its block in the keys, and the count of the
block. -/
inductive SamplingAct (ι τ : Type*) where
  | snapshot (t : τ) (numElements : Nat)
  | process (t : τ)
  | finish (t : τ) (references : List (Nat × Nat))
  | loadImage (key : Nat) (dyn : List ι)

/-- `MemsRemoved`, and `NonmaxKeys` without the keys removed so far. -/
structure Removal where
  memsRemoved : Finset Nat
  nonmaxKeys : Finset Nat

/-- The body of the loop over the references: a block beyond the limit loses its points. -/
def removeReference (sampler : SamplingMethod) (r : Removal) (reference : Nat × Nat) : Removal :=
  let k1 := generateKey reference.1 .buffercheck
  let k2 := generateKey reference.1 .bufferinc
  let k3 := generateKey reference.1 .bufferfill
  if sampler.exceedsAccessLimit reference.2 = true ∧ k3 ∈ r.nonmaxKeys then
    { memsRemoved := insert k3 (insert k2 (insert k1 r.memsRemoved))
      nonmaxKeys := r.nonmaxKeys.erase k3 }
  else r

namespace SamplingState

variable {ι τ : Type*} [DecidableEq ι]

/-- The loop over the references, and the points it disables. -/
def removeMaxedOut (st : SamplingState ι τ) (references : List (Nat × Nat)) :
    SamplingState ι τ :=
  let r := references.foldl (removeReference st.sampler) ⟨∅, st.nonmaxKeys⟩
  { st with
    points := if r.memsRemoved = ∅ then st.points
      else st.points.setDynamicPoints r.memsRemoved false
    nonmaxKeys := r.nonmaxKeys
    maxedOut := st.maxedOut ∪ st.nonmaxKeys \ r.nonmaxKeys }

/-- The switch of the points, if the phase changes. -/
def switchPoints (st : SamplingState ι τ) (numElements : Nat) (state : Bool) :
    SamplingState ι τ :=
  if st.sampler.switchesMode numElements then
    { st with points := st.points.setDynamicPoints st.nonmaxKeys state }
  else st

/-- The third section. -/
def finishCall (st : SamplingState ι τ) (isSampling : Bool) (numElements : Nat)
    (references : List (Nat × Nat)) : SamplingState ι τ :=
  let st' := if isSampling then (st.removeMaxedOut references).switchPoints numElements false
    else st.switchPoints numElements true
  { st' with sampler := st'.sampler.incrementAccessCount numElements }

/-- `GetAllDynamicKeys`. -/
def getAllDynamicKeys (points : DynamicState ι) : Finset Nat :=
  (points.dynamics.map fun entry => entry.1).toFinset

/-- All points of the blocks of some keys. -/
def allSimPoints (keys : Finset Nat) : Finset Nat :=
  keys.biUnion fun k =>
    {generateKey (getBlockId k) .buffercheck, generateKey (getBlockId k) .bufferinc,
      generateKey (getBlockId k) .bufferfill}

/-- `tool_dynamic_init` and `tool_image_init`. -/
def loadImage (st : SamplingState ι τ) (key : Nat) (dyn : List ι) : SamplingState ι τ :=
  let points := (st.points.initializeDynamicInstrumentation dyn).setDynamicPoints {key} false
  let images := insert key st.images
  let nonmaxKeys := st.nonmaxKeys ∪ (getAllDynamicKeys points).filter fun k =>
    getType k = PointType.bufferfill.number ∧ k ∉ images
  if st.sampler.sampleOn = 0 then
    { st with
      points := points.setDynamicPoints (allSimPoints nonmaxKeys) false
      images := images
      nonmaxKeys := ∅ }
  else { st with points := points, images := images, nonmaxKeys := nonmaxKeys }

/-- One step. A section is entered by a thread that has left the one before; the points of an
image are enabled in its file. -/
def step [DecidableEq τ] (st : SamplingState ι τ) : SamplingAct ι τ → Option (SamplingState ι τ)
  | .snapshot t numElements =>
    match st.threads t with
    | .idle =>
      if st.nonmaxKeys = ∅ then some st
      else
        let isSampling := st.sampler.currentlySampling 0
        some { st with threads := Function.update st.threads t (.read isSampling numElements) }
    | _ => none
  | .process t =>
    match st.threads t with
    | .read isSampling numElements =>
      some { st with
        threads := Function.update st.threads t (.processed isSampling numElements) }
    | _ => none
  | .finish t references =>
    match st.threads t with
    | .processed isSampling numElements =>
      some { st.finishCall isSampling numElements references with
        threads := Function.update st.threads t .idle }
    | _ => none
  | .loadImage key dyn =>
    if dyn.all fun d => (st.points.insts d).isEnabled then some (st.loadImage key dyn) else none

/-- A run. -/
def run [DecidableEq τ] (st : SamplingState ι τ) (acts : List (SamplingAct ι τ)) : Option (SamplingState ι τ) :=
  acts.foldlM step st

/-- Before any image is loaded. -/
def initial (sampler : SamplingMethod) (memory : ByteMemory) (insts : ι → DynamicInst) :
    SamplingState ι τ where
  sampler := sampler
  points := ⟨memory, insts, []⟩
  nonmaxKeys := ∅
  images := ∅
  maxedOut := ∅
  threads _ := .idle

/-- The points that record memory addresses: of the loaded images, with a key that is no
image's and did not max out. -/
structure MemoryPoint (st : SamplingState ι τ) (d : ι) : Prop where
  loaded : d ∈ st.points.selected {(st.points.insts d).key}
  fill : getType (st.points.insts d).key = PointType.bufferfill.number
  noImage : (st.points.insts d).key ∉ st.images
  notMaxedOut : (st.points.insts d).key ∉ st.maxedOut

/-- The memory points are enabled exactly while the sampler samples. -/
def Synced (st : SamplingState ι τ) : Prop :=
  ∀ d, st.MemoryPoint d → (st.points.insts d).isEnabled = st.sampler.currentlySampling 0

/-- The step does not act on a phase that has passed: a call finishes in the phase it read, or
in one that goes on; an image with memory points is loaded while the sampler samples, or when
it never does. -/
def InStep (st : SamplingState ι τ) : SamplingAct ι τ → Prop
  | .snapshot _ _ => True
  | .process _ => True
  | .finish t _ => ∀ isSampling numElements, st.threads t = .processed isSampling numElements →
      isSampling = st.sampler.currentlySampling 0 ∨ st.sampler.switchesMode numElements = false
  | .loadImage key dyn => st.sampler.sampleOn = 0 ∨ st.sampler.currentlySampling 0 = true ∨
      ∀ d ∈ dyn, getType (st.points.insts d).key = PointType.bufferfill.number →
        (st.points.insts d).key ∈ insert key st.images ∨ (st.points.insts d).key ∈ st.maxedOut

/-- Every step of a run is in step. -/
def AllInStep [DecidableEq τ] : SamplingState ι τ → List (SamplingAct ι τ) → Prop
  | _, [] => True
  | st, act :: acts => st.InStep act ∧ ∀ st', st.step act = some st' → AllInStep st' acts

/-! ## What the sections keep -/

/-- The invariant: the points are synchronised, and while there are phases to switch every
memory point is in `NonmaxKeys`. -/
structure SyncInv (st : SamplingState ι τ) : Prop where
  keyed : st.points.Keyed
  listed : st.sampler.sampleOn ≠ 0 → ∀ d, st.MemoryPoint d →
    (st.points.insts d).key ∈ st.nonmaxKeys
  synced : st.Synced

variable {st : SamplingState ι τ} {numElements : Nat} {references : List (Nat × Nat)}

/-- What the removal takes out: fill keys that leave `NonmaxKeys`, and keys of other types. -/
theorem foldl_removeReference (references : List (Nat × Nat)) (sampler : SamplingMethod)
    (r : Removal) :
    ((references.foldl (removeReference sampler) r).nonmaxKeys ⊆ r.nonmaxKeys) ∧
      ∀ k ∈ (references.foldl (removeReference sampler) r).memsRemoved,
        getType k = PointType.bufferfill.number → k ∈ r.memsRemoved ∨
          (k ∈ r.nonmaxKeys ∧ k ∉ (references.foldl (removeReference sampler) r).nonmaxKeys) := by
  induction references generalizing r with
  | nil => exact ⟨Finset.Subset.refl _, fun k hk _ => .inl hk⟩
  | cons reference references ih =>
    obtain ⟨hsub, hremoved⟩ := ih (removeReference sampler r reference)
    rw [List.foldl_cons]
    have hstep : (removeReference sampler r reference).nonmaxKeys ⊆ r.nonmaxKeys := by
      unfold removeReference
      simp only
      split
      · exact Finset.erase_subset ..
      · exact Finset.Subset.refl _
    refine ⟨hsub.trans hstep, fun k hk hfill => ?_⟩
    rcases hremoved k hk hfill with hnew | ⟨hin, hout⟩
    · unfold removeReference at hnew
      simp only at hnew
      split at hnew
      · rename_i hexceeds
        simp only [Finset.mem_insert] at hnew
        rcases hnew with rfl | rfl | rfl | hold
        · refine .inr ⟨hexceeds.2, fun hmem => ?_⟩
          have herased := hsub hmem
          unfold removeReference at herased
          simp only [if_pos hexceeds, Finset.mem_erase, ne_eq, not_true, false_and] at herased
        · simp [PointType.number] at hfill
        · simp [PointType.number] at hfill
        · exact .inl hold
      · exact .inl hnew
    · exact .inr ⟨hstep hin, hout⟩

@[simp] theorem removeMaxedOut_sampler : (st.removeMaxedOut references).sampler = st.sampler := rfl

@[simp] theorem removeMaxedOut_dynamics :
    (st.removeMaxedOut references).points.dynamics = st.points.dynamics := by
  unfold SamplingState.removeMaxedOut
  simp only
  split <;> simp

@[simp] theorem removeMaxedOut_key {d : ι} :
    ((st.removeMaxedOut references).points.insts d).key = (st.points.insts d).key := by
  unfold SamplingState.removeMaxedOut
  simp only
  split <;> simp

/-- Maxed-out blocks lose their points and are memory points no longer; the others are left
as they are. -/
theorem SyncInv.removeMaxedOut (h : st.SyncInv) : (st.removeMaxedOut references).SyncInv := by
  obtain ⟨hsub, hremoved⟩ := foldl_removeReference references st.sampler
    ⟨∅, st.nonmaxKeys⟩
  have hselected : ∀ keys, (st.removeMaxedOut references).points.selected keys =
      st.points.selected keys := by
    intro keys
    unfold DynamicState.selected
    rw [removeMaxedOut_dynamics]
  have hold : ∀ d, (st.removeMaxedOut references).MemoryPoint d → st.MemoryPoint d := by
    rintro d ⟨hloaded, hfill, hnoImage, hnotMaxed⟩
    rw [removeMaxedOut_key] at hloaded hfill hnoImage hnotMaxed
    rw [hselected] at hloaded
    exact ⟨hloaded, hfill, hnoImage, fun hmem => hnotMaxed (Finset.mem_union_left _ hmem)⟩
  have hstays : ∀ d, (st.removeMaxedOut references).MemoryPoint d →
      (st.points.insts d).key ∈ st.nonmaxKeys →
      (st.points.insts d).key ∈ (st.removeMaxedOut references).nonmaxKeys := by
    intro d hd hmem
    by_contra hout
    have hnotMaxed := hd.notMaxedOut
    rw [removeMaxedOut_key] at hnotMaxed
    exact hnotMaxed (Finset.mem_union_right _ (Finset.mem_sdiff.mpr ⟨hmem, hout⟩))
  constructor
  case keyed =>
    unfold SamplingState.removeMaxedOut
    simp only
    split
    · exact h.keyed
    · exact h.keyed.setDynamicPoints
  case listed =>
    intro hon d hd
    rw [removeMaxedOut_key]
    exact hstays d hd (h.listed hon d (hold d hd))
  case synced =>
    intro d hd
    have hbefore := h.synced d (hold d hd)
    rw [removeMaxedOut_sampler, ← hbefore]
    unfold SamplingState.removeMaxedOut
    simp only
    split
    · rfl
    · rw [DynamicState.isEnabled_setDynamicPoints, if_neg]
      intro hsel
      have hk := (h.keyed.mem_selected_iff.mp hsel).2
      rcases hremoved _ hk (hold d hd).fill with hempty | ⟨hin, hout⟩
      · exact absurd hempty (Finset.notMem_empty _)
      · exact hout (hstays d hd hin)

/-- The switch brings the memory points to `state` when the phase changes. -/
theorem SyncInv.switchPoints (h : st.SyncInv) (state : Bool)
    (hstate : st.sampler.switchesMode numElements = true →
      state = st.sampler.currentlySampling numElements) :
    SyncInv { st.switchPoints numElements state with
      sampler := (st.switchPoints numElements state).sampler.incrementAccessCount numElements } := by
  unfold SamplingState.switchPoints
  split
  · rename_i hswitch
    have hon : st.sampler.sampleOn ≠ 0 := by
      intro hzero
      simp [SamplingMethod.switchesMode, SamplingMethod.currentlySampling, hzero] at hswitch
    have hold : ∀ d, SamplingState.MemoryPoint { st with
        points := st.points.setDynamicPoints st.nonmaxKeys state
        sampler := st.sampler.incrementAccessCount numElements } d → st.MemoryPoint d := by
      rintro d ⟨hloaded, hfill, hnoImage, hnotMaxed⟩
      simp only [DynamicState.setDynamicPoints_key, DynamicState.setDynamicPoints_selected]
        at hloaded hfill hnoImage hnotMaxed
      exact ⟨hloaded, hfill, hnoImage, hnotMaxed⟩
    constructor
    case keyed => exact h.keyed.setDynamicPoints
    case listed =>
      intro _ d hd
      simp only [DynamicState.setDynamicPoints_key]
      exact h.listed hon d (hold d hd)
    case synced =>
      intro d hd
      have hpoint := hold d hd
      simp only [SamplingMethod.currentlySampling_incrementAccessCount,
        DynamicState.isEnabled_setDynamicPoints]
      rw [if_pos (h.keyed.mem_selected_iff.mpr ⟨hpoint.loaded, h.listed hon d hpoint⟩)]
      exact hstate hswitch
  · rename_i hswitch
    have hsame : st.sampler.currentlySampling numElements = st.sampler.currentlySampling 0 := by
      simp only [SamplingMethod.switchesMode, bne_iff_ne, ne_eq, not_not] at hswitch
      exact hswitch.symm
    have hold : ∀ d, SamplingState.MemoryPoint { st with
        sampler := st.sampler.incrementAccessCount numElements } d → st.MemoryPoint d :=
      fun d hd => ⟨hd.loaded, hd.fill, hd.noImage, hd.notMaxedOut⟩
    constructor
    case keyed => exact h.keyed
    case listed => exact fun hon d hd => h.listed hon d (hold d hd)
    case synced =>
      intro d hd
      show _ = (st.sampler.incrementAccessCount numElements).currentlySampling 0
      rw [SamplingMethod.currentlySampling_incrementAccessCount, hsame]
      exact h.synced d (hold d hd)

/-- The third section keeps the invariant when it is in step. -/
theorem SyncInv.finishCall (h : st.SyncInv) {isSampling : Bool}
    (hstep : isSampling = st.sampler.currentlySampling 0 ∨
      st.sampler.switchesMode numElements = false) :
    (st.finishCall isSampling numElements references).SyncInv := by
  have hstate : st.sampler.switchesMode numElements = true →
      (!isSampling) = st.sampler.currentlySampling numElements := by
    intro hswitch
    rcases hstep with hread | hnone
    · simp only [SamplingMethod.switchesMode, ← hread, bne_iff_ne] at hswitch
      cases isSampling <;> cases hnow : st.sampler.currentlySampling numElements <;> simp_all
    · rw [hnone] at hswitch
      cases hswitch
  unfold SamplingState.finishCall
  cases isSampling with
  | true =>
    simp only [if_true]
    exact h.removeMaxedOut.switchPoints false hstate
  | false =>
    simp only [Bool.false_eq_true, if_false]
    exact h.switchPoints true hstate

omit [DecidableEq ι] in
theorem mem_getAllDynamicKeys {points : DynamicState ι} {d : ι} {k : Nat}
    (h : d ∈ points.selected {k}) : k ∈ getAllDynamicKeys points := by
  obtain ⟨k', hk', entry, hentry, hkey, -⟩ := DynamicState.mem_selected.mp h
  rw [Finset.mem_singleton.mp hk'] at hkey
  rw [getAllDynamicKeys, List.mem_toFinset]
  exact List.mem_map.mpr ⟨entry, hentry, hkey⟩

/-- A new image in step keeps the invariant: its points are enabled, as the phase asks, or
all points are disabled for good. -/
theorem SyncInv.loadImage (h : st.SyncInv) {key : Nat} {dyn : List ι}
    (hstep : st.InStep (τ := τ) (.loadImage key dyn)) : (st.loadImage key dyn).SyncInv := by
  have hkeyed := h.keyed.initialize dyn
  -- a point with a fill key that is no image's is listed
  have hlisted : ∀ d, d ∈ (st.points.initializeDynamicInstrumentation dyn).selected
      {(st.points.insts d).key} → getType (st.points.insts d).key = PointType.bufferfill.number →
      (st.points.insts d).key ∉ insert key st.images → (st.points.insts d).key ∈
        st.nonmaxKeys ∪ (getAllDynamicKeys ((st.points.initializeDynamicInstrumentation
          dyn).setDynamicPoints {key} false)).filter fun k =>
            getType k = PointType.bufferfill.number ∧ k ∉ insert key st.images := by
    intro d hloaded hfill hnoImage
    refine Finset.mem_union_right _ (Finset.mem_filter.mpr ⟨?_, hfill, hnoImage⟩)
    exact mem_getAllDynamicKeys (d := d) (by rwa [DynamicState.setDynamicPoints_selected])
  unfold SamplingState.loadImage
  simp only
  split
  · rename_i hzero
    constructor
    case keyed => exact hkeyed.setDynamicPoints.setDynamicPoints
    case listed => exact fun hon => absurd hzero hon
    case synced =>
      rintro d ⟨hloaded, hfill, hnoImage, -⟩
      simp only [DynamicState.setDynamicPoints_key, DynamicState.setDynamicPoints_selected]
        at hloaded hfill hnoImage
      have hoff : st.sampler.currentlySampling 0 = false := by
        simp only [SamplingMethod.currentlySampling, hzero, if_true]
      simp only [hoff, DynamicState.isEnabled_setDynamicPoints]
      rw [if_pos]
      rw [DynamicState.setDynamicPoints_selected]
      refine hkeyed.mem_selected_iff.mpr ⟨hloaded, ?_⟩
      refine Finset.mem_biUnion.mpr ⟨_, hlisted d hloaded hfill hnoImage, ?_⟩
      have hsame := generateKey_getBlockId .bufferfill hfill
      simp only [Finset.mem_insert, Finset.mem_singleton]
      exact .inr (.inr hsame.symm)
  · rename_i hon
    constructor
    case keyed => exact hkeyed.setDynamicPoints
    case listed =>
      rintro - d ⟨hloaded, hfill, hnoImage, -⟩
      simp only [DynamicState.setDynamicPoints_key, DynamicState.setDynamicPoints_selected]
        at hloaded hfill hnoImage ⊢
      exact hlisted d hloaded hfill hnoImage
    case synced =>
      rintro d ⟨hloaded, hfill, hnoImage, hnotMaxed⟩
      simp only [DynamicState.setDynamicPoints_key, DynamicState.setDynamicPoints_selected]
        at hloaded hfill hnoImage hnotMaxed
      have hne : (st.points.insts d).key ≠ key := fun heq => hnoImage (by
        show (st.points.insts d).key ∈ insert key st.images
        rw [heq]
        exact Finset.mem_insert_self ..)
      simp only [DynamicState.isEnabled_setDynamicPoints]
      rw [if_neg fun hsel => hne (Finset.mem_singleton.mp (hkeyed.mem_selected_iff.mp hsel).2)]
      rcases DynamicState.mem_selected_initialize.mp hloaded with hbefore | ⟨hmem, henabled, -⟩
      · exact h.synced d ⟨hbefore, hfill, fun hmem => hnoImage (Finset.mem_insert_of_mem hmem),
          hnotMaxed⟩
      · show (st.points.insts d).isEnabled = st.sampler.currentlySampling 0
        rcases hstep with hzero | hsampling | hnone
        · exact absurd hzero hon
        · rw [henabled, hsampling]
        · rcases hnone d hmem hfill with himage | hmaxed
          · exact absurd himage hnoImage
          · exact absurd hmaxed hnotMaxed

/-! ## Runs -/

section Runs

variable [DecidableEq τ]

omit [DecidableEq ι] [DecidableEq τ] in
/-- Where the threads are does not matter to the points. -/
theorem SyncInv.threads (h : st.SyncInv) (threads : τ → CallPhase) :
    SyncInv { st with threads := threads } where
  keyed := h.keyed
  listed hon d hd := h.listed hon d ⟨hd.loaded, hd.fill, hd.noImage, hd.notMaxedOut⟩
  synced d hd := h.synced d ⟨hd.loaded, hd.fill, hd.noImage, hd.notMaxedOut⟩

/-- A step in step keeps the invariant. -/
theorem SyncInv.step {act : SamplingAct ι τ} {st' : SamplingState ι τ} (h : st.SyncInv)
    (hin : st.InStep act) (hstep : st.step act = some st') : st'.SyncInv := by
  cases act with
  | snapshot t numElements =>
    simp only [SamplingState.step] at hstep
    split at hstep
    · split at hstep
      · obtain rfl := Option.some.inj hstep
        exact h
      · obtain rfl := Option.some.inj hstep
        exact h.threads _
    · cases hstep
  | process t =>
    simp only [SamplingState.step] at hstep
    split at hstep
    · obtain rfl := Option.some.inj hstep
      exact h.threads _
    · cases hstep
  | finish t references =>
    simp only [SamplingState.step] at hstep
    split at hstep
    · rename_i isSampling numElements hphase
      obtain rfl := Option.some.inj hstep
      exact (h.finishCall (hin isSampling numElements hphase)).threads _
    · cases hstep
  | loadImage key dyn =>
    simp only [SamplingState.step] at hstep
    split at hstep
    · obtain rfl := Option.some.inj hstep
      exact h.loadImage hin
    · cases hstep

theorem SyncInv.run {acts : List (SamplingAct ι τ)} {st' : SamplingState ι τ} (h : st.SyncInv)
    (hin : st.AllInStep acts) (hrun : st.run acts = some st') : st'.SyncInv := by
  induction acts generalizing st with
  | nil =>
    obtain rfl := Option.some.inj hrun
    exact h
  | cons act acts ih =>
    unfold SamplingState.run at hrun
    rw [List.foldlM_cons] at hrun
    obtain ⟨next, hnext, hrest⟩ := Option.bind_eq_some_iff.mp hrun
    exact ih (h.step hin.1 hnext) (hin.2 next hnext) hrest

omit [DecidableEq ι] [DecidableEq τ] in
theorem syncInv_initial (sampler : SamplingMethod) (memory : ByteMemory)
    (insts : ι → DynamicInst) : (initial (τ := τ) sampler memory insts).SyncInv where
  keyed := by
    intro k d hd
    exact absurd hd List.not_mem_nil
  listed := fun _ d hd => absurd hd.loaded List.not_mem_nil
  synced := fun d hd => absurd hd.loaded List.not_mem_nil

/-- For any number of threads and images, and any interleaving of their sections and loads:
when every step is in step, the memory points are enabled exactly while the sampler samples. -/
theorem synced_run (sampler : SamplingMethod) (memory : ByteMemory) (insts : ι → DynamicInst)
    (acts : List (SamplingAct ι τ)) (st : SamplingState ι τ)
    (hrun : (initial sampler memory insts).run acts = some st)
    (hin : (initial (τ := τ) sampler memory insts).AllInStep acts) : st.Synced :=
  ((syncInv_initial sampler memory insts).run hin hrun).synced

end Runs

/-- The sampler of the runs below samples every other access; their image has one point, for
the memory operations of block 1. -/
def everyOther : SamplingMethod := ⟨0, 1, 1, 0⟩

def onePoint : Unit → DynamicInst := fun _ =>
  { virtualAddress := 0, key := generateKey 1 .bufferfill, size := 5, oppContent := fun _ => 0x90
    isEnabled := true }

/-- One thread, and one call that ends the phase. -/
def oneCall : List (SamplingAct Unit Bool) :=
  [.loadImage 1 [()], .snapshot true 1, .process true, .finish true [(1, 1)]]

theorem synced_run_oneCall :
    ∃ st, (initial everyOther (fun _ => 0xe9) onePoint).run oneCall = some st ∧ st.Synced := by
  refine ⟨_, rfl, synced_run everyOther (fun _ => 0xe9) onePoint oneCall _ rfl ?_⟩
  refine ⟨.inr (.inl (by decide)), fun st₁ h₁ => ⟨trivial, fun st₂ h₂ => ⟨trivial, fun st₃ h₃ =>
    ⟨?_, fun _ _ => trivial⟩⟩⟩⟩
  obtain rfl := Option.some.inj h₁
  obtain rfl := Option.some.inj h₂
  obtain rfl := Option.some.inj h₃
  intro isSampling numElements hphase
  have hread : CallPhase.processed true 1 = .processed isSampling numElements := hphase
  obtain ⟨rfl, -⟩ := CallPhase.processed.inj hread
  exact .inl (by decide)

/-- Two threads read that the sampler samples. The first ends the phase and disables the
points; the second begins the next one, and disables them again. -/
theorem not_synced_twoThreads :
    ¬ ∀ (sampler : SamplingMethod) (memory : ByteMemory) (insts : Unit → DynamicInst)
      (acts : List (SamplingAct Unit Bool)) (st : SamplingState Unit Bool),
        (initial sampler memory insts).run acts = some st → st.Synced := by
  intro h
  have hsynced := h everyOther (fun _ => 0xe9) onePoint
    [.loadImage 1 [()], .snapshot false 1, .snapshot true 1, .process false, .process true,
      .finish false [], .finish true []] _ rfl () ⟨by decide, by decide, by decide, by decide⟩
  exact absurd hsynced (by decide)

end SamplingState

end Pebil

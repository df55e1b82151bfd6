import Pebil.Elf.NextAlign
import Pebil.Lib.Loop
import Mathlib.Data.List.Basic

/-!
# Reserving instrumentation data (src/ElfFileInst.C:212–232, 350–363, 825–838)

`reserveDataOffset` hands out the next free offset of the data section, and extends its buffer
until the offset behind the reserved bytes lies in it. `extendDataSection` is given the missing
bytes as a `uint32_t`, and keeps the extension in one.

A reservation is right as long as the offset behind it is below 4 GiB, and a first reservation does
not end within the last 256 KiB of these (`ReserveOk`): `nextAlignAddress` drops the high half of
an offset, and an extension that is rounded up to 4 GiB is 0.

The phases that the assertions are about, and what `verify` reports, are left out.
-/

namespace Pebil

/-- `DATA_EXTENSION_INC`. -/
def dataExtensionInc : BitVec 32 := 0x40000

/-- `ElfFileInst`: the data of the instrumentation. -/
structure InstrumentationData where
  usableDataOffset : BitVec 64
  instrumentationData : Option (List (BitVec 8))
  instrumentationDataSize : BitVec 64

namespace InstrumentationData

/-- The constructor: behind the storage for registers, no buffer. -/
def start : InstrumentationData where
  usableDataOffset := 8 * 16 + 0x1000
  instrumentationData := none
  instrumentationDataSize := 0

/-- `ext` of `extendDataSection`. -/
def extension (amt : BitVec 32) : Option (BitVec 32) :=
  if dataExtensionInc < amt then
    (nextAlignAddress (amt.setWidth 64) dataExtensionInc).map (·.setWidth 32)
  else some dataExtensionInc

/-- `extendDataSection`. None is a failed assertion. -/
def extendDataSection (amt : BitVec 32) (st : InstrumentationData) : Option InstrumentationData :=
  (extension amt).bind fun ext =>
    let zeros := List.replicate ext.toNat (0 : BitVec 8)
    let data :=
      if st.instrumentationDataSize ≠ 0 then
        st.instrumentationData.map fun d => d.take st.instrumentationDataSize.toNat ++ zeros
      else if st.instrumentationData.isNone then some zeros
      else none
    data.map fun d =>
      { st with
        instrumentationData := some d
        instrumentationDataSize := st.instrumentationDataSize + ext.setWidth 64 }

/-- One round of the loop of `reserveDataOffset`. -/
def growRound (nextOffset : BitVec 64) (st : InstrumentationData) :
    InstrumentationData ⊕ Option InstrumentationData :=
  if nextOffset ≥ st.instrumentationDataSize then
    match st.extendDataSection ((nextOffset - st.instrumentationDataSize).setWidth 32) with
    | some st' => .inl st'
    | none => .inr none
  else .inr (some st)

/-- `reserveDataOffset`: the offset. The inner option is none where an assertion fails. -/
def reserveDataOffset (fuel : Nat) (size : BitVec 64) (st : InstrumentationData) :
    Option (Option (BitVec 64 × InstrumentationData)) :=
  match nextAlignAddress (st.usableDataOffset + size) 8 with
  | none => some none
  | some nextOffset =>
    (loop (growRound nextOffset) fuel st).map fun grown => grown.bind fun st' =>
      if nextOffset < st'.instrumentationDataSize then
        some (st'.usableDataOffset, { st' with usableDataOffset := nextOffset })
      else none

/-- `initializeReservedData`, with the data at the address. None where the assertion fails, or the
bytes would not be copied into the buffer. -/
def initializeReservedData (base address : BitVec 64) (bytes : List (BitVec 8))
    (st : InstrumentationData) : Option InstrumentationData :=
  let last := address + BitVec.ofNat 64 bytes.length
  if last ≤ base + st.usableDataOffset ∧ address ≥ base then
    let offset := (address - base).toNat
    st.instrumentationData.bind fun d =>
      if offset + bytes.length ≤ d.length then
        some { st with
          instrumentationData := some (d.take offset ++ bytes ++ d.drop (offset + bytes.length)) }
      else none
  else none

/-- The reservation returns this offset. -/
def Reserves (st : InstrumentationData) (size offset : BitVec 64) (st' : InstrumentationData) :
    Prop :=
  ∃ N, ∀ fuel, N ≤ fuel → st.reserveDataOffset fuel size = some (some (offset, st'))

/-! ## Runs -/

/-- A memory after some bytes are written at an offset. -/
def writeBytes (mem : Nat → BitVec 8) (offset : Nat) (bytes : List (BitVec 8)) : Nat → BitVec 8 :=
  fun i => if h : offset ≤ i ∧ i - offset < bytes.length then bytes.get ⟨i - offset, h.2⟩ else mem i

/-- Reservations that meet the condition, and writes, from the start. With each state, the ranges
that have been returned, newest first, and what has been written last. -/
inductive Run (ok : InstrumentationData → BitVec 64 → Prop) (base : BitVec 64) :
    InstrumentationData → List (BitVec 64 × BitVec 64) → (Nat → BitVec 8) → Prop
  | start : Run ok base start [] fun _ => 0
  | reserve {st ranges mem size offset st'} : Run ok base st ranges mem → ok st size →
      st.Reserves size offset st' → Run ok base st' ((offset, size) :: ranges) mem
  | write {st ranges mem address bytes st'} : Run ok base st ranges mem →
      st.initializeReservedData base address bytes = some st' →
      Run ok base st' ranges (writeBytes mem (address - base).toNat bytes)

/-- What reservations promise. -/
structure ReservationsRight (ok : InstrumentationData → BitVec 64 → Prop)
    (st : InstrumentationData) (ranges : List (BitVec 64 × BitVec 64)) (mem : Nat → BitVec 8) :
    Prop where
  disjoint : ranges.Pairwise fun r r' =>
    r.1.toNat + r.2.toNat ≤ r'.1.toNat ∨ r'.1.toNat + r'.2.toNat ≤ r.1.toNat
  aligned : ∀ r ∈ ranges, 8 ∣ r.1.toNat
  below : ∀ r ∈ ranges, r.1.toNat + r.2.toNat < st.instrumentationDataSize.toNat
  kept : ∀ i, i < st.instrumentationDataSize.toNat →
    (st.instrumentationData.getD [])[i]? = some (mem i)
  ends : ∀ size, ok st size → ∃ offset st', st.Reserves size offset st'

/-- The bytes end below 4 GiB, and if there is no buffer yet not in the last extension of it. -/
def ReserveOk (st : InstrumentationData) (size : BitVec 64) : Prop :=
  let nextOffset := roundUp 8 (st.usableDataOffset.toNat + size.toNat)
  st.usableDataOffset.toNat + size.toNat < 2 ^ 32 ∧
    (st.instrumentationDataSize = 0 → nextOffset ≤ 2 ^ 32 - 0x40000 ∨ nextOffset = 2 ^ 32)

/-! ## Extending the buffer -/

/-- The extension of an amount that is not rounded up to 4 GiB. -/
theorem extension_spec {amt : BitVec 32} (h : amt.toNat ≤ 2 ^ 32 - 0x40000) :
    ∃ ext, extension amt = some ext ∧ 0x40000 ∣ ext.toNat ∧ 0 < ext.toNat ∧
      ext.toNat ≤ max 0x40000 (amt.toNat + 0x3ffff) := by
  unfold extension
  split
  next hlt =>
    have hamt : (amt.setWidth 64).toNat = amt.toNat := by
      rw [BitVec.toNat_setWidth, Nat.mod_eq_of_lt (by omega)]
    obtain ⟨r, hr, hround⟩ := @nextAlignAddress_spec (amt.setWidth 64) dataExtensionInc
      (.inr ⟨18, rfl⟩) (by omega)
    rw [hamt, show dataExtensionInc.toNat = 0x40000 from rfl] at hround
    have hdvd := dvd_roundUp (a := 0x40000) (by decide) amt.toNat
    have hle := le_roundUp 0x40000 amt.toNat
    have hmax := roundUp_le (a := 0x40000) (by decide) (by decide : 0x40000 ∣ 2 ^ 32 - 0x40000) h
    have hlt' : amt.toNat > 0x40000 := BitVec.lt_def.mp hlt
    have hnear : roundUp 0x40000 amt.toNat ≤ amt.toNat + 0x3ffff := by
      rw [roundUp_of_pos (by decide)]
      exact Nat.div_mul_le_self _ _
    refine ⟨r.setWidth 32, by rw [hr]; rfl, ?_⟩
    have hr32 : (r.setWidth 32).toNat = roundUp 0x40000 amt.toNat := by
      rw [BitVec.toNat_setWidth, hround, Nat.mod_eq_of_lt (by omega)]
    rw [hr32]
    exact ⟨hdvd, by omega, by omega⟩
  next => exact ⟨dataExtensionInc, rfl, by decide, by decide, Nat.le_max_left _ _⟩

/-- The buffer has its size, a multiple of the increment. -/
structure WellSized (st : InstrumentationData) : Prop where
  inc : 0x40000 ∣ st.instrumentationDataSize.toNat
  le : st.instrumentationDataSize.toNat ≤ 2 ^ 32 + 0x40000
  empty : st.instrumentationDataSize = 0 → st.instrumentationData = none
  full : st.instrumentationDataSize ≠ 0 →
    ∃ d, st.instrumentationData = some d ∧ d.length = st.instrumentationDataSize.toNat

/-- The bytes of the buffer. -/
def bytes (st : InstrumentationData) : List (BitVec 8) := st.instrumentationData.getD []

variable {st st' : InstrumentationData} {nextOffset size offset : BitVec 64}

theorem WellSized.length_bytes (h : st.WellSized) :
    st.bytes.length = st.instrumentationDataSize.toNat := by
  by_cases hzero : st.instrumentationDataSize = 0
  · rw [bytes, h.empty hzero, hzero]
    rfl
  · obtain ⟨d, hd, hlength⟩ := h.full hzero
    rw [bytes, hd, Option.getD_some, hlength]

/-- An extension puts zeros behind the buffer. -/
theorem extendDataSection_eq (h : st.WellSized) {amt ext : BitVec 32}
    (hext : extension amt = some ext) : st.extendDataSection amt =
      some { st with
        instrumentationData := some (st.bytes ++ List.replicate ext.toNat 0)
        instrumentationDataSize := st.instrumentationDataSize + ext.setWidth 64 } := by
  unfold extendDataSection
  rw [hext, Option.bind_some]
  dsimp only
  by_cases hzero : st.instrumentationDataSize = 0
  · rw [if_neg (not_not_intro hzero), bytes, h.empty hzero]
    rfl
  · obtain ⟨d, hd, hlength⟩ := h.full hzero
    rw [if_pos hzero, bytes, hd, Option.map_some, Option.getD_some, ← hlength, List.take_length]
    rfl

/-- The buffer of one state begins with that of another. -/
structure Extends (st st' : InstrumentationData) : Prop where
  usable : st'.usableDataOffset = st.usableDataOffset
  size : st.instrumentationDataSize.toNat ≤ st'.instrumentationDataSize.toNat
  zeros : ∃ k, st'.bytes = st.bytes ++ List.replicate k 0

theorem Extends.refl (st : InstrumentationData) : st.Extends st := ⟨rfl, Nat.le_refl _, 0, by simp⟩

theorem Extends.trans {st'' : InstrumentationData} (h : st.Extends st') (h' : st'.Extends st'') :
    st.Extends st'' := by
  obtain ⟨k, hk⟩ := h.zeros
  obtain ⟨k', hk'⟩ := h'.zeros
  refine ⟨h'.usable.trans h.usable, h.size.trans h'.size, k + k', ?_⟩
  rw [hk', hk, List.append_assoc, List.replicate_append_replicate]

/-- A round that finds the buffer too small extends it. -/
theorem extend_round (h : st.WellSized) (hnext : nextOffset.toNat ≤ 2 ^ 32)
    (hfirst : st.instrumentationDataSize = 0 →
      nextOffset.toNat ≤ 2 ^ 32 - 0x40000 ∨ nextOffset.toNat = 2 ^ 32)
    (hle : st.instrumentationDataSize.toNat ≤ nextOffset.toNat) :
    ∃ st', st.extendDataSection ((nextOffset - st.instrumentationDataSize).setWidth 32) = some st' ∧
      st'.WellSized ∧ st.Extends st' ∧
      st.instrumentationDataSize.toNat < st'.instrumentationDataSize.toNat := by
  have hinc := h.inc
  have hamt : ((nextOffset - st.instrumentationDataSize).setWidth 32).toNat =
      (nextOffset.toNat - st.instrumentationDataSize.toNat) % 2 ^ 32 := by
    rw [BitVec.toNat_setWidth, BitVec.toNat_sub_of_le (BitVec.le_def.mpr hle)]
  -- the missing bytes are not in the last extension below 4 GiB
  have hbound : ((nextOffset - st.instrumentationDataSize).setWidth 32).toNat ≤
      2 ^ 32 - 0x40000 := by
    rw [hamt]
    by_cases hzero : st.instrumentationDataSize = 0
    · have hsize : st.instrumentationDataSize.toNat = 0 := by rw [hzero]; rfl
      rcases hfirst hzero with hlow | hend <;> omega
    · have hpos : 0 < st.instrumentationDataSize.toNat := Nat.pos_of_ne_zero fun h0 =>
        hzero (BitVec.eq_of_toNat_eq h0)
      omega
  obtain ⟨ext, hext, hdvd, hpos, hmax⟩ := extension_spec hbound
  rw [hamt] at hmax
  have hsum : (st.instrumentationDataSize + ext.setWidth 64).toNat =
      st.instrumentationDataSize.toNat + ext.toNat := by
    have hle := h.le
    rw [BitVec.toNat_add, BitVec.toNat_setWidth]
    omega
  refine ⟨_, extendDataSection_eq h hext, ⟨?_, ?_, fun h0 => ?_, fun _ => ⟨_, rfl, ?_⟩⟩,
    ⟨rfl, ?_, ext.toNat, rfl⟩, ?_⟩
  · dsimp only
    rw [hsum]
    exact Nat.dvd_add hinc hdvd
  · dsimp only
    rw [hsum]
    omega
  · dsimp only at h0
    rw [h0] at hsum
    simp at hsum
    omega
  · rw [List.length_append, h.length_bytes, List.length_replicate]
    exact hsum.symm
  · dsimp only
    omega
  · dsimp only
    omega

/-- The loop ends, with a buffer that the offset lies in. -/
theorem grow_returns (h : st.WellSized) (hnext : nextOffset.toNat ≤ 2 ^ 32)
    (hfirst : st.instrumentationDataSize = 0 →
      nextOffset.toNat ≤ 2 ^ 32 - 0x40000 ∨ nextOffset.toNat = 2 ^ 32) :
    ∃ st', Returns (growRound nextOffset) st (some st') ∧ st'.WellSized ∧ st.Extends st' ∧
      nextOffset.toNat < st'.instrumentationDataSize.toNat := by
  have hround : ∀ s : InstrumentationData, s.WellSized ∧ st.Extends s →
      (∃ s', growRound nextOffset s = .inl s' ∧ (s'.WellSized ∧ st.Extends s') ∧
        2 ^ 33 - s'.instrumentationDataSize.toNat < 2 ^ 33 - s.instrumentationDataSize.toNat) ∨
      ∃ r, growRound nextOffset s = .inr r ∧ ∃ st', r = some st' ∧ st'.WellSized ∧
        st.Extends st' ∧ nextOffset.toNat < st'.instrumentationDataSize.toNat := by
    rintro s ⟨hs, hext⟩
    unfold growRound
    split
    next hge =>
      have hle := BitVec.le_def.mp hge
      have hfirst' : s.instrumentationDataSize = 0 →
          nextOffset.toNat ≤ 2 ^ 32 - 0x40000 ∨ nextOffset.toNat = 2 ^ 32 := fun h0 => by
        refine hfirst (BitVec.eq_of_toNat_eq ?_)
        have hsize := hext.size
        rw [h0] at hsize
        simpa using hsize
      obtain ⟨s', hs', hwell, hmore, hlt⟩ := extend_round hs hnext hfirst' hle
      have hbound := hwell.le
      exact .inl ⟨s', by rw [hs'], ⟨hwell, hext.trans hmore⟩, by omega⟩
    next hlt =>
      refine .inr ⟨_, rfl, s, rfl, hs, hext, ?_⟩
      exact Nat.lt_of_not_le fun hle => hlt (BitVec.le_def.mpr hle)
  obtain ⟨r, hr, st', rfl, hst'⟩ := loop_total _ _ _ hround ⟨h, .refl st⟩ (Nat.lt_succ_self _)
  exact ⟨st', returns_of_loop hr, hst'⟩

/-! ## What a reservation does -/

/-- The next offset of a reservation. -/
theorem nextOffset_spec (hok : st.ReserveOk size) :
    ∃ nextOffset, nextAlignAddress (st.usableDataOffset + size) 8 = some nextOffset ∧
      nextOffset.toNat = roundUp 8 (st.usableDataOffset.toNat + size.toNat) := by
  have hlow := hok.1
  have hsum : (st.usableDataOffset + size).toNat =
      st.usableDataOffset.toNat + size.toNat := by
    rw [BitVec.toNat_add, Nat.mod_eq_of_lt (by omega)]
  obtain ⟨r, hr, hround⟩ := @nextAlignAddress_spec (st.usableDataOffset + size) 8
    (.inr ⟨3, rfl⟩) (by omega)
  exact ⟨r, hr, by rw [hround, hsum]; rfl⟩

/-- A reservation that meets the condition returns the free offset, and the bytes behind it are
in the buffer, which begins as before. -/
theorem reserve_spec (h : st.WellSized) (hok : st.ReserveOk size) :
    ∃ st', st.Reserves size st.usableDataOffset st' ∧ st'.WellSized ∧
      (∃ k, st'.bytes = st.bytes ++ List.replicate k 0) ∧
      st'.usableDataOffset.toNat = roundUp 8 (st.usableDataOffset.toNat + size.toNat) ∧
      st'.usableDataOffset.toNat < st'.instrumentationDataSize.toNat := by
  obtain ⟨next, hnext, hvalue⟩ := nextOffset_spec hok
  have hmax := roundUp_le (a := 8) (by decide) (by decide : 8 ∣ 2 ^ 32) (Nat.le_of_lt hok.1)
  obtain ⟨st', ⟨N, hN⟩, hwell, hext, hlt⟩ := @grow_returns st next h (by omega)
    (by rw [hvalue]; exact hok.2)
  refine ⟨{ st' with usableDataOffset := next }, ⟨N, fun fuel hfuel => ?_⟩,
    ⟨hwell.inc, hwell.le, hwell.empty, hwell.full⟩, hext.zeros, hvalue, hlt⟩
  rw [reserveDataOffset, hnext]
  dsimp only
  rw [hN fuel hfuel, Option.map_some, Option.bind_some, if_pos (BitVec.lt_def.mpr hlt), hext.usable]

theorem Reserves.unique {offset' : BitVec 64} {st'' : InstrumentationData}
    (h : st.Reserves size offset st') (h' : st.Reserves size offset' st'') :
    offset' = offset ∧ st'' = st' := by
  obtain ⟨N, hN⟩ := h
  obtain ⟨N', hN'⟩ := h'
  have heq := (hN _ (Nat.le_max_left N N')).symm.trans (hN' _ (Nat.le_max_right N N'))
  simpa [eq_comm] using heq

/-! ## Whole runs -/

/-- What a run keeps. -/
structure Kept (st : InstrumentationData) (ranges : List (BitVec 64 × BitVec 64))
    (mem : Nat → BitVec 8) : Prop where
  sized : st.WellSized
  free : 8 ∣ st.usableDataOffset.toNat
  disjoint : ranges.Pairwise fun r r' => r'.1.toNat + r'.2.toNat ≤ r.1.toNat
  aligned : ∀ r ∈ ranges, 8 ∣ r.1.toNat
  used : ∀ r ∈ ranges, r.1.toNat + r.2.toNat ≤ st.usableDataOffset.toNat
  inside : ranges ≠ [] → st.usableDataOffset.toNat < st.instrumentationDataSize.toNat
  written : ∀ i, i < st.bytes.length → st.bytes[i]? = some (mem i)
  unwritten : ∀ i, st.bytes.length ≤ i → mem i = 0

variable {ranges : List (BitVec 64 × BitVec 64)} {mem : Nat → BitVec 8}

theorem Kept.start : start.Kept [] fun _ => 0 where
  sized := ⟨by decide, by decide, fun _ => rfl, fun h => absurd rfl h⟩
  free := by decide
  disjoint := .nil
  aligned := nofun
  used := nofun
  inside h := absurd rfl h
  written _ hi := absurd hi (Nat.not_lt_zero _)
  unwritten _ _ := rfl

theorem Kept.reserve (h : st.Kept ranges mem) (hok : st.ReserveOk size)
    (hres : st.Reserves size offset st') : st'.Kept ((offset, size) :: ranges) mem := by
  obtain ⟨_, hres', hsized, ⟨k, hk⟩, husable, hinside⟩ := reserve_spec h.sized hok
  obtain ⟨rfl, rfl⟩ := hres.unique hres'
  have hle := le_roundUp 8 (st.usableDataOffset.toNat + size.toNat)
  refine ⟨hsized, ?_, List.pairwise_cons.mpr ⟨h.used, h.disjoint⟩,
    List.forall_mem_cons.mpr ⟨h.free, h.aligned⟩, List.forall_mem_cons.mpr ⟨?_, fun r hr => ?_⟩,
    fun _ => hinside, fun i hi => ?_, fun i hi => ?_⟩
  · rw [husable]
    exact dvd_roundUp (by decide) _
  · dsimp only
    omega
  · have hused := h.used r hr
    omega
  · -- behind the old buffer are zeros, and nothing was written there
    rw [hk] at hi ⊢
    rw [List.length_append, List.length_replicate] at hi
    rcases Nat.lt_or_ge i st.bytes.length with hold | hnew
    · rw [List.getElem?_append_left hold]
      exact h.written i hold
    · rw [List.getElem?_append_right hnew, List.getElem?_replicate, if_pos (by omega),
        h.unwritten i hnew]
  · rw [hk, List.length_append] at hi
    exact h.unwritten i (by omega)

/-- What an accepted write does to the buffer. -/
theorem write_spec {base address : BitVec 64} {bs : List (BitVec 8)}
    (h : st.initializeReservedData base address bs = some st') :
    ∃ d, st.instrumentationData = some d ∧ (address - base).toNat + bs.length ≤ d.length ∧
      st' = { st with instrumentationData := some (d.take (address - base).toNat ++ bs ++
        d.drop ((address - base).toNat + bs.length)) } := by
  unfold initializeReservedData at h
  dsimp only at h
  split at h
  · obtain ⟨d, hd, h⟩ := Option.bind_eq_some_iff.mp h
    split at h
    next hin => exact ⟨d, hd, hin, (Option.some.inj h).symm⟩
    next => cases h
  · cases h

theorem getElem?_overwrite {d bs : List (BitVec 8)} {n i : Nat} (hn : n + bs.length ≤ d.length)
    (hwritten : ∀ i, i < d.length → d[i]? = some (mem i)) (hi : i < d.length) :
    (d.take n ++ bs ++ d.drop (n + bs.length))[i]? = some (writeBytes mem n bs i) := by
  have htake : (d.take n).length = n := List.length_take_of_le (by omega)
  unfold writeBytes
  rcases Nat.lt_or_ge i n with hbefore | hfrom
  · rw [List.append_assoc, List.getElem?_append_left (by omega), List.getElem?_take, if_pos hbefore,
      dif_neg (by omega)]
    exact hwritten i hi
  · rcases Nat.lt_or_ge i (n + bs.length) with hin | hbehind
    · rw [List.getElem?_append_left (by rw [List.length_append]; omega),
        List.getElem?_append_right (by omega), htake, dif_pos ⟨hfrom, by omega⟩]
      exact List.getElem?_eq_getElem _
    · rw [List.getElem?_append_right (by rw [List.length_append]; omega), List.length_append, htake,
        List.getElem?_drop, dif_neg (by omega), Nat.add_sub_cancel' hbehind]
      exact hwritten i hi

theorem Kept.write (h : st.Kept ranges mem) {base address : BitVec 64} {bs : List (BitVec 8)}
    (hinit : st.initializeReservedData base address bs = some st') :
    st'.Kept ranges (writeBytes mem (address - base).toNat bs) := by
  obtain ⟨d, hd, hin, rfl⟩ := write_spec hinit
  have hbytes : st.bytes = d := by rw [bytes, hd, Option.getD_some]
  have hlength := h.sized.length_bytes
  have hwritten := h.written
  have hunwritten := h.unwritten
  rw [hbytes] at hlength hwritten hunwritten
  have hsame : (d.take (address - base).toNat ++ bs ++
      d.drop ((address - base).toNat + bs.length)).length = d.length := by
    rw [List.length_append, List.length_append, List.length_take, List.length_drop]
    omega
  refine ⟨⟨h.sized.inc, h.sized.le, fun h0 => ?_, fun _ => ⟨_, rfl, hsame.trans hlength⟩⟩, h.free,
    h.disjoint, h.aligned, h.used, h.inside, fun i hi => ?_, fun i hi => ?_⟩
  · have hnone := h.sized.empty h0
    rw [hd] at hnone
    cases hnone
  · exact getElem?_overwrite hin hwritten (hsame ▸ hi)
  · have hi : d.length ≤ i := hsame ▸ hi
    rw [writeBytes, dif_neg (by omega)]
    exact hunwritten i hi

theorem Run.kept {base : BitVec 64} (h : Run ReserveOk base st ranges mem) : st.Kept ranges mem := by
  induction h with
  | start => exact .start
  | reserve _ hok hres ih => exact ih.reserve hok hres
  | write _ hinit ih => exact ih.write hinit

/-- **Data reservation.** In every state that reservations below 4 GiB and writes lead to. -/
theorem reservationsRight {base : BitVec 64} (h : Run ReserveOk base st ranges mem) :
    ReservationsRight ReserveOk st ranges mem := by
  have hkept := h.kept
  refine ⟨hkept.disjoint.imp .inr, hkept.aligned, fun r hr => ?_, fun i hi => ?_, fun size hok => ?_⟩
  · have hused := hkept.used r hr
    have hinside := hkept.inside (List.ne_nil_of_mem hr)
    omega
  · exact hkept.written i (by rw [hkept.sized.length_bytes]; exact hi)
  · obtain ⟨st', hres, -⟩ := reserve_spec hkept.sized hok
    exact ⟨_, st', hres⟩

/-- A counter of 8 bytes, behind the storage for registers. -/
theorem reservationsRight_counter : ∃ st', start.Reserves 8 0x1080 st' ∧
    ReservationsRight ReserveOk st' [(0x1080, 8)] fun _ => 0 := by
  have hok : start.ReserveOk 8 := ⟨by decide, fun _ => .inl (by decide)⟩
  obtain ⟨st', hres, -⟩ := reserve_spec Kept.start.sized hok
  exact ⟨st', hres, reservationsRight (.reserve (.start : Run _ 0 _ _ _) hok hres)⟩

/-- A reservation of 4 GiB leaves the next offset 8 bytes behind its own. -/
theorem reserves_fourGiB : ∃ st', start.Reserves (2 ^ 32) 0x1080 st' ∧
    st'.instrumentationDataSize = 0x40000 := by
  have hnext : nextAlignAddress (start.usableDataOffset + 2 ^ 32) 8 = some 0x1088 := by decide
  obtain ⟨st', hst', hsize, husable⟩ : ∃ st', start.extendDataSection 0x1088 = some st' ∧
      st'.instrumentationDataSize = 0x40000 ∧ st'.usableDataOffset = 0x1080 :=
    ⟨_, extendDataSection_eq Kept.start.sized (rfl : extension 0x1088 = some 0x40000), rfl, rfl⟩
  have hfirst : growRound 0x1088 start = .inl st' := by
    rw [growRound, if_pos (by decide)]
    exact hst' ▸ rfl
  have hlast : growRound 0x1088 st' = .inr (some st') := by
    rw [growRound, hsize]
    exact if_neg (by decide)
  obtain ⟨N, hN⟩ := (returns_inl hfirst).mpr (returns_of_loop (loop_inr hlast 0))
  refine ⟨{ st' with usableDataOffset := 0x1088 }, ⟨N, fun fuel hfuel => ?_⟩, hsize⟩
  rw [reserveDataOffset, hnext]
  dsimp only
  rw [hN fuel hfuel, Option.map_some, Option.bind_some, hsize, if_pos (by decide), husable]

/-- Its range ends far behind the buffer. -/
theorem not_reservationsRight : ¬∀ base st ranges mem, Run (fun _ _ => True) base st ranges mem →
    ReservationsRight (fun _ _ => True) st ranges mem := by
  intro h
  obtain ⟨st', hres, hsize⟩ := reserves_fourGiB
  have hright := h 0 st' _ _ (.reserve .start trivial hres)
  have hbelow := hright.below _ List.mem_cons_self
  rw [hsize] at hbelow
  exact absurd hbelow (by decide)

end InstrumentationData

end Pebil

import Pebil.Instrumentation.LoopIntercept
import Mathlib.Data.List.Perm.Subperm
import Mathlib.Data.List.Nodup

/-!
# When the table of loop sites is right

A loop's number is the last place of its hash in the list. The numbers of the loops that are picked
out are below their count if and only if these are the first entries of the list, each once
(`sites_lt_iff`). Then all writes are accepted, each to a word of its own; otherwise the number of
some loop is no place in the table.
-/

namespace Pebil

open LoopNesting

namespace LoopIntercept

/-! ## Numbers -/

section Numbers

variable {loopList hashes : List (BitVec 64)} {hash : BitVec 64} {site : Nat}

theorem numberLoops_concat (loopList : List (BitVec 64)) (x : BitVec 64) :
    numberLoops (loopList ++ [x]) =
      Function.update (numberLoops loopList) x (some loopList.length) := by
  rw [numberLoops, List.zipIdx_append, List.foldl_append]
  simp [numberLoops]

/-- The number of a hash is its last place in the list. -/
theorem numberLoops_eq_some : numberLoops loopList hash = some site ↔
    loopList[site]? = some hash ∧ ∀ j, site < j → loopList[j]? ≠ some hash := by
  induction loopList using List.reverseRecOn with
  | nil => simp [numberLoops]
  | append_singleton loopList x ih =>
    rw [numberLoops_concat]
    by_cases hx : hash = x
    · subst hx
      rw [Function.update_self, Option.some.injEq]
      constructor
      · rintro rfl
        exact ⟨by simp, fun j hj => by simp [List.getElem?_eq_none (show
          (loopList ++ [hash]).length ≤ j by simp; omega)]⟩
      · rintro ⟨hsite, hlast⟩
        have hlt := (List.getElem?_eq_some_iff.mp hsite).1
        by_contra hne
        rw [List.length_append, List.length_singleton] at hlt
        exact hlast loopList.length (by omega) (by simp)
    · rw [Function.update_of_ne hx, ih]
      have hplace : ∀ j, (loopList ++ [x])[j]? = some hash ↔ loopList[j]? = some hash := fun j => by
        rcases Nat.lt_trichotomy j loopList.length with hj | rfl | hj
        · rw [List.getElem?_append_left hj]
        · simp [Ne.symm hx]
        · rw [List.getElem?_eq_none (by simp; omega), List.getElem?_eq_none (by omega)]
      simp only [ne_eq, hplace]

theorem isListed_iff : isListed loopList hash = true ↔
    ∃ site, numberLoops loopList hash = some site :=
  Option.isSome_iff_exists

/-- Different hashes have different numbers. -/
theorem numberLoops_inj {hash' : BitVec 64} (h : numberLoops loopList hash = some site)
    (h' : numberLoops loopList hash' = some site) : hash = hash' := by
  have hplace := (numberLoops_eq_some.mp h).1
  rw [(numberLoops_eq_some.mp h').1] at hplace
  exact (Option.some.inj hplace).symm

/-- If the numbers are below the count of the hashes, they are all the numbers below it. -/
theorem exists_of_lt (hnodup : hashes.Nodup)
    (hsites : ∀ hash ∈ hashes, ∃ site, numberLoops loopList hash = some site ∧
      site < hashes.length) (hsite : site < hashes.length) :
    ∃ hash ∈ hashes, numberLoops loopList hash = some site := by
  let sites := hashes.map fun hash => (numberLoops loopList hash).getD 0
  have hnumber : ∀ hash ∈ hashes, numberLoops loopList hash =
      some ((numberLoops loopList hash).getD 0) := fun hash hhash => by
    obtain ⟨site, hsome, -⟩ := hsites hash hhash
    rw [hsome, Option.getD_some]
  have hdistinct : sites.Nodup := by
    refine hnodup.map_on fun hash hhash hash' hhash' heq => ?_
    exact numberLoops_inj (hnumber hash hhash) (heq ▸ hnumber hash' hhash')
  have hsubset : sites ⊆ List.range hashes.length := fun site hmem => by
    obtain ⟨hash, hhash, rfl⟩ := List.mem_map.mp hmem
    obtain ⟨site, hsome, hlt⟩ := hsites hash hhash
    rw [hsome, Option.getD_some]
    exact List.mem_range.mpr hlt
  have hperm : sites.Perm (List.range hashes.length) :=
    (hdistinct.subperm hsubset).perm_of_length_le (by simp [sites])
  obtain ⟨hash, hhash, rfl⟩ := List.mem_map.mp (hperm.mem_iff.mpr (List.mem_range.mpr hsite))
  exact ⟨hash, hhash, hnumber hash hhash⟩

/-- The numbers are below the count if and only if the hashes stand first, each once. -/
theorem sites_lt_iff (hnodup : hashes.Nodup) :
    (∀ hash ∈ hashes, ∃ site, numberLoops loopList hash = some site ∧ site < hashes.length) ↔
      (∀ hash ∈ hashes, ∃ site, numberLoops loopList hash = some site) ∧
      ∃ front back, loopList = front ++ back ∧ front.Nodup ∧ (∀ hash ∈ front, hash ∈ hashes) ∧
        ∀ hash ∈ back, hash ∉ hashes := by
  constructor
  · intro hsites
    have hplace : ∀ i, i < hashes.length → ∃ hash ∈ hashes, loopList[i]? = some hash ∧
        ∀ j, i < j → loopList[j]? ≠ some hash := fun i hi => by
      obtain ⟨hash, hhash, hsome⟩ := exists_of_lt hnodup hsites hi
      exact ⟨hash, hhash, numberLoops_eq_some.mp hsome⟩
    refine ⟨fun hash hhash => ?_, loopList.take hashes.length, loopList.drop hashes.length,
      (List.take_append_drop ..).symm, ?_, fun hash hmem => ?_, fun hash hmem hhash => ?_⟩
    · obtain ⟨site, hsome, -⟩ := hsites hash hhash
      exact ⟨site, hsome⟩
    · refine List.nodup_iff_getElem?_ne_getElem?.mpr fun i j hij hj heq => ?_
      have hj : j < hashes.length := lt_of_lt_of_le hj (List.length_take_le ..)
      rw [List.getElem?_take_of_lt (by omega), List.getElem?_take_of_lt hj] at heq
      obtain ⟨hash, -, hi, hlast⟩ := hplace i (by omega)
      exact hlast j hij (heq ▸ hi)
    · obtain ⟨i, hi, rfl⟩ := List.mem_take_iff_getElem.mp hmem
      obtain ⟨hash, hhash, hplace, -⟩ := hplace i (by omega)
      rw [List.getElem?_eq_getElem (by omega), Option.some.injEq] at hplace
      exact hplace ▸ hhash
    · obtain ⟨i, hi, rfl⟩ := List.mem_drop_iff_getElem.mp hmem
      obtain ⟨site, hsome, hlt⟩ := hsites _ hhash
      exact (numberLoops_eq_some.mp hsome).2 (hashes.length + i) (by omega)
        (List.getElem?_eq_getElem (by omega))
  · rintro ⟨hlisted, front, back, rfl, hfront, hin, hout⟩ hash hhash
    obtain ⟨site, hsome⟩ := hlisted hash hhash
    have hcount : front.length ≤ hashes.length := (hfront.subperm hin).length_le
    refine ⟨site, hsome, lt_of_lt_of_le ?_ hcount⟩
    by_contra hge
    have hplace := (numberLoops_eq_some.mp hsome).1
    rw [List.getElem?_append_right (by omega)] at hplace
    exact hout hash (List.mem_of_getElem? hplace) hhash

end Numbers

/-! ## Picking out loops -/

section Selection

variable {loopList : List (BitVec 64)} {s s' : Selection} {exposed : List ExposedBlock}

/-- The loops that are picked out have different hash codes, and these are listed. -/
structure Selection.Listed (s : Selection) (loopList : List (BitVec 64)) : Prop where
  nodup : (s.loopsFound.map Prod.fst).Nodup
  listed : ∀ hash ∈ s.loopsFound.map Prod.fst, isListed loopList hash = true

theorem Selection.Listed.selectRound (h : s.Listed loopList) {bb : ExposedBlock}
    (hround : selectRound loopList s bb = some s') : s'.Listed loopList := by
  unfold LoopIntercept.selectRound at hround
  dsimp only at hround
  split at hround
  · rename_i hin
    obtain ⟨innerMost, -, hround⟩ := Option.bind_eq_some_iff.mp hround
    obtain ⟨innerMost, -, hround⟩ := Option.bind_eq_some_iff.mp hround
    split at hround
    · cases hround
    · split at hround
      · exact Option.some.inj hround ▸ h
      · rename_i hnew
        split at hround
        · obtain rfl := Option.some.inj hround
          have hlisted := (Bool.and_eq_true_iff.mp hin).2
          refine ⟨?_, ?_⟩
          · rw [List.map_append, List.map_singleton, ← List.concat_eq_append]
            exact h.nodup.concat fun hmem => hnew (.inl hmem)
          · rw [List.map_append, List.map_singleton]
            exact List.forall_mem_append.mpr ⟨h.listed, List.forall_mem_singleton.mpr hlisted⟩
        · obtain rfl := Option.some.inj hround
          exact ⟨h.nodup, h.listed⟩
  · exact Option.some.inj hround ▸ h

theorem Selection.Listed.foldlM (h : s.Listed loopList)
    (hfold : exposed.foldlM (LoopIntercept.selectRound loopList) s = some s') :
    s'.Listed loopList := by
  induction exposed generalizing s with
  | nil => exact Option.some.inj hfold ▸ h
  | cons bb exposed ih =>
    obtain ⟨s₁, hround, hrest⟩ := Option.bind_eq_some_iff.mp hfold
    exact ih (h.selectRound hround) hrest

/-- What is known of the hashes that get a site. -/
theorem siteHashes_spec {hashes : List (BitVec 64)} (h : siteHashes loopList exposed = some hashes) :
    hashes.Nodup ∧ ∀ hash ∈ hashes, ∃ site, numberLoops loopList hash = some site := by
  obtain ⟨found, hselect, rfl⟩ := Option.map_eq_some_iff.mp h
  obtain ⟨s, hfold, rfl⟩ := Option.map_eq_some_iff.mp hselect
  have hstart : Selection.Listed ⟨[], []⟩ loopList := ⟨List.nodup_nil, by simp⟩
  have hlisted := hstart.foldlM hfold
  have hperm := List.perm_insertionSort (fun a b : BitVec 64 => a.toNat ≤ b.toNat)
    (s.loopsFound.map Prod.fst)
  exact ⟨hperm.nodup_iff.mpr hlisted.nodup, fun hash hhash =>
    isListed_iff.mp (hlisted.listed hash (hperm.mem_iff.mp hhash))⟩

/-- The walk outwards ends. -/
theorem climb_isSome (g : InterceptGraph) (hash : BitVec 64) {fuel : Nat} (l : Ptr g.loops)
    (hfuel : g.height l ≤ fuel) : (g.climb hash fuel l).isSome := by
  induction fuel generalizing l with
  | zero => cases hfuel
  | succ fuel ih =>
    rw [InterceptGraph.climb]
    split
    · rename_i hup
      have hdepth := depth_parentOf hup.2
      unfold InterceptGraph.height at hfuel ih
      exact ih _ (by omega)
    · rfl

end Selection

/-! ## Writing the table -/

section Table

open InstrumentationData

variable {base loopHashes : BitVec 64} {ranges : List (BitVec 64 × BitVec 64)}
  {mem : Nat → BitVec 8} {data data' : InstrumentationData} {loopList hashes : List (BitVec 64)}
  {hash : BitVec 64} {site count : Nat}

/-- The table is the last thing that has been reserved, and no address wraps. -/
structure InTable (base loopHashes : BitVec 64) (count : Nat) (data : InstrumentationData) :
    Prop where
  usable : data.usableDataOffset.toNat = loopHashes.toNat + count * 8
  buffer : data.usableDataOffset.toNat < data.bytes.length
  noWrap : base.toNat + data.usableDataOffset.toNat + 8 < 2 ^ 64

theorem InTable.siteAddress (h : InTable base loopHashes count data) (hsite : site < count) :
    (siteAddress base loopHashes site).toNat = base.toNat + loopHashes.toNat + site * 8 ∧
      (LoopIntercept.siteAddress base loopHashes site - base).toNat =
        loopHashes.toNat + site * 8 := by
  have hwrap := h.noWrap
  rw [h.usable] at hwrap
  have haddress : (LoopIntercept.siteAddress base loopHashes site).toNat =
      base.toNat + loopHashes.toNat + site * 8 := by
    rw [LoopIntercept.siteAddress, BitVec.toNat_add, BitVec.toNat_add, BitVec.toNat_ofNat]
    omega
  refine ⟨haddress, ?_⟩
  rw [BitVec.toNat_sub_of_le (by rw [BitVec.le_def]; omega), haddress]
  omega

/-- A write to a word of the table is accepted, and changes that word. -/
theorem InTable.write (h : InTable base loopHashes count data) (hkept : data.Kept ranges mem)
    (hsite : site < count) {bytes : List (BitVec 8)} (hbytes : bytes.length = 8) :
    ∃ data', data.initializeReservedData base (LoopIntercept.siteAddress base loopHashes site)
        bytes = some data' ∧ InTable base loopHashes count data' ∧
      data'.Kept ranges (writeBytes mem (loopHashes.toNat + site * 8) bytes) := by
  obtain ⟨haddress, hoffset⟩ := h.siteAddress hsite
  obtain ⟨husable, hbuffer, hwrap⟩ := h
  obtain ⟨d, hd⟩ : ∃ d, data.instrumentationData = some d := by
    cases hdata : data.instrumentationData with
    | none =>
      rw [InstrumentationData.bytes, hdata] at hbuffer
      cases hbuffer
    | some d => exact ⟨d, rfl⟩
  have hd' : data.bytes = d := by rw [InstrumentationData.bytes, hd, Option.getD_some]
  rw [hd'] at hbuffer
  have hlast : (LoopIntercept.siteAddress base loopHashes site +
      BitVec.ofNat 64 bytes.length).toNat = base.toNat + loopHashes.toNat + site * 8 + 8 := by
    rw [BitVec.toNat_add, haddress, hbytes, BitVec.toNat_ofNat]
    omega
  have hend : (base + data.usableDataOffset).toNat = base.toNat + data.usableDataOffset.toNat := by
    rw [BitVec.toNat_add]
    omega
  have haccepted : LoopIntercept.siteAddress base loopHashes site +
        BitVec.ofNat 64 bytes.length ≤ base + data.usableDataOffset ∧
      LoopIntercept.siteAddress base loopHashes site ≥ base := by
    constructor
    · rw [BitVec.le_def, hlast, hend]
      omega
    · rw [ge_iff_le, BitVec.le_def, haddress]
      omega
  have hroom : (LoopIntercept.siteAddress base loopHashes site - base).toNat + bytes.length ≤
      d.length := by
    rw [hoffset]
    omega
  obtain ⟨data', hinit⟩ : ∃ data', data.initializeReservedData base
      (LoopIntercept.siteAddress base loopHashes site) bytes = some data' := by
    rw [initializeReservedData]
    dsimp only
    rw [if_pos haccepted, hd, Option.bind_some, if_pos hroom]
    exact ⟨_, rfl⟩
  have hkept' := hoffset ▸ hkept.write hinit
  obtain ⟨d', hsame, -, rfl⟩ := write_spec hinit
  obtain rfl : d = d' := Option.some.inj (hd.symm.trans hsame)
  refine ⟨_, hinit, ⟨husable, ?_, hwrap⟩, hkept'⟩
  simp only [InstrumentationData.bytes, Option.getD_some, List.length_append, List.length_take,
    List.length_drop]
  omega

/-- What the writes leave: each word that is written holds its hash, and the rest of the memory is
as before. -/
theorem InTable.writeSites (h : InTable base loopHashes count data) (hkept : data.Kept ranges mem)
    (hnodup : hashes.Nodup)
    (hsites : ∀ hash ∈ hashes, ∃ site, numberLoops loopList hash = some site ∧ site < count) :
    ∃ data' mem', LoopIntercept.writeSites loopList base loopHashes hashes data = some data' ∧
      InTable base loopHashes count data' ∧ data'.Kept ranges mem' ∧
      (∀ hash ∈ hashes, ∀ site ∈ numberLoops loopList hash, ∀ i < 8,
        (ByteMemory.littleEndian 8 hash.toNat)[i]? =
          some (mem' (loopHashes.toNat + site * 8 + i))) ∧
      ∀ x, (∀ hash ∈ hashes, ∀ site ∈ numberLoops loopList hash,
        ¬ ByteMemory.InRange (loopHashes.toNat + site * 8) 8 x) → mem' x = mem x := by
  induction hashes generalizing data mem with
  | nil => exact ⟨data, mem, rfl, h, hkept, by simp, fun _ _ => rfl⟩
  | cons hash hashes ih =>
    obtain ⟨hnew, hnodup⟩ := List.nodup_cons.mp hnodup
    obtain ⟨⟨site, hsome, hsite⟩, hsites⟩ := List.forall_mem_cons.mp hsites
    have hlength := ByteMemory.length_littleEndian 8 hash.toNat
    obtain ⟨data₁, hwrite, htable, hkept₁⟩ := h.write hkept hsite hlength
    obtain ⟨data', mem', hrest, htable', hkept', hholds, hframe⟩ := ih htable hkept₁ hnodup hsites
    refine ⟨data', mem', ?_, htable', hkept', ?_, ?_⟩
    · rw [LoopIntercept.writeSites, List.foldlM_cons, hsome]
      simp only [Option.bind_eq_bind, Option.bind_some, hwrite]
      exact hrest
    · refine List.forall_mem_cons.mpr ⟨fun site' hsite' i hi => ?_, hholds⟩
      obtain rfl : site = site' := Option.some.inj (hsome.symm.trans hsite')
      -- no later write is to this word
      have hother := hframe (loopHashes.toNat + site * 8 + i) fun hash' hhash' site' hsite' hin => by
        have hne : site ≠ site' := fun heq =>
          hnew (numberLoops_inj hsome (heq ▸ hsite') ▸ hhash')
        unfold ByteMemory.InRange at hin
        omega
      rw [hother, writeBytes, dif_pos (by omega)]
      have hi : loopHashes.toNat + site * 8 + i - (loopHashes.toNat + site * 8) = i := by omega
      simp only [hi, List.get_eq_getElem]
      exact List.getElem?_eq_getElem _
    · intro x hx
      obtain ⟨hx₁, hx⟩ := List.forall_mem_cons.mp hx
      have hout := hx₁ site hsome
      unfold ByteMemory.InRange at hout
      rw [hframe x hx, writeBytes, dif_neg (by omega)]

end Table

/-! ## The result -/

/-- The reservation leaves the table at the end of what is used. -/
theorem Setting.exists_reserved (s : Setting) {hashes : List (BitVec 64)}
    (h : siteHashes s.loopList s.exposed = some hashes) : ∃ loopHashes reserved,
      s.data.Reserves (BitVec.ofNat 64 (hashes.length * 8)) loopHashes reserved ∧
      InTable s.base loopHashes hashes.length reserved ∧
      reserved.Kept ((loopHashes, BitVec.ofNat 64 (hashes.length * 8)) :: s.ranges) s.mem := by
  obtain ⟨hlow, hok⟩ := s.room hashes h
  have hkept := s.run.kept
  obtain ⟨reserved, hres, hsized, -, husable, hinside⟩ :=
    InstrumentationData.reserve_spec hkept.sized hok
  have hsize : (BitVec.ofNat 64 (hashes.length * 8)).toNat = hashes.length * 8 := by
    rw [BitVec.toNat_ofNat]
    omega
  have hround : roundUp 8 (s.data.usableDataOffset.toNat + hashes.length * 8) =
      s.data.usableDataOffset.toNat + hashes.length * 8 :=
    roundUp_eq_self (Nat.dvd_add hkept.free (Nat.dvd_mul_left ..))
  rw [hsize, hround] at husable
  have hnoWrap := s.noWrap
  refine ⟨_, reserved, hres, ⟨husable, ?_, by omega⟩, hkept.reserve hok hres⟩
  rw [hsized.length_bytes]
  exact hinside

/-- `instrument` comes to its end with a right table if and only if the listed hashes that it meets
are those of heads and the loops it picks out stand first in the list, each once. -/
theorem tableRight_iff (s : Setting) : s.TableRight ↔ s.ListedFirst := by
  constructor
  · rintro ⟨hashes, loopHashes, data, ⟨hsome, -⟩, htable⟩
    exact ⟨hashes, hsome, ((sites_lt_iff (siteHashes_spec hsome).1).mp htable.below).2⟩
  · rintro ⟨hashes, hsome, hfirst⟩
    obtain ⟨hnodup, hlisted⟩ := siteHashes_spec hsome
    have hsites := (sites_lt_iff hnodup).mpr ⟨hlisted, hfirst⟩
    obtain ⟨loopHashes, reserved, hres, hin, hkept⟩ := s.exists_reserved hsome
    obtain ⟨data, mem, hwrites, hin', hkept', hholds, -⟩ := hin.writeSites hkept hnodup hsites
    have hbelow : ∀ hash ∈ hashes, ∀ site ∈ numberLoops s.loopList hash, site < hashes.length := by
      intro hash hhash site hsite
      obtain ⟨site', hsome', hlt⟩ := hsites hash hhash
      obtain rfl : site' = site := Option.some.inj (hsome'.symm.trans hsite)
      exact hlt
    refine ⟨hashes, loopHashes, data, ⟨hsome, reserved, hres, hwrites⟩, hsites,
      fun hash hhash hash' hhash' heq => ?_, fun hash hhash site hsite i hi => ?_,
      fun hash hhash site hsite => ?_⟩
    · obtain ⟨site, hsite, -⟩ := hsites hash hhash
      exact numberLoops_inj hsite (heq ▸ hsite)
    · rw [hholds hash hhash site hsite i hi]
      refine hkept'.written _ ?_
      have husable := hin'.usable
      have hbuffer := hin'.buffer
      have hlt := hbelow hash hhash site hsite
      omega
    · have hlt := hbelow hash hhash site hsite
      rw [(hin.siteAddress hlt).1]
      omega

/-- One loop, of the block with the hash code 7, listed behind a hash that no block has. -/
def unknownFirst : Setting where
  loopList := [0x1234, 7]
  exposed := [⟨⟨[⟨7, 0x400000, [0], false⟩], [⟨0, 0, 0, (BitSet.new 1).insert 0, 0⟩]⟩, 0⟩]
  base := 0x600000
  data := .start
  ranges := []
  mem := fun _ => 0
  run := .start
  room hashes h := by
    obtain rfl : [7] = hashes := Option.some.inj h
    exact ⟨by decide, by decide, fun _ => .inl (by decide)⟩
  noWrap := by decide

/-- Its site is 1, and there is one loop. -/
theorem not_tableRight : ¬ unknownFirst.TableRight := by
  rintro ⟨hashes, loopHashes, data, ⟨hsome, -⟩, htable⟩
  obtain rfl : [7] = hashes := Option.some.inj hsome
  obtain ⟨site, hsite, hlt⟩ := htable.below 7 List.mem_cons_self
  obtain rfl : 1 = site := Option.some.inj hsite
  exact absurd hlt (by decide)

end LoopIntercept

end Pebil

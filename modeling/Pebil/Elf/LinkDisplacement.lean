import Pebil.Elf.LinkTables

/-!
# What a displacement does to the sections

Below 4 GiB, and over aligned sections, the loop moves the section at `i` by the growth
rounded up to the strictest alignment from the grown section to `i` (`shiftOf`). Each
section is moved at least as far as the one before it, so that the room is made and no
two sections meet.
-/

namespace Pebil

/-! ## Moved headers -/

/-- A header moved up by `δ`, of a section that is `γ` longer. -/
def SectionHeader.moved (h : SectionHeader) (δ γ : Nat) : SectionHeader :=
  { h with
    addr := h.addr + BitVec.ofNat 64 δ
    offset := h.offset + BitVec.ofNat 64 δ
    size := h.size + BitVec.ofNat 64 γ }

namespace SectionHeader

variable (h : SectionHeader) (δ γ δ' γ' : Nat)

@[simp] theorem moved_addralign : (h.moved δ γ).addralign = h.addralign := rfl

@[simp] theorem moved_sectionNamePtr : (h.moved δ γ).sectionNamePtr = h.sectionNamePtr := rfl

@[simp] theorem moved_zero : h.moved 0 0 = h := by
  simp [moved]

theorem moved_moved : (h.moved δ γ).moved δ' γ' = h.moved (δ + δ') (γ + γ') := by
  simp only [moved, BitVec.ofNat_add, BitVec.add_assoc]

/-- A displaced section is a moved one, as its address is not 0. -/
theorem displace_eq_moved (mappedOnly : Bool) {e : BitVec 32} (haddr : h.addr ≠ 0) :
    h.displace mappedOnly e = h.moved e.toNat 0 := by
  have hwiden : e.setWidth 64 = BitVec.ofNat 64 e.toNat :=
    BitVec.eq_of_toNat_eq (by rw [BitVec.toNat_setWidth, BitVec.toNat_ofNat])
  rw [displace, moved, hwiden, show (h.addr == 0) = false from beq_eq_false_iff_ne.mpr haddr,
    Bool.and_false, if_neg Bool.false_ne_true, BitVec.add_zero]

end SectionHeader

/-- The headers after `δ` and `γ`, section by section. -/
def Moves (δ γ : Nat → Nat) (l l' : List SectionHeader) : Prop :=
  l' = l.mapIdx fun i h => h.moved (δ i) (γ i)

namespace Moves

variable {δ γ δ' γ' : Nat → Nat} {l l' l'' : List SectionHeader} {i : Nat} {h h' : SectionHeader}

theorem refl (l : List SectionHeader) : Moves (fun _ => 0) (fun _ => 0) l l := by
  refine (List.ext_getElem (by simp) fun i _ _ => ?_).symm
  rw [List.getElem_mapIdx, SectionHeader.moved_zero]

theorem trans (hm : Moves δ γ l l') (hm' : Moves δ' γ' l' l'') :
    Moves (fun i => δ i + δ' i) (fun i => γ i + γ' i) l l'' := by
  rw [Moves, hm', hm]
  refine List.ext_getElem (by simp) fun i _ _ => ?_
  simp only [List.getElem_mapIdx, SectionHeader.moved_moved]

theorem congr (hm : Moves δ γ l l') (hδ : ∀ i, δ i = δ' i) (hγ : ∀ i, γ i = γ' i) :
    Moves δ' γ' l l' := by
  rwa [← show δ = δ' from funext hδ, ← show γ = γ' from funext hγ]

theorem length_eq (hm : Moves δ γ l l') : l'.length = l.length := by
  rw [hm, List.length_mapIdx]

theorem getElem? (hm : Moves δ γ l l') (hi : l[i]? = some h) : l'[i]? = some (h.moved (δ i) (γ i)) := by
  rw [hm, List.getElem?_mapIdx, hi]
  rfl

theorem exists_of_getElem? (hm : Moves δ γ l l') (hi : l'[i]? = some h') :
    ∃ h, l[i]? = some h ∧ h' = h.moved (δ i) (γ i) := by
  rw [hm, List.getElem?_mapIdx, Option.map_eq_some_iff] at hi
  obtain ⟨h, hi, rfl⟩ := hi
  exact ⟨h, hi, rfl⟩

/-- What is not moved: the alignments and the names. -/
theorem map_eq {β : Type} (hm : Moves δ γ l l') (k : SectionHeader → β)
    (hk : ∀ h δ γ, k (SectionHeader.moved h δ γ) = k h) : l'.map k = l.map k := by
  rw [hm]
  refine List.ext_getElem (by simp) fun i _ _ => ?_
  simp only [List.getElem_map, List.getElem_mapIdx, hk]

end Moves

/-! ## The loop over the sections -/

/-- A section the loop handles as it is meant to: it has an address, which is aligned. -/
structure SectionHeader.Regular (h : SectionHeader) : Prop where
  mapped : h.addr ≠ 0
  alignment : IsAlignment h.addralign.toNat
  alignment_lt : h.addralign.toNat < 2 ^ 32
  aligned : AlignedTo h.addralign.toNat h.addr.toNat

/-- The alignments of some sections. -/
def alignments (hs : List SectionHeader) : List Nat := hs.map fun h => h.addralign.toNat

theorem alignments_cons (h : SectionHeader) (hs : List SectionHeader) :
    alignments (h :: hs) = h.addralign.toNat :: alignments hs := rfl

theorem alignments_append (hs hs' : List SectionHeader) :
    alignments (hs ++ hs') = alignments hs ++ alignments hs' := List.map_append

theorem isAlignment_of_regular {hs : List SectionHeader} (h : ∀ h ∈ hs, h.Regular) :
    ∀ a ∈ alignments hs, IsAlignment a := by
  intro a ha
  obtain ⟨s, hs, rfl⟩ := List.mem_map.mp ha
  exact (h s hs).alignment

/-- One step of the loop. -/
theorem nextAlign_of_regular {h : SectionHeader} (hreg : h.Regular) {e : BitVec 32}
    (hlow : h.addr.toNat + roundUp h.addralign.toNat e.toNat < 2 ^ 32) :
    ∃ aligned, nextAlignAddress (h.addr + e.setWidth 64) (h.addralign.setWidth 32) = some aligned ∧
      ((aligned - h.addr).setWidth 32).toNat = roundUp h.addralign.toNat e.toNat := by
  have hle := le_roundUp h.addralign.toNat e.toNat
  have hsum : (h.addr + e.setWidth 64).toNat = h.addr.toNat + e.toNat := by
    rw [BitVec.toNat_add, BitVec.toNat_setWidth, Nat.mod_eq_of_lt (a := e.toNat) (by omega),
      Nat.mod_eq_of_lt (by omega)]
  have hwidth : (h.addralign.setWidth 32).toNat = h.addralign.toNat := by
    rw [BitVec.toNat_setWidth, Nat.mod_eq_of_lt hreg.alignment_lt]
  have hlow' : (h.addr + e.setWidth 64).toNat < 2 ^ 32 := by omega
  have halign : IsAlignment (h.addralign.setWidth 32).toNat := hwidth ▸ hreg.alignment
  obtain ⟨aligned, hnext, htoNat⟩ := nextAlignAddress_spec halign hlow'
  refine ⟨aligned, hnext, ?_⟩
  rw [hsum, hwidth, roundUp_add hreg.aligned] at htoNat
  rw [BitVec.toNat_setWidth, BitVec.toNat_sub_of_le (by rw [BitVec.le_def]; omega), htoNat,
    Nat.add_sub_cancel_left, Nat.mod_eq_of_lt (by omega)]

/-- **The loop.** The growth is rounded up to the strictest alignment passed so far. -/
theorem displaceAll_spec (mappedOnly : Bool) (amount : BitVec 32 → BitVec 32) (room : Nat)
    {hs : List SectionHeader} (hreg : ∀ h ∈ hs, h.Regular)
    (hlow : ∀ h ∈ hs, h.addr.toNat + room < 2 ^ 32) (e : BitVec 32)
    (hroom : roundUp (strictest (alignments hs)) e.toNat ≤ room) :
    ∃ hs' e', displaceAll mappedOnly amount hs e = some (hs', e') ∧
      e'.toNat = roundUp (strictest (alignments hs)) e.toNat ∧
      hs' = hs.mapIdx fun k h => h.moved
        (amount (BitVec.ofNat 32 (roundUp (strictest (alignments (hs.take (k + 1)))) e.toNat))).toNat 0 := by
  induction hs generalizing e with
  | nil => exact ⟨[], e, rfl, (roundUp_one _).symm, rfl⟩
  | cons h hs ih =>
    obtain ⟨hreg1, hregs⟩ := List.forall_mem_cons.mp hreg
    obtain ⟨hlow1, hlows⟩ := List.forall_mem_cons.mp hlow
    have halign : ∀ a ∈ alignments hs, IsAlignment a := isAlignment_of_regular hregs
    have hstrict : roundUp (strictest (alignments hs)) (roundUp h.addralign.toNat e.toNat) =
        roundUp (strictest (alignments (h :: hs))) e.toNat :=
      (roundUp_strictest_cons hreg1.alignment halign _).symm
    have hfirst := le_roundUp (strictest (alignments hs)) (roundUp h.addralign.toNat e.toNat)
    obtain ⟨aligned, hnext, he1⟩ := nextAlign_of_regular hreg1 (e := e) (by omega)
    obtain ⟨hs', e', hrun, he', hhs'⟩ := ih hregs hlows ((aligned - h.addr).setWidth 32)
      (by rw [he1, hstrict]; exact hroom)
    refine ⟨_, e', by simp only [displaceAll, hnext, hrun, Option.bind_eq_bind, Option.bind_some,
      Option.pure_def]; rfl, by rw [he', he1, hstrict], ?_⟩
    rw [List.mapIdx_cons, hhs', SectionHeader.displace_eq_moved _ _ hreg1.mapped]
    refine congrArg₂ List.cons ?_ (congrArg (fun g => hs.mapIdx g) ?_)
    · have hone : roundUp (strictest (alignments [h])) e.toNat = roundUp h.addralign.toNat e.toNat := by
        rw [alignments_cons, roundUp_strictest_cons hreg1.alignment (by simp [alignments])]
        exact roundUp_one _
      rw [Nat.zero_add, List.take_succ_cons, List.take_zero, hone, ← he1, BitVec.ofNat_toNat,
        BitVec.setWidth_eq]
    · funext k s
      have htake : ∀ a ∈ alignments (hs.take (k + 1)), IsAlignment a :=
        isAlignment_of_regular fun x hx => hregs x (List.mem_of_mem_take hx)
      rw [List.take_succ_cons, alignments_cons, roundUp_strictest_cons hreg1.alignment htake, he1]

/-! ## The displacement of a file -/

namespace LinkFile

/-- The sections in front of `.init`, which share the segment that grows. -/
def InSegment (f : LinkFile) (i : Nat) (h : SectionHeader) : Prop :=
  1 ≤ i ∧ i ≤ f.ftidx ∧ f.sectionHeaders[i]? = some h

/-- The strictest alignment behind `s` up to `i`. -/
def strictestBehind (f : LinkFile) (s i : Nat) : Nat := strictest (alignments (f.behind s i))

/-- How far the section at `i` is moved when the one at `s` grows by `e`. -/
def shiftOf (f : LinkFile) (s e i : Nat) : Nat :=
  if s < i ∧ i ≤ f.ftidx then roundUp (f.strictestBehind s i) e else 0

variable {f g : LinkFile} {s i j e : Nat} {h : SectionHeader}

theorem shiftOf_of_le (hi : i ≤ s) : f.shiftOf s e i = 0 := if_neg fun h => absurd h.1 (Nat.not_lt.mpr hi)

theorem shiftOf_of_ftidx_lt (hi : f.ftidx < i) : f.shiftOf s e i = 0 :=
  if_neg fun h => absurd h.2 (Nat.not_le.mpr hi)

theorem shiftOf_of_mem (hs : s < i) (hi : i ≤ f.ftidx) :
    f.shiftOf s e i = roundUp (f.strictestBehind s i) e := if_pos ⟨hs, hi⟩

theorem mem_behind {t : Nat} (hmem : h ∈ f.behind s t) :
    ∃ i, s < i ∧ i ≤ t ∧ f.sectionHeaders[i]? = some h := by
  obtain ⟨k, hk⟩ := List.mem_iff_getElem?.mp hmem
  rw [behind, List.getElem?_take, List.getElem?_drop] at hk
  split at hk
  · exact ⟨s + 1 + k, by omega, by omega, hk⟩
  · cases hk

theorem behind_getElem? {t k : Nat} (hk : k < t - s) :
    (f.behind s t)[k]? = f.sectionHeaders[s + 1 + k]? := by
  rw [behind, List.getElem?_take, if_pos hk, List.getElem?_drop]

theorem take_behind {t k : Nat} (hk : k < t - s) :
    (f.behind s t).take (k + 1) = f.behind s (s + 1 + k) := by
  rw [behind, behind, List.take_take, Nat.min_eq_left hk, show s + 1 + k - s = k + 1 by omega]

/-- **A displacement.** It does not stop, moves the sections behind `s` and nothing else. -/
theorem displace_spec (mappedOnly : Bool) (amount : BitVec 32 → BitVec 32) (room : Nat) (s : Nat)
    (e : BitVec 32) (hinit : f.ftidx < f.sectionHeaders.length)
    (hreg : ∀ i h, f.InSegment i h → h.Regular)
    (hlow : ∀ i h, f.InSegment i h → h.addr.toNat + room < 2 ^ 32)
    (hroom : roundUp (f.strictestBehind s f.ftidx) e.toNat ≤ room) :
    ∃ headers e', f.displace mappedOnly amount s e = some ({ f with sectionHeaders := headers }, e') ∧
      e'.toNat = roundUp (f.strictestBehind s f.ftidx) e.toNat ∧
      Moves (fun i => if s < i ∧ i ≤ f.ftidx then
          (amount (BitVec.ofNat 32 (roundUp (f.strictestBehind s i) e.toNat))).toNat else 0)
        (fun _ => 0) f.sectionHeaders headers := by
  rcases Nat.lt_or_ge s f.ftidx with hs | hs
  · have hmem : ∀ h ∈ f.behind s f.ftidx, ∃ i, f.InSegment i h := by
      intro h hh
      obtain ⟨i, hsi, hit, hi⟩ := mem_behind hh
      exact ⟨i, Nat.succ_le_of_lt (Nat.lt_of_le_of_lt (Nat.zero_le s) hsi), hit, hi⟩
    obtain ⟨hs', e', hrun, he', hhs'⟩ := displaceAll_spec mappedOnly amount room
      (fun h hh => (hmem h hh).elim fun i hi => hreg i h hi)
      (fun h hh => (hmem h hh).elim fun i hi => hlow i h hi) e hroom
    refine ⟨f.sectionHeaders.take (s + 1) ++ hs' ++ f.sectionHeaders.drop (f.ftidx + 1), e', ?_, he', ?_⟩
    · rw [displace, if_neg (Nat.not_le.mpr hs), if_neg (Nat.not_le.mpr hinit), hrun]
      rfl
    · have htake : (f.sectionHeaders.take (s + 1)).length = s + 1 := by
        rw [List.length_take]
        omega
      have hmid : hs'.length = f.ftidx - s := by
        rw [hhs', List.length_mapIdx, behind, List.length_take, List.length_drop]
        omega
      refine List.ext_getElem? fun i => ?_
      rw [List.getElem?_mapIdx]
      rcases Nat.lt_or_ge i (s + 1) with hi | hi
      · -- in front
        rw [List.append_assoc, List.getElem?_append_left (by omega), List.getElem?_take, if_pos hi]
        simp only [show ¬ (s < i ∧ i ≤ f.ftidx) by omega, if_false, SectionHeader.moved_zero,
          Option.map_id']
      · rcases Nat.lt_or_ge i (f.ftidx + 1) with hit | hit
        · -- moved
          obtain ⟨k, rfl⟩ := Nat.exists_eq_add_of_le hi
          have hk : k < f.ftidx - s := by omega
          rw [List.append_assoc, List.getElem?_append_right (by omega), htake,
            Nat.add_sub_cancel_left, List.getElem?_append_left (by omega), hhs', List.getElem?_mapIdx,
            behind_getElem? hk, take_behind hk]
          simp only [show s < s + 1 + k ∧ s + 1 + k ≤ f.ftidx by omega, and_self, if_true]
          rfl
        · -- from `.init` on
          rw [List.getElem?_append_right (by rw [List.length_append]; omega), List.length_append, htake,
            hmid, List.getElem?_drop, show f.ftidx + 1 + (i - (s + 1 + (f.ftidx - s))) = i by omega]
          simp only [show ¬ (s < i ∧ i ≤ f.ftidx) by omega, if_false, SectionHeader.moved_zero,
            Option.map_id']
  · refine ⟨f.sectionHeaders, e, by rw [displace, if_pos hs], ?_, ?_⟩
    · rw [strictestBehind, behind, Nat.sub_eq_zero_of_le hs, List.take_zero]
      exact (roundUp_one _).symm
    · refine (Moves.refl _).congr (fun i => ?_) fun _ => rfl
      rw [if_neg (by omega)]

/-! ## Room -/

theorem mem_behind_of_inSegment (hi : f.InSegment i h) : h ∈ f.behind 0 f.ftidx := by
  refine List.mem_iff_getElem?.mpr ⟨i - 1, ?_⟩
  have hi1 := hi.1
  have hit := hi.2.1
  rw [behind_getElem? (by omega), show 0 + 1 + (i - 1) = i by omega, hi.2.2]

theorem behind_append {i j : Nat} (hs : s ≤ i) (hi : i ≤ j) :
    f.behind s j = f.behind s i ++ f.behind i j := by
  rw [behind, behind, behind, show j - s = (i - s) + (j - i) by omega, List.take_add, List.drop_drop,
    show s + 1 + (i - s) = i + 1 by omega]

/-- The sections from `s` to `t` are regular. -/
theorem isAlignment_behind (hreg : ∀ i h, f.InSegment i h → h.Regular) {t : Nat} (ht : t ≤ f.ftidx) :
    ∀ a ∈ alignments (f.behind s t), IsAlignment a := by
  refine isAlignment_of_regular fun h hh => ?_
  obtain ⟨i, hsi, hit, hi⟩ := mem_behind hh
  exact hreg i h ⟨by omega, hit.trans ht, hi⟩

theorem strictestBehind_le {s' i j : Nat} (hs : s' ≤ s) (hsi : s ≤ i) (hij : i ≤ j) :
    f.strictestBehind s i ≤ f.strictestBehind s' j := by
  have hsplit : f.behind s' j = f.behind s' s ++ (f.behind s i ++ f.behind i j) := by
    rw [← behind_append hsi hij, ← behind_append hs (hsi.trans hij)]
  rw [strictestBehind, strictestBehind, hsplit, alignments_append, alignments_append,
    strictest_append, strictest_append]
  exact (Nat.le_max_left _ _).trans (Nat.le_max_right _ _)

theorem roundUp_strictestBehind_le (hreg : ∀ i h, f.InSegment i h → h.Regular) {s' i j : Nat}
    (hs : s' ≤ s) (hsi : s ≤ i) (hij : i ≤ j) (hj : j ≤ f.ftidx) (e : Nat) :
    roundUp (f.strictestBehind s i) e ≤ roundUp (f.strictestBehind s' j) e :=
  roundUp_mono_left (isAlignment_strictest (isAlignment_behind hreg (hij.trans hj)))
    (isAlignment_strictest (isAlignment_behind hreg hj)) (strictest_pos _)
    (strictestBehind_le hs hsi hij) e

/-- No displacement goes further than one that passes every section. -/
theorem roundUp_last_le (hreg : ∀ i h, f.InSegment i h → h.Regular) (s e : Nat) :
    roundUp (f.strictestBehind s f.ftidx) e ≤ roundUp (f.strictestBehind 0 f.ftidx) e := by
  rcases Nat.le_total s f.ftidx with hs | hs
  · exact roundUp_strictestBehind_le hreg (Nat.zero_le s) hs le_rfl le_rfl e
  · rw [strictestBehind, behind, Nat.sub_eq_zero_of_le hs, List.take_zero]
    exact (roundUp_one e).trans_le (le_roundUp _ e)

/-- The sections make room for what grows: `δ` is how far they move and `γ` how much longer
they get, neither more than `b`. -/
structure MakesRoom (f : LinkFile) (δ γ : Nat → Nat) (b : Nat) : Prop where
  room : ∀ i j, 1 ≤ i → i < j → j ≤ f.ftidx → δ i + γ i ≤ δ j
  aligned : ∀ i h, f.InSegment i h → AlignedTo h.addralign.toNat (δ i)
  shift_le : ∀ i, δ i ≤ b
  growth_le : ∀ i, γ i ≤ b

/-- The growth of a single section. -/
def growthAt (s e i : Nat) : Nat := if i = s then e else 0

theorem MakesRoom.add {δ γ δ' γ' : Nat → Nat} {b b' : Nat} (h : f.MakesRoom δ γ b)
    (h' : f.MakesRoom δ' γ' b') :
    f.MakesRoom (fun i => δ i + δ' i) (fun i => γ i + γ' i) (b + b') where
  room i j hi hij hj := by
    have hr := h.room i j hi hij hj
    have hr' := h'.room i j hi hij hj
    omega
  aligned i s hs := (h.aligned i s hs).add (h'.aligned i s hs)
  shift_le i := Nat.add_le_add (h.shift_le i) (h'.shift_le i)
  growth_le i := Nat.add_le_add (h.growth_le i) (h'.growth_le i)

/-- The rounded shifts make room for the growth. -/
theorem makesRoom_shiftOf (hreg : ∀ i h, f.InSegment i h → h.Regular) (s e : Nat) :
    f.MakesRoom (f.shiftOf s e) (growthAt s e) (roundUp (f.strictestBehind 0 f.ftidx) e) where
  room i j hi hij hj := by
    rw [growthAt]
    rcases Nat.lt_trichotomy i s with his | rfl | his
    · rw [shiftOf_of_le his.le, if_neg his.ne]
      exact Nat.zero_le _
    · rw [shiftOf_of_le le_rfl, if_pos rfl, shiftOf_of_mem hij hj, Nat.zero_add]
      exact le_roundUp ..
    · rw [if_neg his.ne', shiftOf_of_mem his (hij.le.trans hj), shiftOf_of_mem (his.trans hij) hj]
      exact roundUp_strictestBehind_le hreg le_rfl his.le hij.le hj e
  aligned i h hi := by
    rcases Nat.lt_or_ge s i with hs | hs
    · rw [shiftOf_of_mem hs hi.2.1]
      have hlast : h ∈ f.behind s i := by
        refine List.mem_iff_getElem?.mpr ⟨i - s - 1, ?_⟩
        rw [behind_getElem? (by omega), show s + 1 + (i - s - 1) = i by omega, hi.2.2]
      exact alignedTo_of_strictest (isAlignment_behind hreg hi.2.1)
        (List.mem_map_of_mem hlast) (dvd_roundUp (strictest_pos _) e)
    · rw [shiftOf_of_le hs]
      exact Or.inr (Nat.dvd_zero _)
  shift_le i := by
    rw [shiftOf]
    split
    · rename_i hi
      exact roundUp_strictestBehind_le hreg (Nat.zero_le s) hi.1.le hi.2 le_rfl e
    · exact Nat.zero_le _
  growth_le i := by
    rw [growthAt]
    split
    · exact le_roundUp ..
    · exact Nat.zero_le _

end LinkFile

end Pebil

import Mathlib.Data.BitVec
import Mathlib.Data.Nat.Log
import Pebil.Lib.RoundUp

/-!
# Aligning an address (src/Base.C:495–581)

The masks of `nextAlignAddress` are 32 bits wide, so that the address loses its high
half before it is rounded. The helpers for half words, words and double words shift the whole
address. `alignsRight_iff` is the result: both round up, and agree, below 4 GiB only.
-/

namespace Pebil

/-- `isPowerOfTwo`. -/
def isPowerOfTwo (n : BitVec 32) : Bool :=
  (List.range 32).any fun i => n == 1#32 <<< i

/-- `align_mask_or[pow]`. -/
def alignMaskOr (pow : Nat) : BitVec 32 := 1#32 <<< pow

/-- `align_mask_and[pow]`. -/
def alignMaskAnd (pow : Nat) : BitVec 32 := 0xffffffff#32 <<< pow

/-- `nextAlignAddress`; none where its `ASSERT` stops the program. -/
def nextAlignAddress (addr : BitVec 64) (align : BitVec 32) : Option (BitVec 64) :=
  if align = 0 ∨ align = 1 ∨ addr = 0 then some addr
  else if addr < align.setWidth 64 then some (align.setWidth 64)
  else if isPowerOfTwo align then
    let pow := align.toNat.log2
    let aligned := addr &&& (alignMaskAnd pow).setWidth 64
    some (if aligned < addr then aligned + (alignMaskOr pow).setWidth 64 else aligned)
  else none

/-- What the helpers for fixed alignments have in common. -/
def nextAlignAddressShift (k : Nat) (addr : BitVec 64) : BitVec 64 :=
  ((addr + if addr % 1#64 <<< k = 0 then 0 else 1#64 <<< k) >>> k) <<< k

/-- `nextAlignAddressHalfWord`. -/
def nextAlignAddressHalfWord (addr : BitVec 64) : BitVec 64 := nextAlignAddressShift 1 addr

/-- `nextAlignAddressWord`. -/
def nextAlignAddressWord (addr : BitVec 64) : BitVec 64 := nextAlignAddressShift 2 addr

/-- `nextAlignAddressDouble`. -/
def nextAlignAddressDouble (addr : BitVec 64) : BitVec 64 :=
  ((addr + if addr % 8 = 0 then 0 else 8) >>> 3) <<< 3

/-! ## Below 4 GiB -/

theorem isPowerOfTwo_of_toNat {n : BitVec 32} {k : Nat} (hn : n.toNat = 2 ^ k) :
    k < 32 ∧ isPowerOfTwo n = true ∧ n = 1#32 <<< k := by
  have hk : k < 32 := (Nat.pow_lt_pow_iff_right (by decide)).mp (hn ▸ n.isLt)
  have heq : n = 1#32 <<< k := by
    refine BitVec.eq_of_toNat_eq ?_
    rw [BitVec.toNat_shiftLeft, hn, Nat.shiftLeft_eq, show (1#32).toNat = 1 from rfl, Nat.one_mul,
      Nat.mod_eq_of_lt (Nat.pow_lt_pow_right (by decide) hk)]
  refine ⟨hk, ?_, heq⟩
  rw [isPowerOfTwo, List.any_eq_true]
  exact ⟨k, List.mem_range.mpr hk, by rw [heq, beq_self_eq_true]⟩

/-- The mask clears the low bits, and the high half of which there is none here. -/
theorem and_alignMaskAnd {addr : BitVec 64} {k : Nat} (hlow : addr.toNat < 2 ^ 32) :
    (addr &&& (alignMaskAnd k).setWidth 64).toNat = addr.toNat / 2 ^ k * 2 ^ k := by
  refine Nat.eq_of_testBit_eq fun i => ?_
  have hhigh : 32 ≤ i → addr.toNat.testBit i = false := fun hi =>
    Nat.testBit_lt_two_pow (hlow.trans_le (Nat.pow_le_pow_right (by decide) hi))
  rw [Nat.testBit_mul_two_pow, Nat.testBit_div_two_pow, ← BitVec.getLsbD, BitVec.getLsbD_and,
    BitVec.getLsbD_setWidth, alignMaskAnd, BitVec.getLsbD_shiftLeft,
    show (0xffffffff#32) = BitVec.allOnes 32 from rfl, BitVec.getLsbD_allOnes]
  rcases Nat.lt_or_ge i k with hik | hik
  · rw [decide_eq_true hik, decide_eq_false (Nat.not_le.mpr hik)]
    simp
  · rw [Nat.sub_add_cancel hik, decide_eq_false (Nat.not_lt.mpr hik), decide_eq_true hik]
    rcases Nat.lt_or_ge i 32 with hi | hi
    · simp [hi, show i < 64 by omega, show i - k < 32 by omega, BitVec.getElem_eq_testBit_toNat]
    · simp [hhigh hi, BitVec.getLsbD]

/-- Below 4 GiB the masks lose nothing, and `nextAlignAddress` rounds up. -/
theorem nextAlignAddress_spec {addr : BitVec 64} {align : BitVec 32}
    (halign : IsAlignment align.toNat) (hlow : addr.toNat < 2 ^ 32) :
    ∃ r, nextAlignAddress addr align = some r ∧ r.toNat = roundUp align.toNat addr.toNat := by
  rw [nextAlignAddress]
  by_cases htrivial : align = 0 ∨ align = 1 ∨ addr = 0
  · refine ⟨addr, if_pos htrivial, ?_⟩
    rcases htrivial with rfl | rfl | rfl
    · exact (roundUp_zero_left _).symm
    · exact (roundUp_one _).symm
    · exact (roundUp_eq_self (Nat.dvd_zero _)).symm
  rw [if_neg htrivial]
  obtain ⟨halign0, -, haddr0⟩ := not_or.mp htrivial |>.imp_right not_or.mp
  have hpos : 0 < align.toNat := Nat.pos_of_ne_zero fun h => halign0 (BitVec.eq_of_toNat_eq h)
  have haddr : 0 < addr.toNat := Nat.pos_of_ne_zero fun h => haddr0 (BitVec.eq_of_toNat_eq h)
  have hwiden : (align.setWidth 64).toNat = align.toNat := by
    rw [BitVec.toNat_setWidth, Nat.mod_eq_of_lt (by omega)]
  by_cases hlt : addr < align.setWidth 64
  · refine ⟨align.setWidth 64, if_pos hlt, ?_⟩
    rw [BitVec.lt_def, hwiden] at hlt
    rw [hwiden]
    refine Nat.le_antisymm ?_ (roundUp_le hpos (Nat.dvd_refl _) hlt.le)
    exact Nat.le_of_dvd (Nat.lt_of_lt_of_le haddr (le_roundUp _ _)) (dvd_roundUp hpos _)
  rw [if_neg hlt]
  obtain ⟨k, hk⟩ := halign.resolve_left hpos.ne'
  obtain ⟨hk32, hpow, hshift⟩ := isPowerOfTwo_of_toNat hk
  rw [if_pos hpow]
  refine ⟨_, rfl, ?_⟩
  have hlog : align.toNat.log2 = k := by rw [hk, Nat.log2_two_pow]
  have hand := @and_alignMaskAnd addr k hlow
  simp only [hlog]
  rw [show alignMaskOr k = align from hshift.symm]
  have hfloor := Nat.div_mul_le_self addr.toNat (2 ^ k)
  by_cases hless : addr &&& (alignMaskAnd k).setWidth 64 < addr
  · -- not aligned: the next multiple
    rw [if_pos hless, BitVec.toNat_add, hand, hwiden, Nat.mod_eq_of_lt (by omega), hk]
    rw [BitVec.lt_def, hand] at hless
    refine (roundUp_of_not_dvd (Nat.two_pow_pos k) fun hdvd => ?_).symm
    exact absurd (Nat.div_mul_cancel hdvd) hless.ne
  · rw [if_neg hless, hand, hk]
    rw [BitVec.lt_def, hand] at hless
    have heq : addr.toNat / 2 ^ k * 2 ^ k = addr.toNat := by omega
    rw [heq]
    exact (roundUp_eq_self (heq ▸ Nat.dvd_mul_left ..)).symm

/-! ## The helpers -/

/-- The helper for double words is written out like the others. -/
theorem nextAlignAddressDouble_eq (addr : BitVec 64) :
    nextAlignAddressDouble addr = nextAlignAddressShift 3 addr := rfl

theorem nextAlignAddressShift_toNat {addr : BitVec 64} {k : Nat} (hk : k < 64)
    (hlow : addr.toNat + 2 ^ k < 2 ^ 64) :
    (nextAlignAddressShift k addr).toNat = roundUp (2 ^ k) addr.toNat := by
  have hshift : ∀ x : BitVec 64, ((x >>> k) <<< k).toNat = x.toNat / 2 ^ k * 2 ^ k := by
    intro x
    have hx := x.isLt
    have hfloor := Nat.div_mul_le_self x.toNat (2 ^ k)
    rw [BitVec.toNat_shiftLeft, BitVec.toNat_ushiftRight, Nat.shiftRight_eq_div_pow, Nat.shiftLeft_eq,
      Nat.mod_eq_of_lt (by omega)]
  have hone : (1#64 <<< k).toNat = 2 ^ k := by
    rw [BitVec.toNat_shiftLeft, Nat.shiftLeft_eq, show (1#64).toNat = 1 from rfl, Nat.one_mul,
      Nat.mod_eq_of_lt (Nat.pow_lt_pow_right (by decide) hk)]
  have hmod : addr % 1#64 <<< k = 0 ↔ 2 ^ k ∣ addr.toNat := by
    rw [← BitVec.toNat_inj, BitVec.toNat_umod, hone]
    exact Nat.dvd_iff_mod_eq_zero.symm
  rw [nextAlignAddressShift, hshift]
  by_cases hdvd : 2 ^ k ∣ addr.toNat
  · rw [if_pos (hmod.mpr hdvd), show addr + 0 = addr from BitVec.add_zero addr,
      Nat.div_mul_cancel hdvd, roundUp_eq_self hdvd]
  · rw [if_neg fun h => hdvd (hmod.mp h), BitVec.toNat_add, hone, Nat.mod_eq_of_lt hlow,
      roundUp_of_not_dvd (Nat.two_pow_pos k) hdvd, Nat.add_div_right _ (Nat.two_pow_pos k),
      Nat.succ_mul]

theorem nextAlignAddressDouble_toNat {addr : BitVec 64} (hlow : addr.toNat + 8 < 2 ^ 64) :
    (nextAlignAddressDouble addr).toNat = roundUp 8 addr.toNat := by
  exact nextAlignAddressShift_toNat (k := 3) (by decide) hlow

/-- Below 4 GiB a helper returns what `nextAlignAddress` does. -/
theorem nextAlignAddress_eq_shift {addr : BitVec 64} {align : BitVec 32} {k : Nat} (hk : k < 32)
    (halign : align.toNat = 2 ^ k) (hlow : addr.toNat < 2 ^ 32) :
    nextAlignAddress addr align = some (nextAlignAddressShift k addr) := by
  obtain ⟨r, hr, hround⟩ := nextAlignAddress_spec (.inr ⟨k, halign⟩) hlow
  have hpow : 2 ^ k < 2 ^ 32 := Nat.pow_lt_pow_right (by decide) hk
  have hshift := nextAlignAddressShift_toNat (k := k) (by omega)
    (show addr.toNat + 2 ^ k < 2 ^ 64 by omega)
  rw [hr, BitVec.eq_of_toNat_eq (hround.trans (halign ▸ hshift.symm))]

/-! ## From 4 GiB on -/

/-- What is left of an address, rounded up, is 4 GiB at most. -/
theorem roundUp_low_le {x k : Nat} (hk : k < 32) (hx : x < 2 ^ 32) :
    x / 2 ^ k * 2 ^ k + 2 ^ k ≤ 2 ^ 32 := by
  have hsplit : 2 ^ 32 = 2 ^ (32 - k) * 2 ^ k := by rw [← Nat.pow_add, Nat.sub_add_cancel hk.le]
  have hquotient : x / 2 ^ k < 2 ^ (32 - k) :=
    (Nat.div_lt_iff_lt_mul (Nat.two_pow_pos k)).mpr (hsplit ▸ hx)
  calc x / 2 ^ k * 2 ^ k + 2 ^ k = (x / 2 ^ k + 1) * 2 ^ k := (Nat.succ_mul ..).symm
    _ ≤ 2 ^ (32 - k) * 2 ^ k := Nat.mul_le_mul_right _ hquotient
    _ = 2 ^ 32 := hsplit.symm

/-- From 4 GiB on the result is below the address, unless nothing is asked for. -/
theorem nextAlignAddress_of_high {addr : BitVec 64} {align : BitVec 32} {k : Nat} (hk : 0 < k)
    (halign : align.toNat = 2 ^ k) (hhigh : 2 ^ 32 ≤ addr.toNat) :
    ∃ r, nextAlignAddress addr align = some r ∧ 0 < r.toNat ∧ r.toNat < addr.toNat := by
  obtain ⟨hk32, hpow, hshift⟩ := isPowerOfTwo_of_toNat halign
  have hsmall := align.isLt
  have htwo : 2 ≤ 2 ^ k := Nat.le_self_pow hk.ne' 2
  have hwiden : (align.setWidth 64).toNat = 2 ^ k := by
    rw [BitVec.toNat_setWidth, halign, Nat.mod_eq_of_lt (by omega)]
  have htrivial : ¬ (align = 0 ∨ align = 1 ∨ addr = 0) := by
    rintro (rfl | rfl | rfl)
    · simp at halign
      omega
    · simp at halign
      omega
    · simp at hhigh
  have hlt : ¬ addr < align.setWidth 64 := by
    rw [BitVec.lt_def, hwiden]
    omega
  -- the mask takes the high half away, and with it what was to be rounded
  have hhalf : addr &&& (alignMaskAnd k).setWidth 64 =
      (addr.setWidth 32).setWidth 64 &&& (alignMaskAnd k).setWidth 64 := by
    ext i hi
    simp only [BitVec.getElem_and, BitVec.getElem_setWidth, BitVec.getLsbD_setWidth]
    by_cases hi32 : i < 32
    · simp [hi32, BitVec.getLsbD_eq_getElem hi]
    · simp [BitVec.getLsbD_of_ge _ i (Nat.not_lt.mp hi32)]
  have hnat : ((addr.setWidth 32).setWidth 64).toNat = addr.toNat % 2 ^ 32 := by
    rw [BitVec.toNat_setWidth, BitVec.toNat_setWidth]
    omega
  have hand : (addr &&& (alignMaskAnd k).setWidth 64).toNat =
      addr.toNat % 2 ^ 32 / 2 ^ k * 2 ^ k := by
    rw [hhalf, and_alignMaskAnd (by rw [hnat]; omega), hnat]
  have hfloor := Nat.div_mul_le_self (addr.toNat % 2 ^ 32) (2 ^ k)
  have hless : addr &&& (alignMaskAnd k).setWidth 64 < addr := by
    rw [BitVec.lt_def, hand]
    omega
  rw [nextAlignAddress, if_neg htrivial, if_neg hlt, if_pos hpow]
  have hle := roundUp_low_le hk32 (Nat.mod_lt addr.toNat (Nat.two_pow_pos 32))
  have hsum : ((addr &&& (alignMaskAnd k).setWidth 64) + align.setWidth 64).toNat =
      addr.toNat % 2 ^ 32 / 2 ^ k * 2 ^ k + 2 ^ k := by
    rw [BitVec.toNat_add, hand, hwiden, Nat.mod_eq_of_lt (by omega)]
  refine ⟨(addr &&& (alignMaskAnd k).setWidth 64) + align.setWidth 64, ?_, ?_, ?_⟩
  · simp only [show align.toNat.log2 = k by rw [halign, Nat.log2_two_pow]]
    rw [show alignMaskOr k = align from hshift.symm, if_pos hless]
  · omega
  · rcases Nat.eq_or_lt_of_le hhigh with heq | hgt
    · -- at 4 GiB nothing is left of the address
      rw [hsum, ← heq, Nat.mod_self, Nat.zero_div, Nat.zero_mul, Nat.zero_add]
      omega
    · omega

/-! ## Every address -/

/-- The result for an address and an alignment is the least multiple from the address on, and the
helpers return what `nextAlignAddress` does. -/
structure AlignsRight (addr : BitVec 64) (align : BitVec 32) : Prop where
  least : ∃ r, nextAlignAddress addr align = some r ∧
    IsLeast {m | align.toNat ∣ m ∧ addr.toNat ≤ m} r.toNat
  halfWord : nextAlignAddress addr 2 = some (nextAlignAddressHalfWord addr)
  word : nextAlignAddress addr 4 = some (nextAlignAddressWord addr)
  double : nextAlignAddress addr 8 = some (nextAlignAddressDouble addr)

theorem toNat_alignment (k : Fin 32) : (1#32 <<< k.val).toNat = 2 ^ k.val := by
  rw [BitVec.toNat_shiftLeft, Nat.shiftLeft_eq, show (1#32).toNat = 1 from rfl, Nat.one_mul,
    Nat.mod_eq_of_lt (Nat.pow_lt_pow_right (by decide) k.isLt)]

/-- The least multiple is returned below 4 GiB only, unless nothing is asked for. -/
theorem nextAlignAddress_least_iff (addr : BitVec 64) (k : Fin 32) :
    (∃ r, nextAlignAddress addr (1#32 <<< k.val) = some r ∧
      IsLeast {m | (1#32 <<< k.val).toNat ∣ m ∧ addr.toNat ≤ m} r.toNat) ↔
        k = 0 ∨ addr.toNat < 2 ^ 32 := by
  have halign := toNat_alignment k
  have hleast := isLeast_roundUp (Nat.two_pow_pos k.val) addr.toNat
  simp only [halign]
  constructor
  · rintro ⟨r, hr, hle⟩
    by_contra hnot
    obtain ⟨hk, hhigh⟩ := not_or.mp hnot
    have hpos : 0 < k.val := Nat.pos_of_ne_zero fun h => hk (Fin.ext h)
    obtain ⟨r', hr', -, hlt⟩ := nextAlignAddress_of_high hpos halign (Nat.not_lt.mp hhigh)
    obtain rfl := Option.some.inj (hr.symm.trans hr')
    exact absurd hle.1.2 (Nat.not_le.mpr hlt)
  · rintro (rfl | hlow)
    · refine ⟨addr, ?_, ?_⟩
      · simp [nextAlignAddress]
      · simpa [roundUp_one] using hleast
    · obtain ⟨r, hr, hround⟩ := nextAlignAddress_spec (.inr ⟨k, halign⟩) hlow
      refine ⟨r, hr, ?_⟩
      rw [hround, halign]
      exact hleast

/-- The helper for half words goes on rounding up. -/
theorem nextAlignAddress_ne_halfWord {addr : BitVec 64} (hhigh : 2 ^ 32 ≤ addr.toNat) :
    nextAlignAddress addr 2 ≠ some (nextAlignAddressHalfWord addr) := by
  intro h
  obtain ⟨r, hr, hpos, hlt⟩ :=
    nextAlignAddress_of_high (k := 1) (by decide) (show (2 : BitVec 32).toNat = 2 ^ 1 from rfl) hhigh
  obtain rfl := Option.some.inj (hr.symm.trans h)
  by_cases hlow : addr.toNat + 2 ^ 1 < 2 ^ 64
  · rw [nextAlignAddressHalfWord, nextAlignAddressShift_toNat (by decide) hlow] at hlt
    exact absurd (le_roundUp _ _) (Nat.not_le.mpr hlt)
  · -- the last two addresses: the one is its own half word, the other one has none
    have haddr : addr = 0xffffffffffffffff ∨ addr = 0xfffffffffffffffe := by
      have hmax := addr.isLt
      rcases (by omega : addr.toNat = 2 ^ 64 - 1 ∨ addr.toNat = 2 ^ 64 - 2) with h | h
      · exact .inl (BitVec.eq_of_toNat_eq h)
      · exact .inr (BitVec.eq_of_toNat_eq h)
    rcases haddr with rfl | rfl
    · exact absurd hpos (by decide)
    · exact absurd hlt (by decide)

/-- **Aligning an address is right below 4 GiB and nowhere else.** -/
theorem alignsRight_iff (addr : BitVec 64) (k : Fin 32) :
    AlignsRight addr (1#32 <<< k.val) ↔ addr.toNat < 2 ^ 32 := by
  constructor
  · intro h
    by_contra hnot
    exact nextAlignAddress_ne_halfWord (Nat.not_lt.mp hnot) h.halfWord
  · intro hlow
    exact
      { least := (nextAlignAddress_least_iff addr k).mpr (.inr hlow)
        halfWord := nextAlignAddress_eq_shift (k := 1) (by decide) rfl hlow
        word := nextAlignAddress_eq_shift (k := 2) (by decide) rfl hlow
        double := nextAlignAddress_eq_shift (k := 3) (by decide) rfl hlow }

/-- An address above 4 GiB is aligned to a page of the first 4 GiB. -/
theorem not_alignsRight_high : ¬ AlignsRight 0x7f0000001001 0x1000 := by
  rintro ⟨⟨r, hr, hleast⟩, -, -, -⟩
  have hvalue : nextAlignAddress 0x7f0000001001 0x1000 = some 0x2000 := by decide
  obtain rfl := Option.some.inj (hvalue.symm.trans hr)
  exact absurd hleast.1.2 (by decide)

end Pebil

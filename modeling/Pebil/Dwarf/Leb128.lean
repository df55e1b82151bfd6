import Pebil.Lib.Leb128

/-!
# Reading LEB128 operands (include/CStructuresDwarf.h:50–87)

Both readers shift the payload of a byte as an `int`: the shift count of the
machine is taken modulo 32, the shifted value is sign extended to 64 bits when it
is or-ed into the result, and the signed reader extends the sign only while the
shift stays below 32. So the unsigned reader is right below `2 ^ 31`
(`getLeb128Unsigned_eq`), and the signed one for 32-bit values that take at most
five bytes when they are negative (`getLeb128Signed_eq`).
-/

namespace Pebil

open Leb128 (Byte)

/-- `(byte & 0x7f) << shift`, an `int`, converted to 64 bits. -/
def lebTerm (b : Byte) (shift : Nat) : BitVec 64 :=
  (((b &&& 0x7f#8).setWidth 32) <<< (shift % 32)).signExtend 64

/-- The loop of `dwarf4_get_leb128_unsigned`; `none` when the bytes end. -/
def leb128UnsignedFrom (ret : BitVec 64) (shift len : Nat) : List Byte →
    Option (BitVec 64 × Nat)
  | [] => none
  | b :: bytes =>
    let ret' := ret ||| lebTerm b shift
    if b &&& 0x80#8 ≠ 0 then leb128UnsignedFrom ret' (shift + 7) (len + 1) bytes
    else some (ret', len + 1)

/-- `dwarf4_get_leb128_unsigned`: the number and its length. -/
def getLeb128Unsigned (bytes : List Byte) : Option (BitVec 64 × Nat) :=
  leb128UnsignedFrom 0 0 0 bytes

/-- The loop of `dwarf4_get_leb128_signed`, with the sign extension that follows
it: `ret |= -(1 << shift)` when `shift < 32`. -/
def leb128SignedFrom (ret : BitVec 64) (shift len : Nat) : List Byte →
    Option (BitVec 64 × Nat)
  | [] => none
  | b :: bytes =>
    let ret' := ret ||| lebTerm b shift
    if b &&& 0x80#8 ≠ 0 then leb128SignedFrom ret' (shift + 7) (len + 1) bytes
    else if shift + 7 < 32 ∧ b &&& 0x40#8 ≠ 0 then
      some (ret' ||| (-(1#32 <<< (shift + 7))).signExtend 64, len + 1)
    else some (ret', len + 1)

/-- `dwarf4_get_leb128_signed`: the number and its length. -/
def getLeb128Signed (bytes : List Byte) : Option (BitVec 64 × Nat) :=
  leb128SignedFrom 0 0 0 bytes

/-! ## Bits of a byte -/

theorem byte_payload (b : Byte) : (b &&& 0x7f#8).toNat = b.toNat % 128 := by
  rw [BitVec.toNat_and]
  exact Nat.and_two_pow_sub_one_eq_mod b.toNat 7

theorem byte_continues (b : Byte) : b &&& 0x80#8 ≠ 0 ↔ 128 ≤ b.toNat := by
  revert b
  decide

theorem byte_sign (b : Byte) : b &&& 0x40#8 ≠ 0 ↔ 64 ≤ b.toNat % 128 := by
  revert b
  decide

/-- Or-ing in bits above `shift` adds. -/
theorem or_high_eq_add {a shift : Nat} (h : a < 2 ^ shift) (c : Nat) :
    a ||| 2 ^ shift * c = a + 2 ^ shift * c := by
  rw [Nat.or_comm, ← Nat.two_pow_add_eq_or_of_lt h, Nat.add_comm]

/-! ## The unsigned reader -/

/-- A payload that stays below bit 31 is shifted exactly. -/
theorem toNat_lebTerm {b : Byte} {shift : Nat} (h : 2 ^ shift * (b.toNat % 128) < 2 ^ 31) :
    (lebTerm b shift).toNat = 2 ^ shift * (b.toNat % 128) := by
  unfold lebTerm
  rw [BitVec.toNat_signExtend, BitVec.msb_eq_decide]
  simp only [BitVec.toNat_setWidth, BitVec.toNat_shiftLeft, byte_payload, Nat.shiftLeft_eq,
    decide_eq_true_eq]
  by_cases h0 : b.toNat % 128 = 0
  · simp [h0]
  · have hlt : shift < 31 := by
      by_contra hge
      have : 2 ^ 31 ≤ 2 ^ shift := Nat.pow_le_pow_right (by decide) (by omega)
      have : 2 ^ shift * 1 ≤ 2 ^ shift * (b.toNat % 128) := Nat.mul_le_mul_left _ (by omega)
      omega
    rw [Nat.mod_eq_of_lt (by omega : shift < 32), Nat.mul_comm]
    have hsmall : b.toNat % 128 % 2 ^ 32 = b.toNat % 128 := by omega
    rw [hsmall]
    generalize 2 ^ shift * (b.toNat % 128) = x at h
    rw [if_neg (by omega)]
    omega

theorem leb128UnsignedFrom_eq : ∀ {bytes : List Byte} (ret : BitVec 64) (shift len : Nat)
    {v n : Nat}, Leb128.unsigned bytes = some (v, n) → ret.toNat < 2 ^ shift → 2 ^ shift * v < 2 ^ 31 →
    ∃ r, leb128UnsignedFrom ret shift len bytes = some (r, len + n) ∧
      r.toNat = ret.toNat + 2 ^ shift * v := by
  intro bytes
  induction bytes with
  | nil => intro ret shift len v n h; simp [Leb128.unsigned] at h
  | cons b bytes ih =>
    intro ret shift len v n h hret hv
    unfold Leb128.unsigned at h
    unfold leb128UnsignedFrom
    have hb := b.isLt
    split at h
    · rename_i hlast
      simp only [Option.some.injEq, Prod.mk.injEq] at h
      obtain ⟨rfl, rfl⟩ := h
      have hterm : (lebTerm b shift).toNat = 2 ^ shift * b.toNat := by
        rw [toNat_lebTerm] <;> rw [Nat.mod_eq_of_lt hlast]
        exact hv
      refine ⟨ret ||| lebTerm b shift, ?_, ?_⟩
      · rw [if_neg (by rw [byte_continues]; omega)]
      · rw [BitVec.toNat_or, hterm, or_high_eq_add hret]
    · rename_i hcont
      obtain ⟨⟨v', n'⟩, hrec, heq⟩ := Option.map_eq_some_iff.mp h
      simp only [Prod.mk.injEq] at heq
      obtain ⟨rfl, rfl⟩ := heq
      have hmod : b.toNat - 128 = b.toNat % 128 := by omega
      have hpow : 2 ^ (shift + 7) = 2 ^ shift * 128 := by rw [Nat.pow_add]
      rw [hmod, Nat.mul_add, ← Nat.mul_assoc, ← hpow] at hv
      have hterm : (lebTerm b shift).toNat = 2 ^ shift * (b.toNat % 128) :=
        toNat_lebTerm (by omega)
      have hret' : (ret ||| lebTerm b shift).toNat = ret.toNat + 2 ^ shift * (b.toNat % 128) := by
        rw [BitVec.toNat_or, hterm, or_high_eq_add hret]
      have hlt : (ret ||| lebTerm b shift).toNat < 2 ^ (shift + 7) := by
        have : 2 ^ shift * (b.toNat % 128) ≤ 2 ^ shift * 127 := Nat.mul_le_mul_left _ (by omega)
        rw [hret', hpow]
        omega
      obtain ⟨r, hr, hval⟩ := ih _ _ (len + 1) hrec hlt (by omega)
      refine ⟨r, ?_, ?_⟩
      · rw [if_pos ((byte_continues b).mpr (by omega)), hr, Nat.add_assoc len,
          Nat.add_comm 1]
      · rw [hval, hret', hmod, Nat.mul_add, ← Nat.mul_assoc, ← hpow]
        omega

/-- The unsigned reader is right on every encoding of a number below `2 ^ 31`. -/
theorem getLeb128Unsigned_eq {bytes : List Byte} {v n : Nat}
    (h : Leb128.unsigned bytes = some (v, n)) (hv : v < 2 ^ 31) :
    getLeb128Unsigned bytes = some (BitVec.ofNat 64 v, n) := by
  obtain ⟨r, hr, hval⟩ := leb128UnsignedFrom_eq 0 0 0 h
    (by decide) (by omega)
  have : r = BitVec.ofNat 64 v := by
    apply BitVec.eq_of_toNat_eq
    rw [hval, BitVec.toNat_ofNat]
    simp
    omega
  rw [getLeb128Unsigned, hr, this, Nat.zero_add]

/-- Whatever the value, the unsigned reader consumes the encoding. -/
theorem leb128UnsignedFrom_len : ∀ {bytes : List Byte} (ret : BitVec 64) (shift len : Nat)
    {v n : Nat}, Leb128.unsigned bytes = some (v, n) →
    ∃ r, leb128UnsignedFrom ret shift len bytes = some (r, len + n) := by
  intro bytes
  induction bytes with
  | nil => intro ret shift len v n h; simp [Leb128.unsigned] at h
  | cons b bytes ih =>
    intro ret shift len v n h
    unfold Leb128.unsigned at h
    unfold leb128UnsignedFrom
    split at h
    · simp only [Option.some.injEq, Prod.mk.injEq] at h
      refine ⟨ret ||| lebTerm b shift, ?_⟩
      rw [if_neg (by rw [byte_continues]; omega), ← h.2]
    · obtain ⟨⟨v', n'⟩, hrec, heq⟩ := Option.map_eq_some_iff.mp h
      simp only [Prod.mk.injEq] at heq
      obtain ⟨rfl, rfl⟩ := heq
      obtain ⟨r, hr⟩ := ih (ret ||| lebTerm b shift) (shift + 7) (len + 1) hrec
      refine ⟨r, ?_⟩
      rw [if_pos ((byte_continues b).mpr (by omega)), hr, Nat.add_assoc len,
        Nat.add_comm 1]

/-! ## The signed reader -/

/-- While the sign is not extended, the signed reader is the unsigned one. -/
theorem leb128SignedFrom_eq_unsigned : ∀ {bytes : List Byte} {v : Int} {n : Nat},
    Leb128.signed bytes = some (v, n) → 0 ≤ v → ∀ {ret : BitVec 64} {shift len : Nat},
    leb128SignedFrom ret shift len bytes = leb128UnsignedFrom ret shift len bytes := by
  intro bytes
  induction bytes with
  | nil => intro v n h; simp [Leb128.signed] at h
  | cons b bytes ih =>
    intro v n h hv ret shift len
    unfold Leb128.signed at h
    unfold leb128SignedFrom leb128UnsignedFrom
    split at h
    · have hlast : ¬ b &&& 0x80#8 ≠ 0 := by rw [byte_continues]; omega
      have hsign : ¬ b &&& 0x40#8 ≠ 0 := by rw [byte_sign]; omega
      rw [if_neg hlast, if_neg hlast, if_neg (fun h => hsign h.2)]
    · split at h
      · simp only [Option.some.injEq, Prod.mk.injEq] at h
        omega
      · obtain ⟨⟨v', n'⟩, hrec, heq⟩ := Option.map_eq_some_iff.mp h
        simp only [Prod.mk.injEq] at heq
        have hcont : b &&& 0x80#8 ≠ 0 := by rw [byte_continues]; omega
        rw [if_pos hcont, if_pos hcont]
        exact ih hrec (by omega)

/-- The fifth byte of a negative number of 32 bits: its low four bits are bits 28
to 31, and the conversion to 64 bits extends the sign. -/
theorem toNat_lebTerm_fifth {b : Byte} (h : 120 ≤ b.toNat % 128) :
    (lebTerm b 28).toNat = 2 ^ 28 * (b.toNat % 128 + (2 ^ 36 - 128)) := by
  unfold lebTerm
  rw [BitVec.toNat_signExtend, BitVec.msb_eq_decide]
  simp only [BitVec.toNat_setWidth, BitVec.toNat_shiftLeft, byte_payload, Nat.shiftLeft_eq,
    Nat.reduceMod, Nat.reducePow, decide_eq_true_eq]
  have := b.isLt
  rw [if_pos (by omega)]
  omega

/-- `-(1 << shift)` in 64 bits, for the shifts at which the sign is extended. -/
theorem toNat_signBits {shift : Nat} (h : shift ∈ [7, 14, 21, 28]) :
    ((-(1#32 <<< shift)).signExtend 64).toNat = 2 ^ shift * (2 ^ (64 - shift) - 1) := by
  revert h
  simp only [List.mem_cons, List.not_mem_nil, or_false]
  rintro (rfl | rfl | rfl | rfl) <;> decide

theorem leb128SignedFrom_neg : ∀ {bytes : List Byte} (ret : BitVec 64) (shift len : Nat)
    {n : Nat} {v : Int}, Leb128.signed bytes = some (v, n) → shift ∈ [0, 7, 14, 21, 28] →
    shift + 7 * n ≤ 35 → ret.toNat < 2 ^ shift → v < 0 → -2 ^ 31 ≤ 2 ^ shift * v →
    ∃ r, leb128SignedFrom ret shift len bytes = some (r, len + n) ∧
      (r.toNat : Int) = 2 ^ 64 + ret.toNat + 2 ^ shift * v := by
  intro bytes
  induction bytes with
  | nil => intro ret shift len n v h; simp [Leb128.signed] at h
  | cons b bytes ih =>
    intro ret shift len n v h hshift hn hret hv hrange
    unfold Leb128.signed at h
    unfold leb128SignedFrom
    have hb := b.isLt
    split at h
    · simp only [Option.some.injEq, Prod.mk.injEq] at h
      omega
    · split at h
      · rename_i hsign hlast
        simp only [Option.some.injEq, Prod.mk.injEq] at h
        obtain ⟨rfl, rfl⟩ := h
        have hstop : ¬ b &&& 0x80#8 ≠ 0 := by rw [byte_continues]; omega
        rw [if_neg hstop]
        by_cases hfifth : shift = 28
        · -- the fifth byte: the sign comes from bit 31 of the shifted payload
          subst hfifth
          rw [if_neg (by omega)]
          refine ⟨_, rfl, ?_⟩
          rw [BitVec.toNat_or, toNat_lebTerm_fifth (by omega), or_high_eq_add hret]
          omega
        · have hshift7 : shift + 7 ∈ [7, 14, 21, 28] := by
            simp only [List.mem_cons, List.not_mem_nil, or_false] at hshift ⊢
            omega
          have hsgn : b &&& 0x40#8 ≠ 0 := by rw [byte_sign]; omega
          have hsmall : shift ≤ 21 := by
            simp only [List.mem_cons, List.not_mem_nil, or_false] at hshift
            omega
          have hpow : 2 ^ shift ≤ 2 ^ 21 := Nat.pow_le_pow_right (by decide) hsmall
          have hmod : b.toNat % 128 = b.toNat := by omega
          have hterm : (lebTerm b shift).toNat = 2 ^ shift * b.toNat := by
            rw [toNat_lebTerm] <;> rw [hmod]
            have : 2 ^ shift * b.toNat ≤ 2 ^ 21 * b.toNat := Nat.mul_le_mul_right _ hpow
            omega
          have hret' : (ret ||| lebTerm b shift).toNat = ret.toNat + 2 ^ shift * b.toNat := by
            rw [BitVec.toNat_or, hterm, or_high_eq_add hret]
          have hlt : (ret ||| lebTerm b shift).toNat < 2 ^ (shift + 7) := by
            rw [hret', Nat.pow_add]
            have : 2 ^ shift * b.toNat ≤ 2 ^ shift * 127 := Nat.mul_le_mul_left _ (by omega)
            omega
          rw [if_pos ⟨by omega, hsgn⟩]
          refine ⟨_, rfl, ?_⟩
          rw [BitVec.toNat_or, toNat_signBits hshift7, or_high_eq_add hlt, hret']
          simp only [List.mem_cons, List.not_mem_nil, or_false] at hshift
          rcases hshift with rfl | rfl | rfl | rfl | rfl <;> omega
      · obtain ⟨⟨v', n'⟩, hrec, heq⟩ := Option.map_eq_some_iff.mp h
        simp only [Prod.mk.injEq] at heq
        obtain ⟨rfl, rfl⟩ := heq
        have hn' := Leb128.signed_len_pos hrec
        have hcont : b &&& 0x80#8 ≠ 0 := by rw [byte_continues]; omega
        have hmod : b.toNat % 128 = b.toNat - 128 := by omega
        rw [if_pos hcont]
        have hterm : (lebTerm b shift).toNat = 2 ^ shift * (b.toNat % 128) := by
          apply toNat_lebTerm
          have hpow : 2 ^ shift ≤ 2 ^ 21 := Nat.pow_le_pow_right (by decide) (by omega)
          have : 2 ^ shift * (b.toNat % 128) ≤ 2 ^ 21 * (b.toNat % 128) :=
            Nat.mul_le_mul_right _ hpow
          omega
        have hret' : (ret ||| lebTerm b shift).toNat =
            ret.toNat + 2 ^ shift * (b.toNat - 128) := by
          rw [BitVec.toNat_or, hterm, or_high_eq_add hret, hmod]
        have hlt : (ret ||| lebTerm b shift).toNat < 2 ^ (shift + 7) := by
          rw [hret', Nat.pow_add]
          have : 2 ^ shift * (b.toNat - 128) ≤ 2 ^ shift * 127 :=
            Nat.mul_le_mul_left _ (by omega)
          omega
        simp only [List.mem_cons, List.not_mem_nil, or_false] at hshift
        obtain ⟨r, hr, hval⟩ := ih (ret ||| lebTerm b shift) (shift + 7) (len + 1) hrec
          (by simp only [List.mem_cons, List.not_mem_nil, or_false]; omega) (by omega) hlt
          (by omega) (by rcases hshift with rfl | rfl | rfl | rfl | rfl <;> omega)
        refine ⟨r, ?_, ?_⟩
        · rw [hr, Nat.add_assoc len, Nat.add_comm 1]
        · rw [hval, hret']
          rcases hshift with rfl | rfl | rfl | rfl | rfl <;> omega

/-- The signed reader is right on 32-bit values, encoded in at most five bytes when
they are negative. -/
theorem getLeb128Signed_eq {bytes : List Byte} {v : Int} {n : Nat}
    (h : Leb128.signed bytes = some (v, n)) (hlo : -2 ^ 31 ≤ v) (hhi : v < 2 ^ 31)
    (hlen : v < 0 → n ≤ 5) :
    getLeb128Signed bytes = some (BitVec.ofInt 64 v, n) := by
  unfold getLeb128Signed
  by_cases hv : 0 ≤ v
  · obtain ⟨u, rfl⟩ := Int.eq_ofNat_of_zero_le hv
    have hu := getLeb128Unsigned_eq (Leb128.unsigned_of_signed_nonneg h hv) (by omega)
    rw [leb128SignedFrom_eq_unsigned h hv]
    rw [getLeb128Unsigned, Int.toNat_natCast] at hu
    rw [hu, BitVec.ofInt_natCast]
  · obtain ⟨r, hr, hval⟩ := leb128SignedFrom_neg 0 0 0 h
      (by simp) (by have := hlen (by omega); omega) (by decide) (by omega) (by omega)
    have : r = BitVec.ofInt 64 v := by
      apply BitVec.eq_of_toNat_eq
      rw [BitVec.toNat_ofInt]
      have := r.isLt
      simp only [BitVec.ofNat_eq_ofNat, BitVec.toNat_ofNat] at hval
      omega
    rw [hr, this, Nat.zero_add]

end Pebil

import Mathlib.Data.Nat.Bitwise

/-!
# LEB128 numbers

A LEB128 number is a byte string, seven payload bits a byte from the low end, in
which every byte but the last has its high bit set. The value of the unsigned
form is the payload; the signed form takes the top payload bit of the last byte
as its sign. A number may be encoded in more bytes than it needs.
-/

namespace Pebil.Leb128

/-- A byte. -/
abbrev Byte := BitVec 8

/-- The unsigned number at the start of `bytes` and the number of bytes it takes;
`none` when they end inside it. -/
def unsigned : List Byte → Option (Nat × Nat)
  | [] => none
  | b :: bytes =>
    if b.toNat < 128 then some (b.toNat, 1)
    else (unsigned bytes).map fun (v, len) => (b.toNat - 128 + 128 * v, len + 1)

/-- The signed number at the start of `bytes` and the number of bytes it takes. -/
def signed : List Byte → Option (Int × Nat)
  | [] => none
  | b :: bytes =>
    if b.toNat < 64 then some (b.toNat, 1)
    else if b.toNat < 128 then some (b.toNat - 128, 1)
    else (signed bytes).map fun (v, len) => (b.toNat - 128 + 128 * v, len + 1)

theorem unsigned_len_pos : ∀ {bytes : List Byte} {v len : Nat},
    unsigned bytes = some (v, len) → 0 < len := by
  intro bytes
  cases bytes with
  | nil => intro v len h; simp [unsigned] at h
  | cons b bytes =>
    intro v len h
    unfold unsigned at h
    split at h
    · simp only [Option.some.injEq, Prod.mk.injEq] at h
      omega
    · obtain ⟨⟨v', len'⟩, -, heq⟩ := Option.map_eq_some_iff.mp h
      simp only [Prod.mk.injEq] at heq
      omega

theorem signed_len_pos : ∀ {bytes : List Byte} {v : Int} {len : Nat},
    signed bytes = some (v, len) → 0 < len := by
  intro bytes
  cases bytes with
  | nil => intro v len h; simp [signed] at h
  | cons b bytes =>
    intro v len h
    unfold signed at h
    split at h
    · simp only [Option.some.injEq, Prod.mk.injEq] at h
      omega
    · split at h
      · simp only [Option.some.injEq, Prod.mk.injEq] at h
        omega
      · obtain ⟨⟨v', len'⟩, -, heq⟩ := Option.map_eq_some_iff.mp h
        simp only [Prod.mk.injEq] at heq
        omega

/-- A nonnegative signed number is the unsigned reading of the same bytes. -/
theorem unsigned_of_signed_nonneg : ∀ {bytes : List Byte} {v : Int} {len : Nat},
    signed bytes = some (v, len) → 0 ≤ v → unsigned bytes = some (v.toNat, len) := by
  intro bytes
  induction bytes with
  | nil => intro v len h; simp [signed] at h
  | cons b bytes ih =>
    intro v len h hv
    unfold signed at h
    unfold unsigned
    split at h
    · simp only [Option.some.injEq, Prod.mk.injEq] at h
      rw [if_pos (by omega)]
      simp only [Option.some.injEq, Prod.mk.injEq]
      omega
    · split at h
      · simp only [Option.some.injEq, Prod.mk.injEq] at h
        omega
      · obtain ⟨⟨v', len'⟩, hrec, heq⟩ := Option.map_eq_some_iff.mp h
        simp only [Prod.mk.injEq] at heq
        rw [if_neg (by omega), ih hrec (by omega)]
        simp only [Option.map_some, Option.some.injEq, Prod.mk.injEq]
        omega

end Pebil.Leb128

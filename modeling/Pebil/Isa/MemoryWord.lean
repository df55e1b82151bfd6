import Pebil.Isa.Machine

/-!
# Adding to a word in memory

An `add` to a memory operand writes back the low bytes of a sum, all eight of a word or four of
them. From the first byte of the summand that is not 0 on the bytes of the word change, and those
before it do not: the address of a word can be told from what an addition changed
(`eq_of_addAt_eq`).
-/

namespace Pebil

namespace Memory

/-- The low `n` bytes of `v` at `a`. -/
def writeLow (m : Memory) (n : Nat) (a v : BitVec 64) : Memory := fun b =>
  if (b - a).toNat < n then v.extractLsb' (8 * (b - a).toNat) 8 else m b

/-- `add` with an operand of `n` bytes at `a`. -/
def addAt (m : Memory) (n : Nat) (a v : BitVec 64) : Memory := m.writeLow n a (m.read a + v)

theorem addAt_eight (m : Memory) (a v : BitVec 64) : m.addAt 8 a v = m.write a (m.read a + v) := rfl

variable {m : Memory} {a b v w : BitVec 64} {n j k : Nat}

/-! ## Bytes -/

theorem extract_append_zero {x : BitVec n} {y : BitVec 8} :
    (x ++ y).extractLsb' (8 * 0) 8 = y := by
  rw [BitVec.extractLsb'_append_eq_of_add_le (by decide), BitVec.extractLsb'_eq_self]

theorem extract_append_succ {x : BitVec n} {y : BitVec 8} :
    (x ++ y).extractLsb' (8 * (k + 1)) 8 = x.extractLsb' (8 * k) 8 := by
  rw [BitVec.extractLsb'_append_eq_of_le (by omega), show 8 * (k + 1) - 8 = 8 * k by omega]

theorem read_byte (hk : k < 8) :
    (m.read a).extractLsb' (8 * k) 8 = m (a + BitVec.ofNat 64 k) := by
  unfold read
  obtain rfl | rfl | rfl | rfl | rfl | rfl | rfl | rfl : k = 0 ∨ k = 1 ∨ k = 2 ∨ k = 3 ∨ k = 4 ∨
    k = 5 ∨ k = 6 ∨ k = 7 := by omega
  · rw [extract_append_zero, show a + BitVec.ofNat 64 0 = a by simp]
  all_goals
    repeat rw [extract_append_succ]
    first
      | rw [extract_append_zero]
        rfl
      | exact BitVec.extractLsb'_eq_self

theorem writeLow_add (hk : k < 2 ^ 64) : m.writeLow n a v (a + BitVec.ofNat 64 k) =
    if k < n then v.extractLsb' (8 * k) 8 else m (a + BitVec.ofNat 64 k) := by
  unfold writeLow
  rw [offset_toNat a hk]

/-- Four bytes are those of the low half. -/
theorem writeLow_four (h : v.toNat % 2 ^ 32 = w.toNat % 2 ^ 32) :
    m.writeLow 4 a v = m.writeLow 4 a w := by
  funext b
  unfold writeLow
  generalize (b - a).toNat = k
  split
  · apply BitVec.eq_of_toNat_eq
    rw [BitVec.extractLsb'_toNat, BitVec.extractLsb'_toNat, Nat.shiftRight_eq_div_pow,
      Nat.shiftRight_eq_div_pow]
    obtain rfl | rfl | rfl | rfl : k = 0 ∨ k = 1 ∨ k = 2 ∨ k = 3 := by omega
    all_goals omega
  · rfl

/-- An address is another one and the distance to it. -/
theorem eq_add_distance (a b : BitVec 64) : b = a + BitVec.ofNat 64 (b - a).toNat := by
  rw [BitVec.ofNat_toNat, BitVec.setWidth_eq, BitVec.add_comm, BitVec.sub_add_cancel]

theorem read_write (m : Memory) (a v : BitVec 64) : (m.write a v).read a = v :=
  read_of_write fun _ _ => rfl

theorem write_injective (h : m.write a v = m.write a w) : v = w := by
  rw [← read_write m a v, h, read_write]

/-! ## The first byte of a summand -/

/-- The bytes before byte `j`, one of the low four, are 0, and byte `j` is not. -/
structure FirstByte (v : BitVec 64) (j : Nat) : Prop where
  lt : j < 4
  below : v.toNat % 2 ^ (8 * j) = 0
  ne : v.toNat % 2 ^ (8 * (j + 1)) ≠ 0

theorem exists_firstByte (h : v.toNat % 2 ^ 32 ≠ 0) : ∃ j, FirstByte v j := by
  by_cases h0 : v.toNat % 2 ^ 8 = 0
  · by_cases h1 : v.toNat % 2 ^ 16 = 0
    · by_cases h2 : v.toNat % 2 ^ 24 = 0
      · exact ⟨3, by decide, h2, h⟩
      · exact ⟨2, by decide, h1, h2⟩
    · exact ⟨1, by decide, h0, h1⟩
  · exact ⟨0, by decide, Nat.mod_one _, h0⟩

/-- Only the low half of the summand matters. -/
theorem FirstByte.congr (h : FirstByte v j) (hlow : v.toNat % 2 ^ 32 = w.toNat % 2 ^ 32) :
    FirstByte w j := by
  obtain ⟨hlt, hbelow, hne⟩ := h
  refine ⟨hlt, ?_, ?_⟩
  · obtain rfl | rfl | rfl | rfl : j = 0 ∨ j = 1 ∨ j = 2 ∨ j = 3 := by omega
    all_goals omega
  · obtain rfl | rfl | rfl | rfl : j = 0 ∨ j = 1 ∨ j = 2 ∨ j = 3 := by omega
    all_goals omega

theorem toNat_byte (x : BitVec 64) :
    (x.extractLsb' (8 * k) 8).toNat = x.toNat / 2 ^ (8 * k) % 2 ^ 8 := by
  rw [BitVec.extractLsb'_toNat, Nat.shiftRight_eq_div_pow]

/-- An addition leaves the bytes before the first one of the summand alone. -/
theorem FirstByte.byte_add_of_lt (h : FirstByte v j) (x : BitVec 64) (hk : k < j) :
    (x + v).extractLsb' (8 * k) 8 = x.extractLsb' (8 * k) 8 := by
  obtain ⟨hlt, hbelow, -⟩ := h
  apply BitVec.eq_of_toNat_eq
  rw [toNat_byte, toNat_byte, BitVec.toNat_add]
  obtain rfl | rfl | rfl : j = 1 ∨ j = 2 ∨ j = 3 := by omega
  all_goals
    obtain rfl | rfl | rfl : k = 0 ∨ k = 1 ∨ k = 2 := by omega
    all_goals omega

/-- It changes the byte at the first one of the summand. -/
theorem FirstByte.byte_add_ne (h : FirstByte v j) (x : BitVec 64) :
    (x + v).extractLsb' (8 * j) 8 ≠ x.extractLsb' (8 * j) 8 := by
  obtain ⟨hlt, hbelow, hne⟩ := h
  intro heq
  have hbyte := congrArg BitVec.toNat heq
  rw [toNat_byte, toNat_byte, BitVec.toNat_add] at hbyte
  obtain rfl | rfl | rfl | rfl : j = 0 ∨ j = 1 ∨ j = 2 ∨ j = 3 := by omega
  all_goals omega

/-! ## What an addition changes -/

theorem addAt_changes (h : FirstByte v j) (hn : 4 ≤ n) :
    m.addAt n a v (a + BitVec.ofNat 64 j) ≠ m (a + BitVec.ofNat 64 j) := by
  have hj := h.lt
  rw [addAt, writeLow_add (by omega), if_pos (by omega), ← read_byte (m := m) (a := a) (by omega)]
  exact h.byte_add_ne _

/-- All bytes that change are from the first one of the summand on. -/
theorem exists_of_addAt_ne (h : FirstByte v j) (hn : n ≤ 8) (hne : m.addAt n a v b ≠ m b) :
    ∃ k, j ≤ k ∧ k < n ∧ b = a + BitVec.ofNat 64 k := by
  refine ⟨(b - a).toNat, ?_, ?_, eq_add_distance a b⟩
  · by_contra hlt
    have hj := h.lt
    apply hne
    rw [addAt, eq_add_distance a b, writeLow_add (BitVec.isLt _)]
    split
    · rw [h.byte_add_of_lt _ (by omega), read_byte (by omega)]
    · rfl
  · by_contra hout
    apply hne
    rw [addAt, writeLow, if_neg hout]

/-- **Two additions that change the same are at the same place**, if their summands begin with the
same byte. -/
theorem eq_of_addAt_eq {n' : Nat} (hv : FirstByte v j) (hw : FirstByte w j) (hn : 4 ≤ n ∧ n ≤ 8)
    (hn' : 4 ≤ n' ∧ n' ≤ 8) (h : m.addAt n b v = m.addAt n' a w) : b = a := by
  obtain ⟨i, hji, hi, hb⟩ := exists_of_addAt_ne hw hn'.2 (h ▸ addAt_changes hv hn.1)
  obtain ⟨i', hji', hi', ha⟩ := exists_of_addAt_ne hv hn.2 (h ▸ addAt_changes hw hn'.1)
  have hj := hv.lt
  have hb := congrArg BitVec.toNat hb
  have ha := congrArg BitVec.toNat ha
  simp only [BitVec.toNat_add, BitVec.toNat_ofNat, Nat.add_mod_mod] at hb ha
  -- the distances from one to the other and back cancel
  have hlta := a.isLt
  have hltb := b.isLt
  have hforth : b.toNat + j = a.toNat + i ∨ b.toNat + j + 2 ^ 64 = a.toNat + i ∨
      b.toNat + j = a.toNat + i + 2 ^ 64 := by omega
  have hback : a.toNat + j = b.toNat + i' ∨ a.toNat + j + 2 ^ 64 = b.toNat + i' ∨
      a.toNat + j = b.toNat + i' + 2 ^ 64 := by omega
  apply BitVec.eq_of_toNat_eq
  omega

theorem addAt_zero (hn : n ≤ 8) : m.addAt n a 0 = m := by
  have hsum : m.read a + 0 = m.read a := BitVec.add_zero _
  funext b
  rw [addAt, eq_add_distance a b, writeLow_add (BitVec.isLt _), hsum]
  split
  · exact read_byte (by omega)
  · rfl

/-! ## Four bytes -/

/-- A sum whose carry stops after four bytes. -/
def sumLow (x v : BitVec 64) : BitVec 64 :=
  BitVec.ofNat 64 (x.toNat / 2 ^ 32 * 2 ^ 32 + (x.toNat + v.toNat) % 2 ^ 32)

theorem toNat_sumLow (x v : BitVec 64) :
    (sumLow x v).toNat = x.toNat / 2 ^ 32 * 2 ^ 32 + (x.toNat + v.toNat) % 2 ^ 32 := by
  have hx := x.isLt
  rw [sumLow, BitVec.toNat_ofNat]
  omega

theorem addAt_four (m : Memory) (a v : BitVec 64) :
    m.addAt 4 a v = m.write a (sumLow (m.read a) v) := by
  have hx := (m.read a).isLt
  funext b
  rw [eq_add_distance a b, addAt, writeLow_add (BitVec.isLt _),
    write_apply (offset_toNat a (BitVec.isLt _))]
  generalize (b - a).toNat = k
  by_cases hk : k < 8
  · rw [if_pos hk, ← read_byte (m := m) (a := a) hk]
    obtain rfl | rfl | rfl | rfl | rfl | rfl | rfl | rfl : k = 0 ∨ k = 1 ∨ k = 2 ∨ k = 3 ∨ k = 4 ∨
      k = 5 ∨ k = 6 ∨ k = 7 := by omega
    all_goals
      apply BitVec.eq_of_toNat_eq
      simp only [if_true, if_false, toNat_byte, toNat_sumLow, BitVec.toNat_add, Nat.reduceLT]
      omega
  · rw [if_neg hk, if_neg (by omega)]

end Memory

end Pebil

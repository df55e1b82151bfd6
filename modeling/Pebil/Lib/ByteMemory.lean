import Mathlib.Algebra.Group.Nat.Defs
import Mathlib.Data.List.Basic
import Mathlib.Data.Nat.Bits

/-!
# Byte memories

A byte memory is a function from positions to bytes, which a file is too. A range is
read and written as a list of bytes; numbers are stored with the low byte first.
-/

namespace Pebil

/-- Bytes by position. -/
abbrev ByteMemory := Nat → BitVec 8

namespace ByteMemory

variable (m : ByteMemory)

/-- The `n` bytes from `a` on. -/
def read (a n : Nat) : List (BitVec 8) := (List.range n).map fun i => m (a + i)

/-- The memory with `bytes` from `a` on. -/
def write (a : Nat) (bytes : List (BitVec 8)) : ByteMemory := fun x =>
  if a ≤ x then (bytes[x - a]?).getD (m x) else m x

/-- The position is one of the `n` from `a` on. -/
def InRange (a n x : Nat) : Prop := a ≤ x ∧ x < a + n

/-- Two ranges have no position in common. -/
def Apart (a n b k : Nat) : Prop := a + n ≤ b ∨ b + k ≤ a

variable {m} {a b n x : Nat} {bytes bytes' : List (BitVec 8)}

theorem Apart.symm {k : Nat} (h : Apart a n b k) : Apart b k a n := Or.symm h

@[simp] theorem length_read : (m.read a n).length = n := by simp [read]

theorem getElem?_read {i : Nat} (hi : i < n) : (m.read a n)[i]? = some (m (a + i)) := by
  simp [read, hi]

/-- A range is read in two parts. -/
theorem read_add (a n k : Nat) : m.read a (n + k) = m.read a n ++ m.read (a + n) k := by
  simp [read, List.range_add, Function.comp_def, Nat.add_assoc]

theorem read_congr {m' : ByteMemory} (h : ∀ x, InRange a n x → m x = m' x) :
    m.read a n = m'.read a n := by
  refine List.map_congr_left fun i hi => h _ ⟨Nat.le_add_right a i, ?_⟩
  exact Nat.add_lt_add_left (List.mem_range.mp hi) a

theorem write_of_not_inRange (h : ¬InRange a bytes.length x) : m.write a bytes x = m x := by
  rw [write]
  split
  next hle =>
    have hlen : bytes.length ≤ x - a := by
      by_contra hlt
      exact h ⟨hle, by omega⟩
    rw [List.getElem?_eq_none hlen]
    rfl
  next => rfl

theorem write_of_getElem? {i : Nat} {v : BitVec 8} (h : bytes[i]? = some v) :
    m.write a bytes (a + i) = v := by
  rw [write, if_pos (Nat.le_add_right a i), Nat.add_sub_cancel_left, h]
  rfl

/-- What is written is read back. -/
@[simp] theorem read_write : (m.write a bytes).read a bytes.length = bytes := by
  refine List.ext_getElem? fun i => ?_
  by_cases hi : i < bytes.length
  · rw [getElem?_read hi, write_of_getElem? (List.getElem?_eq_getElem hi)]
    exact (List.getElem?_eq_getElem hi).symm
  · rw [List.getElem?_eq_none (by simpa using hi), List.getElem?_eq_none (by simpa using hi)]

/-- Writing what is there changes nothing. -/
@[simp] theorem write_read : m.write a (m.read a n) = m := by
  funext x
  by_cases hx : InRange a n x
  · obtain ⟨i, rfl⟩ := Nat.exists_eq_add_of_le hx.1
    exact write_of_getElem? (getElem?_read (Nat.lt_of_add_lt_add_left hx.2))
  · exact write_of_not_inRange (by rwa [length_read])

/-- A write to another range is not seen. -/
theorem read_write_of_apart (h : Apart a bytes.length b n) :
    (m.write a bytes).read b n = m.read b n := by
  refine read_congr fun x hx => write_of_not_inRange fun hx' => ?_
  unfold InRange at hx hx'
  unfold Apart at h
  omega

/-! ## Little-endian numbers -/

/-- The low `n` bytes of a number, the lowest first. -/
def littleEndian : Nat → Nat → List (BitVec 8)
  | 0, _ => []
  | n + 1, v => BitVec.ofNat 8 v :: littleEndian n (v / 256)

/-- The number that bytes store. -/
def ofLittleEndian : List (BitVec 8) → Nat
  | [] => 0
  | byte :: bytes => byte.toNat + 256 * ofLittleEndian bytes

@[simp] theorem length_littleEndian (n v : Nat) : (littleEndian n v).length = n := by
  induction n generalizing v with
  | zero => rfl
  | succ n ih => simp [littleEndian, ih]

/-- Only the low bytes count. -/
theorem littleEndian_mod (n v : Nat) : littleEndian n (v % 256 ^ n) = littleEndian n v := by
  induction n generalizing v with
  | zero => rfl
  | succ n ih =>
    have hbyte : BitVec.ofNat 8 (v % (256 * 256 ^ n)) = BitVec.ofNat 8 v :=
      BitVec.eq_of_toNat_eq (by
        rw [BitVec.toNat_ofNat, BitVec.toNat_ofNat]
        exact Nat.mod_mod_of_dvd v (Nat.dvd_mul_right 256 _))
    rw [littleEndian, littleEndian, Nat.pow_succ', hbyte, Nat.mod_mul_right_div_self, ih]

theorem ofLittleEndian_littleEndian (n v : Nat) :
    ofLittleEndian (littleEndian n v) = v % 256 ^ n := by
  induction n generalizing v with
  | zero => simp [littleEndian, ofLittleEndian, Nat.mod_one]
  | succ n ih =>
    rw [littleEndian, ofLittleEndian, ih, BitVec.toNat_ofNat, Nat.pow_succ' (n := n), Nat.mod_mul]

/-- A number that fits is read back. -/
theorem ofLittleEndian_of_lt {n v : Nat} (h : v < 256 ^ n) :
    ofLittleEndian (littleEndian n v) = v :=
  (ofLittleEndian_littleEndian n v).trans (Nat.mod_eq_of_lt h)

end ByteMemory

end Pebil

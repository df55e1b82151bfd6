import Mathlib.Algebra.Order.BigOperators.Group.List
import Mathlib.Data.BitVec
import Mathlib.Dynamics.PeriodicPts.Lemmas

/-!
# Symbol names and their two ELF hash functions (include/CStructuresElf.h:40–58)

A name is a C string: the bytes before the terminating NUL. `char` is signed on
the machines PEBIL runs on, so `elf_sysv_hash` adds a sign-extended byte, while
`elf_gnu_hash` reads the bytes through an `unsigned char`.

`exists_elfGnuHash_eq`: appending bytes walks through the residues modulo `2^32`
in a cycle, so every name shares its GNU hash with names outside any given list.
-/

namespace Pebil

/-- A C string, without its terminator. -/
structure CString where
  bytes : List (BitVec 8)
  nonzero : 0 ∉ bytes
  deriving DecidableEq, Repr

theorem CString.ext_bytes {s t : CString} (h : s.bytes = t.bytes) : s = t := by
  cases s
  cases t
  congr

namespace CString

/-- One round of `elf_sysv_hash`. -/
def elfSysvHashStep (h : BitVec 32) (c : BitVec 8) : BitVec 32 :=
  let h := (h <<< 4) + c.signExtend 32
  let g := h &&& 0xf0000000
  let h := if g ≠ 0 then h ^^^ (g >>> 24) else h
  h &&& ~~~g

/-- `elf_sysv_hash`. -/
def elfSysvHash (name : CString) : BitVec 32 := name.bytes.foldl elfSysvHashStep 0

/-- One round of `elf_gnu_hash`. -/
def elfGnuHashStep (h : BitVec 32) (c : BitVec 8) : BitVec 32 := h * 33 + c.setWidth 32

/-- `elf_gnu_hash`. -/
def elfGnuHash (name : CString) : BitVec 32 := name.bytes.foldl elfGnuHashStep 5381

/-! ## Collisions of the GNU hash -/

/-- Multiplying by 33 loses nothing modulo `2^32`: 1041204193 is its inverse there. -/
theorem elfGnuHashStep_injective (c : BitVec 8) :
    Function.Injective (elfGnuHashStep · c) := by
  intro x y h
  have hmul : x * 33 = y * 33 := by
    have := congrArg (· - c.setWidth 32) h
    simpa only [elfGnuHashStep, BitVec.add_sub_cancel] using this
  have hinv := congrArg (· * (1041204193 : BitVec 32)) hmul
  simpa only [mul_assoc, show (33 : BitVec 32) * 1041204193 = 1 by decide,
    mul_one] using hinv

/-- The name followed by `k` times the letter `A`. -/
def padded (name : CString) (k : Nat) : CString where
  bytes := name.bytes ++ List.replicate k 65
  nonzero := by
    rw [List.mem_append, not_or]
    refine ⟨name.nonzero, fun h => ?_⟩
    exact absurd (List.eq_of_mem_replicate h) (by decide)

theorem elfGnuHash_padded (name : CString) (k : Nat) :
    (name.padded k).elfGnuHash = (elfGnuHashStep · 65)^[k] name.elfGnuHash := by
  rw [elfGnuHash, padded, List.foldl_append]
  generalize hx : name.bytes.foldl elfGnuHashStep 5381 = x
  rw [elfGnuHash, hx]
  clear hx
  induction k generalizing x with
  | zero => rfl
  | succ k ih => exact ih (elfGnuHashStep x 65)

/-- Outside any list there is a name with a given name's GNU hash. -/
theorem exists_elfGnuHash_eq (name : CString) (names : List CString) :
    ∃ other, other ∉ names ∧ other.elfGnuHash = name.elfGnuHash := by
  have : Finite (BitVec 32) := Finite.of_injective BitVec.toFin BitVec.toFin_injective
  obtain ⟨p, hp, hperiod⟩ :=
    (elfGnuHashStep_injective 65).mem_periodicPts name.elfGnuHash
  -- longer than every listed name
  let k := (names.map fun s => s.bytes.length).sum + 1
  refine ⟨name.padded (p * k), fun hmem => ?_, ?_⟩
  · have hle := List.le_sum_of_mem (List.mem_map_of_mem (f := fun s : CString => s.bytes.length) hmem)
    have hlen : (name.padded (p * k)).bytes.length = name.bytes.length + p * k := by
      simp [padded]
    have hk : k ≤ p * k := Nat.le_mul_of_pos_left k hp
    omega
  · rw [elfGnuHash_padded]
    exact (hperiod.mul_const k).eq

end CString

end Pebil

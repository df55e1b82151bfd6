import Mathlib.Logic.Function.Basic
import Pebil.Lib.Bracket
import Pebil.Base.RegisterSet

/-!
# The machine, and code that saves its state

The state of the processor as far as inserted code can disturb it, and the
instructions that `X86InstructionFactory` emits around a snippet: `lea` on the stack
pointer, `push` and `pop`, `pushf` and `popf`, `lahf` and `sahf`, as the processor
executes them in 64-bit user mode.

Each save instruction and its counterpart form a `Bracket`.
-/

namespace Pebil

/-- `X86_REG_AX`. -/
def x86RegAx : Fin 16 := 0

/-- `X86_REG_SP`. -/
def x86RegSp : Fin 16 := 4

/-- The memory, byte by byte. -/
abbrev Memory := BitVec 64 → BitVec 8

/-- The 64-bit word at an address, the low byte first. -/
def Memory.read (m : Memory) (a : BitVec 64) : BitVec 64 :=
  m (a + 7) ++ m (a + 6) ++ m (a + 5) ++ m (a + 4) ++ m (a + 3) ++ m (a + 2) ++ m (a + 1) ++ m a

/-- Write a 64-bit word. -/
def Memory.write (m : Memory) (a v : BitVec 64) : Memory := fun b =>
  if (b - a).toNat < 8 then v.extractLsb' (8 * (b - a).toNat) 8 else m b

theorem Memory.write_apply {m : Memory} {a v b : BitVec 64} {k : Nat} (h : (b - a).toNat = k) :
    m.write a v b = if k < 8 then v.extractLsb' (8 * k) 8 else m b := by
  unfold Memory.write
  rw [h]

/-- The distance to an address. -/
theorem offset_toNat (a : BitVec 64) {k : Nat} (h : k < 2 ^ 64) :
    (a + BitVec.ofNat 64 k - a).toNat = k := by
  rw [BitVec.add_comm, BitVec.add_sub_cancel, BitVec.toNat_ofNat, Nat.mod_eq_of_lt h]

/-- Reading back what was written, from any memory that still has these bytes. -/
theorem Memory.read_of_write {m m' : Memory} {a v : BitVec 64}
    (h : ∀ k < 8, m' (a + BitVec.ofNat 64 k) = m.write a v (a + BitVec.ofNat 64 k)) :
    m'.read a = v := by
  have hbyte : ∀ k < 8, m' (a + BitVec.ofNat 64 k) = v.extractLsb' (8 * k) 8 := by
    intro k hk
    rw [h k hk, Memory.write_apply (offset_toNat a (by omega)), if_pos hk]
  have hzero := hbyte 0 (by decide)
  rw [show a + BitVec.ofNat 64 0 = a by simp] at hzero
  unfold Memory.read
  rw [show m' (a + 7) = _ from hbyte 7 (by decide), show m' (a + 6) = _ from hbyte 6 (by decide),
    show m' (a + 5) = _ from hbyte 5 (by decide), show m' (a + 4) = _ from hbyte 4 (by decide),
    show m' (a + 3) = _ from hbyte 3 (by decide), show m' (a + 2) = _ from hbyte 2 (by decide),
    show m' (a + 1) = _ from hbyte 1 (by decide), hzero]
  simp only [BitVec.extractLsb'_append_extractLsb'_eq_extractLsb']
  simp

/-- The general purpose registers, the XMM and x87 registers (numbered from 0), the
flags and the memory. -/
structure Machine where
  gpr : Fin 16 → BitVec 64
  vec : Fin 24 → BitVec 128
  flags : BitVec 64
  mem : Memory

namespace Machine

/-- The stack pointer. -/
def sp (s : Machine) : BitVec 64 := s.gpr x86RegSp

/-- Write a general purpose register. -/
def setGpr (s : Machine) (r : Fin 16) (v : BitVec 64) : Machine :=
  { s with gpr := Function.update s.gpr r v }

@[simp] theorem setGpr_gpr (s : Machine) (r : Fin 16) (v : BitVec 64) :
    (s.setGpr r v).gpr = Function.update s.gpr r v := rfl

@[simp] theorem setGpr_vec (s : Machine) (r : Fin 16) (v : BitVec 64) :
    (s.setGpr r v).vec = s.vec := rfl

@[simp] theorem setGpr_flags (s : Machine) (r : Fin 16) (v : BitVec 64) :
    (s.setGpr r v).flags = s.flags := rfl

@[simp] theorem setGpr_mem (s : Machine) (r : Fin 16) (v : BitVec 64) :
    (s.setGpr r v).mem = s.mem := rfl

/-- Push a word: the stack pointer moves down first. -/
def push (s : Machine) (v : BitVec 64) : Machine :=
  { s.setGpr x86RegSp (s.sp - 8) with mem := s.mem.write (s.sp - 8) v }

/-- The word on the top of the stack. -/
def top (s : Machine) : BitVec 64 := s.mem.read s.sp

/-- The stack pointer above the top word. -/
def drop (s : Machine) : Machine := s.setGpr x86RegSp (s.sp + 8)

/-- Merge the bits of `v` that `mask` selects into the flags. -/
def setFlags (s : Machine) (mask v : BitVec 64) : Machine :=
  { s with flags := s.flags &&& ~~~mask ||| v &&& mask }

end Machine

/-! ## The emitted instructions -/

/-- The instructions that the protection code is made of. -/
inductive SaveInsn where
  /-- `emitLoadRegImmReg(X86_REG_SP, disp, X86_REG_SP)`: `lea`. -/
  | loadRegImmReg (disp : BitVec 64)
  /-- `emitStackPush`. -/
  | stackPush (r : Fin 16)
  /-- `emitStackPop`. -/
  | stackPop (r : Fin 16)
  /-- `emitPushEflags`. -/
  | pushEflags
  /-- `emitPopEflags`. -/
  | popEflags
  /-- `emitLoadAHFromFlags`. -/
  | loadAhFromFlags
  /-- `emitStoreAHToFlags`. -/
  | storeAhToFlags
  deriving DecidableEq, Repr

/-- CF, PF, AF, ZF and SF, the flags that `lahf` and `sahf` handle. -/
def lahfMask : BitVec 64 := 0xd5

/-- The flags that `popf` sets in user mode: CF, PF, AF, ZF, SF, TF, DF, OF, NT, AC, ID. -/
def popfMask : BitVec 64 := 0x244dd5

/-- Bit 1 of the flags, which always reads 1. -/
def reservedFlag : BitVec 64 := 2

/-- What `lahf` makes of a register: its second byte becomes the flags'. -/
def lahfImage (rax flags : BitVec 64) : BitVec 64 :=
  rax &&& ~~~(0xff00 : BitVec 64) ||| (flags &&& lahfMask ||| reservedFlag) <<< 8

/-- One instruction of the protection code. -/
def SaveInsn.exec (s : Machine) : SaveInsn → Machine
  | loadRegImmReg disp => s.setGpr x86RegSp (s.sp + disp)
  | stackPush r => s.push (s.gpr r)
  | stackPop r => s.drop.setGpr r s.top
  | pushEflags => s.push s.flags
  | popEflags => s.drop.setFlags popfMask s.top
  | loadAhFromFlags => s.setGpr x86RegAx (lahfImage (s.gpr x86RegAx) s.flags)
  | storeAhToFlags => s.setFlags lahfMask (s.gpr x86RegAx >>> 8)

/-! ## Locations and frames -/

/-- What can be live. -/
inductive Place where
  | gpr (r : Fin 16)
  | vec (r : Fin 24)
  | flag (i : Fin 32)
  deriving DecidableEq, Repr

/-- The type of what a location holds. -/
def Place.Value : Place → Type
  | gpr _ => BitVec 64
  | vec _ => BitVec 128
  | flag _ => Bool

namespace Machine

/-- The value of a location. -/
def get (s : Machine) : (k : Place) → k.Value
  | .gpr r => s.gpr r
  | .vec r => s.vec r
  | .flag i => s.flags.getLsbD i

/-- The stack pointer is back, and the `n` bytes from it on are as they were. -/
structure Framed (n : Nat) (s t : Machine) : Prop where
  sp : t.sp = s.sp
  size : n < 2 ^ 64
  mem : ∀ k < n, t.mem (s.sp + BitVec.ofNat 64 k) = s.mem (s.sp + BitVec.ofNat 64 k)

/-- Saving and restoring the machine's locations. -/
def saving : SaveModel Machine Place Place.Value where
  get := get
  Framed := Framed

/-! ## Pushing and popping a word -/

variable {s t : Machine} {n : Nat} {v : BitVec 64}

@[simp] theorem sp_push : (s.push v).sp = s.sp - 8 := by
  simp [push, sp]

/-- Moving the stack pointer down and up again. -/
theorem add_shift (a d : BitVec 64) (k : Nat) :
    a + BitVec.ofNat 64 k = a - d + BitVec.ofNat 64 (k + d.toNat) := by
  have hd : BitVec.ofNat 64 (k + d.toNat) = BitVec.ofNat 64 k + d := by
    apply BitVec.eq_of_toNat_eq
    simp
  rw [hd, BitVec.add_comm _ d, ← BitVec.add_assoc, BitVec.sub_add_cancel]

/-- The word that was pushed is still there. -/
theorem Framed.top_eq (h : Framed (n + 8) (s.push v) t) : t.top = v := by
  unfold top
  rw [h.sp, sp_push]
  refine Memory.read_of_write (m := s.mem) fun k hk => ?_
  have hmem := h.mem k (by omega)
  rw [sp_push] at hmem
  exact hmem

theorem Framed.sp_drop (h : Framed (n + 8) (s.push v) t) : t.drop.sp = s.sp := by
  show Function.update t.gpr x86RegSp (t.sp + 8) x86RegSp = s.sp
  rw [Function.update_self, h.sp, sp_push, BitVec.sub_add_cancel]

/-- Popping into the stack pointer itself brings back the value that was pushed, which is
the one from before the push. -/
theorem Framed.sp_stackPop {r : Fin 16} (h : Framed (n + 8) (s.push (s.gpr r)) t) :
    (t.drop.setGpr r t.top).sp = s.sp := by
  show Function.update t.drop.gpr r t.top x86RegSp = s.sp
  by_cases hr : x86RegSp = r
  · subst hr
    rw [Function.update_self, h.top_eq]
    rfl
  · rw [Function.update_of_ne hr]
    exact h.sp_drop

/-- Below the word that was pushed, everything is as before. -/
theorem Framed.mem_drop (h : Framed (n + 8) (s.push v) t) :
    ∀ k < n, t.mem (s.sp + BitVec.ofNat 64 k) = s.mem (s.sp + BitVec.ofNat 64 k) := by
  intro k hk
  have hsize := h.size
  have hmem := h.mem (k + 8) (by omega)
  rw [sp_push] at hmem
  rw [show s.sp + BitVec.ofNat 64 k = s.sp - 8 + BitVec.ofNat 64 (k + 8) from add_shift _ 8 k,
    hmem]
  show s.mem.write (s.sp - 8) v _ = _
  rw [Memory.write_apply (offset_toNat _ (by omega)), if_neg (by omega)]

end Machine

/-! ## The brackets -/

open SaveInsn in
/-- `push` and `pop` of a register, the stack pointer included. -/
theorem bracket_stackPush (r : Fin 16) :
    Bracket Machine.saving (fun s => (stackPush r).exec s) (fun s => (stackPop r).exec s) 8
      {.gpr x86RegSp} ∅ {.gpr x86RegSp, .gpr r} where
  get_pre s k hk := by
    cases k with
    | gpr q =>
      have hne : q ≠ x86RegSp := fun h => hk (by simp [h])
      show Function.update s.gpr x86RegSp _ q = s.gpr q
      rw [Function.update_of_ne hne]
    | vec _ => rfl
    | flag _ => rfl
  framed n s t hf := by
    have hf : Machine.Framed (n + 8) (s.push (s.gpr r)) t := hf
    exact ⟨hf.sp_stackPop, by have := hf.size; omega, hf.mem_drop⟩
  get_restored n s t hf _ k hk := by
    have hf : Machine.Framed (n + 8) (s.push (s.gpr r)) t := hf
    rcases hk with rfl | rfl
    · exact hf.sp_stackPop
    · show Function.update t.drop.gpr r t.top r = s.gpr r
      rw [Function.update_self, hf.top_eq]
  get_other n s t _ k hk := by
    cases k with
    | gpr q =>
      have hsp : q ≠ x86RegSp := fun h => hk (by simp [h])
      have hr : q ≠ r := fun h => hk (by simp [h])
      show Function.update (Function.update t.gpr x86RegSp _) r t.top q = t.gpr q
      rw [Function.update_of_ne hr, Function.update_of_ne hsp]
    | vec _ => rfl
    | flag _ => rfl

open SaveInsn in
/-- Moving the stack pointer down by `Size__trampoline_autoinc`, and up again. -/
theorem bracket_loadRegImmReg (d : BitVec 64) :
    Bracket Machine.saving (fun s => (loadRegImmReg (-d)).exec s)
      (fun s => (loadRegImmReg d).exec s) d.toNat {.gpr x86RegSp} ∅ {.gpr x86RegSp} := by
  have hpre : ∀ s : Machine, ((loadRegImmReg (-d)).exec s).sp = s.sp - d := by
    intro s
    show Function.update s.gpr x86RegSp (s.sp + -d) x86RegSp = _
    rw [Function.update_self, BitVec.sub_eq_add_neg]
  have hpost : ∀ n (s t : Machine), Machine.Framed (n + d.toNat) ((loadRegImmReg (-d)).exec s) t →
      ((loadRegImmReg d).exec t).sp = s.sp := by
    intro n s t hf
    show Function.update t.gpr x86RegSp (t.sp + d) x86RegSp = _
    rw [Function.update_self, hf.sp, hpre, BitVec.sub_add_cancel]
  have hother : ∀ (s : Machine) (e : BitVec 64) (k : Place), k ≠ .gpr x86RegSp →
      ((loadRegImmReg e).exec s).get k = s.get k := by
    intro s e k hk
    cases k with
    | gpr q =>
      have hne : q ≠ x86RegSp := fun h => hk (by rw [h])
      show Function.update s.gpr x86RegSp _ q = s.gpr q
      rw [Function.update_of_ne hne]
    | vec _ => rfl
    | flag _ => rfl
  refine ⟨fun s k hk => hother s _ k hk, fun n s t hf => ⟨hpost n s t hf, ?_, fun k hk => ?_⟩,
    fun n s t hf _ k hk => ?_, fun n s t _ k hk => hother t _ k hk⟩
  · have := hf.size
    omega
  · have hmem := hf.mem (k + d.toNat) (by omega)
    rw [hpre] at hmem
    rw [Machine.add_shift s.sp d k]
    exact hmem
  · obtain rfl : k = .gpr x86RegSp := hk
    exact hpost n s t hf

theorem getLsbD_setFlags {s : Machine} {mask v : BitVec 64} {i : Nat} :
    (s.setFlags mask v).flags.getLsbD i =
      if mask.getLsbD i then v.getLsbD i else s.flags.getLsbD i := by
  by_cases hi : i < 64
  · simp only [Machine.setFlags, BitVec.getLsbD_or, BitVec.getLsbD_and, BitVec.getLsbD_not, hi,
      decide_true, Bool.true_and]
    cases mask.getLsbD i <;> simp
  · simp [Machine.setFlags, BitVec.getLsbD_of_ge _ _ (Nat.le_of_not_lt hi)]

open SaveInsn in
/-- `pushf` and `popf`. -/
theorem bracket_pushEflags :
    Bracket Machine.saving (fun s => pushEflags.exec s) (fun s => popEflags.exec s) 8
      {.gpr x86RegSp} ∅
      {k | k = .gpr x86RegSp ∨ ∃ i : Fin 32, k = .flag i ∧ popfMask.getLsbD i = true} where
  get_pre s k hk := by
    cases k with
    | gpr q =>
      have hne : q ≠ x86RegSp := fun h => hk (by simp [h])
      show Function.update s.gpr x86RegSp _ q = s.gpr q
      rw [Function.update_of_ne hne]
    | vec _ => rfl
    | flag _ => rfl
  framed n s t hf := by
    have hf : Machine.Framed (n + 8) (s.push s.flags) t := hf
    exact ⟨hf.sp_drop, by have := hf.size; omega, hf.mem_drop⟩
  get_restored n s t hf _ k hk := by
    have hf : Machine.Framed (n + 8) (s.push s.flags) t := hf
    rcases hk with rfl | ⟨i, rfl, hi⟩
    · exact hf.sp_drop
    · show (t.drop.setFlags popfMask t.top).flags.getLsbD i = s.flags.getLsbD i
      rw [getLsbD_setFlags, if_pos hi, hf.top_eq]
  get_other n s t _ k hk := by
    cases k with
    | gpr q =>
      have hne : q ≠ x86RegSp := fun h => hk (.inl (by rw [h]))
      show Function.update t.gpr x86RegSp _ q = t.gpr q
      rw [Function.update_of_ne hne]
    | vec _ => rfl
    | flag i =>
      have hi : ¬ popfMask.getLsbD i = true := fun h => hk (.inr ⟨i, rfl, h⟩)
      show (t.drop.setFlags popfMask t.top).flags.getLsbD i = t.flags.getLsbD i
      rw [getLsbD_setFlags, if_neg hi]
      rfl

theorem lt_of_lahfMask {i : Nat} (h : lahfMask.getLsbD i = true) : i < 8 := by
  by_contra hge
  have hclear : lahfMask.getLsbD i = false := by
    rw [BitVec.getLsbD, Nat.testBit_lt_two_pow]
    exact Nat.lt_of_lt_of_le (show lahfMask.toNat < 2 ^ 8 by decide)
      (Nat.pow_le_pow_right (by decide) (Nat.le_of_not_lt hge))
  rw [h] at hclear
  cases hclear

/-- The flags of `lahf` are found in the second byte. -/
theorem getLsbD_lahfImage {rax flags : BitVec 64} {i : Nat} (h : lahfMask.getLsbD i = true) :
    (lahfImage rax flags >>> 8).getLsbD i = flags.getLsbD i := by
  have hi := lt_of_lahfMask h
  have hconst : ∀ i : Fin 8, lahfMask.getLsbD i = true →
      (0xff00 : BitVec 64).getLsbD (8 + i) = true ∧ reservedFlag.getLsbD i = false := by decide
  obtain ⟨hbyte, hreserved⟩ := hconst ⟨i, hi⟩ h
  simp only at hbyte hreserved
  rw [BitVec.getLsbD_ushiftRight]
  unfold lahfImage
  rw [BitVec.getLsbD_or, BitVec.getLsbD_and, BitVec.getLsbD_not, hbyte, BitVec.getLsbD_shiftLeft,
    Nat.add_sub_cancel_left, BitVec.getLsbD_or, BitVec.getLsbD_and, h, hreserved]
  simp [show 8 + i < 64 by omega]

open SaveInsn in
/-- `lahf` and `sahf`: the second byte of RAX has to be kept. -/
theorem bracket_loadAhFromFlags :
    Bracket Machine.saving (fun s => loadAhFromFlags.exec s) (fun s => storeAhToFlags.exec s) 0
      {.gpr x86RegAx} {.gpr x86RegAx}
      {k | ∃ i : Fin 32, k = .flag i ∧ lahfMask.getLsbD i = true} where
  get_pre s k hk := by
    cases k with
    | gpr q =>
      have hne : q ≠ x86RegAx := fun h => hk (by simp [h])
      show Function.update s.gpr x86RegAx _ q = s.gpr q
      rw [Function.update_of_ne hne]
    | vec _ => rfl
    | flag _ => rfl
  framed n s t hf := by
    have hsp : (loadAhFromFlags.exec s).sp = s.sp := by
      show Function.update s.gpr x86RegAx (lahfImage (s.gpr x86RegAx) s.flags) x86RegSp = _
      rw [Function.update_of_ne (by decide)]
      rfl
    have hf : Machine.Framed n (loadAhFromFlags.exec s) t := hf
    refine ⟨hf.sp.trans hsp, hf.size, fun k hk => ?_⟩
    have hmem := hf.mem k hk
    rw [hsp] at hmem
    exact hmem
  get_restored n s t hf hneeds k hk := by
    obtain ⟨i, rfl, hi⟩ := hk
    have hax : t.gpr x86RegAx = lahfImage (s.gpr x86RegAx) s.flags :=
      (hneeds (.gpr x86RegAx) rfl).trans (Function.update_self x86RegAx _ s.gpr)
    show (t.setFlags lahfMask (t.gpr x86RegAx >>> 8)).flags.getLsbD i = s.flags.getLsbD i
    rw [getLsbD_setFlags, if_pos hi, hax, getLsbD_lahfImage hi]
  get_other n s t _ k hk := by
    cases k with
    | gpr _ => rfl
    | vec _ => rfl
    | flag i =>
      have hi : ¬ lahfMask.getLsbD i = true := fun h => hk ⟨i, rfl, h⟩
      show (t.setFlags lahfMask (t.gpr x86RegAx >>> 8)).flags.getLsbD i = t.flags.getLsbD i
      rw [getLsbD_setFlags, if_neg hi]

end Pebil

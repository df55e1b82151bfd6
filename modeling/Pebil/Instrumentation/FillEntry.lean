import Pebil.Instrumentation.FillCode

/-!
# The scratch registers and the entry

The scratch registers are distinct and valid (`scratchRegs_valid`), whatever the counter
in `getUnusableRegisters` started with. Up to the computation of the address the snippet
changes only the ones it loads (`gpr_findEntry`), and in a state whose memory is empty
it loads them with values that depend on nothing else (`exists_findEntry_quiet`).
-/

namespace Pebil

/-! ## The choice of scratch registers -/

theorem mem_fillDead {invalidRegs : Nat → Bool} {cnt k : Nat} :
    ∀ {regs dead : List Nat}, k ∈ fillDead invalidRegs cnt regs dead →
      k ∈ dead ∨ invalidRegs k = false := by
  intro regs
  induction regs with
  | nil => exact fun h => .inl h
  | cons i regs ih =>
    intro dead h
    unfold fillDead at h
    split at h
    · exact .inl h
    · split at h
      · exact ih h
      · rename_i hskip
        rcases ih h with hmem | hvalid
        · rcases List.mem_append.mp hmem with hmem | hmem
          · exact .inl hmem
          · obtain rfl := List.mem_singleton.mp hmem
            simp only [Bool.or_eq_true, not_or] at hskip
            exact .inr (Bool.eq_false_iff.mpr hskip.1)
        · exact .inr hvalid

theorem getDeadRegIn_valid {liveIns : Option RegisterSet} {invalidRegs : Nat → Bool} {cnt k : Nat}
    {dead : List Nat} (h : getDeadRegIn liveIns invalidRegs cnt = some dead) (hk : k ∈ dead) :
    invalidRegs k = false := by
  simp only [getDeadRegIn] at h
  split at h
  · obtain rfl := Option.some.inj h
    rcases mem_fillDead hk with hmem | hvalid
    · have hfilter := (List.mem_filter.mp hmem).2
      simp only [Bool.and_eq_true, Bool.not_eq_true'] at hfilter
      exact hfilter.1
    · exact hvalid
  · cases h

/-- The registers handed out so far: `P` holds of each, apart from the thread register,
they are distinct, and none of them is still to come. -/
structure ScratchPick.Sound (threadReg : Option (Fin 16)) (P : Fin 16 → Prop) (p : ScratchPick)
    (rest : List (Fin 16)) : Prop where
  sr1 : ∀ x, p.sr1 = some x → x ∉ rest ∧ (threadReg = none → P x)
  sr2 : ∀ x, p.sr2 = some x → x ∉ rest ∧ P x ∧ p.sr1 ≠ some x
  sr3 : ∀ x, p.sr3 = some x → x ∉ rest ∧ P x ∧ p.sr1 ≠ some x ∧ p.sr2 ≠ some x
  order : (p.sr1 = none → p.sr2 = none) ∧ (p.sr2 = none → p.sr3 = none)
  thread : ∀ r, threadReg = some r → p.sr1 = some r

theorem ScratchPick.Sound.give {threadReg : Option (Fin 16)} {P : Fin 16 → Prop} {p : ScratchPick}
    {k : Fin 16} {rest : List (Fin 16)} (h : p.Sound threadReg P (k :: rest)) (hk : P k)
    (hfresh : k ∉ rest) : (p.give k).Sound threadReg P rest := by
  have hne : ∀ x, x ∉ k :: rest → x ≠ k := fun x hx heq => hx (heq ▸ List.mem_cons_self)
  have hrest : ∀ x, x ∉ k :: rest → x ∉ rest := fun x hx hmem => hx (List.mem_cons_of_mem k hmem)
  obtain ⟨h₁, h₂, h₃, horder, hthread⟩ := h
  unfold ScratchPick.give
  by_cases hsr1 : p.sr1 = none
  · rw [if_pos hsr1]
    have hsr2 := horder.1 hsr1
    have hsr3 := horder.2 hsr2
    refine ⟨fun x hx => ?_, fun x hx => ?_, fun x hx => ?_, ⟨fun hx => ?_, fun _ => hsr3⟩,
      fun r hr => ?_⟩
    · obtain rfl := Option.some.inj hx
      exact ⟨hfresh, fun _ => hk⟩
    · exact absurd (hsr2.symm.trans hx) (by simp)
    · exact absurd (hsr3.symm.trans hx) (by simp)
    · cases hx
    · exact absurd (hsr1.symm.trans (hthread r hr)) (by simp)
  rw [if_neg hsr1]
  by_cases hsr2 : p.sr2 = none
  · rw [if_pos hsr2]
    have hsr3 := horder.2 hsr2
    refine ⟨fun x hx => ⟨hrest x (h₁ x hx).1, (h₁ x hx).2⟩, fun x hx => ?_, fun x hx => ?_,
      ⟨fun hx => absurd hx hsr1, fun hx => ?_⟩, hthread⟩
    · obtain rfl := Option.some.inj hx
      exact ⟨hfresh, hk, fun heq => hne _ (h₁ _ heq).1 rfl⟩
    · exact absurd (hsr3.symm.trans hx) (by simp)
    · cases hx
  rw [if_neg hsr2]
  by_cases hsr3 : p.sr3 = none
  · rw [if_pos hsr3]
    refine ⟨fun x hx => ⟨hrest x (h₁ x hx).1, (h₁ x hx).2⟩,
      fun x hx => ⟨hrest x (h₂ x hx).1, (h₂ x hx).2⟩, fun x hx => ?_,
      ⟨horder.1, fun hx => absurd hx hsr2⟩, hthread⟩
    obtain rfl := Option.some.inj hx
    exact ⟨hfresh, hk, fun heq => hne _ (h₁ _ heq).1 rfl, fun heq => hne _ (h₂ _ heq).1 rfl⟩
  · rw [if_neg hsr3]
    exact ⟨fun x hx => ⟨hrest x (h₁ x hx).1, (h₁ x hx).2⟩,
      fun x hx => ⟨hrest x (h₂ x hx).1, (h₂ x hx).2⟩,
      fun x hx => ⟨hrest x (h₃ x hx).1, (h₃ x hx).2⟩, horder, hthread⟩

theorem ScratchPick.Sound.foldl {threadReg : Option (Fin 16)} {P : Fin 16 → Prop} :
    ∀ {l : List (Fin 16)} {p : ScratchPick}, l.Nodup → (∀ k ∈ l, P k) → p.Sound threadReg P l →
      (l.foldl ScratchPick.give p).Sound threadReg P [] := by
  intro l
  induction l with
  | nil => exact fun _ _ h => h
  | cons k l ih =>
    intro p hnodup hP h
    rw [List.nodup_cons] at hnodup
    exact ih hnodup.2 (fun j hj => hP j (List.mem_cons_of_mem k hj))
      (h.give (hP k List.mem_cons_self) hnodup.1)

namespace FillConfig

variable {c : FillConfig} {m : MemoryInstruction} {sr : ScratchRegs}

/-- Whether `storeThreadData` is part of the snippet. -/
def loadsThread (c : FillConfig) : Bool :=
  match c.addressing with
  | .absolute _ => false
  | .pic p => p.threadReg = none

/-- The scratch registers that the snippet has loaded when it computes the address. -/
def loaded (c : FillConfig) (sr : ScratchRegs) : List (Fin 16) :=
  if c.loadsThread then [sr.sr1, sr.sr2, sr.sr3] else [sr.sr2, sr.sr3]

/-- The scratch registers are distinct, and those that are loaded are valid. -/
structure ScratchValid (c : FillConfig) (m : MemoryInstruction) (sr : ScratchRegs) : Prop where
  ne₁₂ : sr.sr1 ≠ sr.sr2
  ne₁₃ : sr.sr1 ≠ sr.sr3
  ne₂₃ : sr.sr2 ≠ sr.sr3
  valid : ∀ r ∈ c.loaded sr, c.invalid m r = false
  thread : ∀ r, c.threadReg = some r → sr.sr1 = r

/-- The loop starts with the thread register, which is none of the dead ones. -/
theorem sound_start {l : List (Fin 16)}
    (hvalid : ∀ k ∈ l, c.invalid m k = false) :
    ScratchPick.Sound c.threadReg (fun k => c.invalid m k = false) ⟨c.threadReg, none, none⟩ l where
  sr1 x hx := by
    refine ⟨fun hmem => ?_, fun hnone => ?_⟩
    · have hclear := hvalid x hmem
      simp only [invalid, show c.threadReg = some x from hx] at hclear
      simp at hclear
    · rw [show c.threadReg = some x from hx] at hnone
      cases hnone
  sr2 x hx := by cases hx
  sr3 x hx := by cases hx
  order := ⟨fun _ => rfl, fun _ => rfl⟩
  thread r hr := hr

theorem scratchRegs_valid (h : c.scratchRegs m = some sr) : c.ScratchValid m sr := by
  simp only [scratchRegs, Option.bind_eq_bind, Option.bind_eq_some_iff] at h
  obtain ⟨dead, hdead, h⟩ := h
  have hvalid : ∀ k ∈ (List.finRange 16).filter fun k => k.val ∈ dead, c.invalid m k = false := by
    intro k hk
    have hmem := (List.mem_filter.mp hk).2
    exact getDeadRegIn_valid hdead (by simpa using hmem)
  have hsound := (sound_start hvalid).foldl
    ((List.nodup_finRange 16).filter _) hvalid
  split at h
  · rename_i sr1 sr2 sr3 heq
    obtain rfl := Option.some.inj h
    rw [heq] at hsound
    have h₂ := hsound.sr2 sr2 rfl
    have h₃ := hsound.sr3 sr3 rfl
    refine ⟨fun heq => h₂.2.2 (congrArg some heq), fun heq => h₃.2.2.1 (congrArg some heq),
      fun heq => h₃.2.2.2 (congrArg some heq), fun r hr => ?_,
      fun r hr => Option.some.inj (hsound.thread r hr)⟩
    have hthread : c.loadsThread = true → c.threadReg = none := by
      unfold loadsThread threadReg
      cases c.addressing <;> simp
    unfold loaded at hr
    split at hr
    · rename_i hloads
      simp only [List.mem_cons, List.not_mem_nil, or_false] at hr
      rcases hr with rfl | rfl | rfl
      · exact (hsound.sr1 _ rfl).2 (hthread hloads)
      · exact h₂.2.1
      · exact h₃.2.1
    · simp only [List.mem_cons, List.not_mem_nil, or_false] at hr
      rcases hr with rfl | rfl
      · exact h₂.2.1
      · exact h₃.2.1
  · cases h

theorem ScratchValid.ne_sp (h : c.ScratchValid m sr) {r : Fin 16} (hr : r ∈ c.loaded sr) :
    r ≠ x86RegSp := by
  rintro rfl
  have hclear := h.valid _ hr
  simp [invalid] at hclear

theorem ScratchValid.ne_ax (h : c.ScratchValid m sr) {r : Fin 16} (hr : r ∈ c.loaded sr) :
    r ≠ x86RegAx := by
  rintro rfl
  have hclear := h.valid _ hr
  simp [invalid] at hclear

/-! ## Up to the entry -/

variable {g : Segments} {s : Machine} {buffer : List FillInsn}

/-- Before the address is computed only the scratch registers in use are written. -/
theorem writes_findEntry (hv : c.ScratchValid m sr) (hbuffer : c.loadBuffer sr = some buffer) :
    ∀ i ∈ buffer ++ c.findEntry sr, ∃ d ∈ c.loaded sr, i.Writes d := by
  have hmem₂ : sr.sr2 ∈ c.loaded sr := by
    unfold loaded
    split <;> simp
  have hmem₃ : sr.sr3 ∈ c.loaded sr := by
    unfold loaded
    split <;> simp
  intro i hi
  rcases List.mem_append.mp hi with hi | hi
  · unfold loadBuffer at hbuffer
    cases haddr : c.addressing with
    | absolute bufferAddress =>
      simp only [haddr, emitMoveImmToReg] at hbuffer
      split at hbuffer
      · obtain rfl := Option.some.inj hbuffer
        obtain rfl := List.mem_singleton.mp hi
        exact ⟨sr.sr2, hmem₂, fun g s => ⟨_, rfl⟩⟩
      · cases hbuffer
    | pic p =>
      simp only [haddr] at hbuffer
      obtain rfl := Option.some.inj hbuffer
      rcases List.mem_append.mp hi with hi | hi
      · split at hi
        · rename_i hnone
          have hmem₁ : sr.sr1 ∈ c.loaded sr := by
            simp [loaded, loadsThread, haddr, hnone]
          have hsp : sr.sr1.val ≠ 4 := fun heq => hv.ne_sp hmem₁ (Fin.ext heq)
          simp only [storeThreadData, List.mem_cons, List.not_mem_nil, or_false] at hi
          rcases hi with rfl | rfl | rfl | rfl | rfl | rfl | rfl
          · exact ⟨sr.sr1, hmem₁, fun g s => ⟨_, rfl⟩⟩
          · exact ⟨sr.sr1, hmem₁, fun g s => ⟨_, rfl⟩⟩
          · exact ⟨sr.sr1, hmem₁, fun g s => ⟨_, rfl⟩⟩
          · exact ⟨sr.sr2, hmem₂, fun g s => ⟨_, rfl⟩⟩
          · exact ⟨sr.sr1, hmem₁, fun g s => ⟨_, rfl⟩⟩
          · exact ⟨sr.sr1, hmem₁, fun g s =>
              ⟨_, exec_loadEffectiveAddress (by decide) fun _ => hsp⟩⟩
          · exact ⟨sr.sr1, hmem₁, fun g s => ⟨_, rfl⟩⟩
        · cases hi
      · obtain rfl := List.mem_singleton.mp hi
        exact ⟨sr.sr2, hmem₂, fun g s => ⟨_, rfl⟩⟩
  · have hsp : sr.sr3.val ≠ 4 := fun heq => hv.ne_sp hmem₃ (Fin.ext heq)
    simp only [findEntry, List.mem_cons, List.not_mem_nil, or_false] at hi
    rcases hi with rfl | rfl | rfl
    · exact ⟨sr.sr3, hmem₃, fun g s => ⟨_, rfl⟩⟩
    · exact ⟨sr.sr3, hmem₃, fun g s => ⟨_, rfl⟩⟩
    · exact ⟨sr.sr2, hmem₂, fun g s =>
        ⟨_, exec_loadEffectiveAddress (by decide) fun _ => hsp⟩⟩

theorem gpr_findEntry (hv : c.ScratchValid m sr) (hbuffer : c.loadBuffer sr = some buffer)
    {r : Fin 16} (hr : r ∉ c.loaded sr) :
    (runFill g (buffer ++ c.findEntry sr) s).gpr r = s.gpr r :=
  (runFill_of_writes (c.loaded sr) (writes_findEntry hv hbuffer) s).2 r hr

/-- The buffer can be loaded unless its address needs more than 32 bits. -/
theorem exists_loadBuffer :
    (∃ buffer, c.loadBuffer sr = some buffer) ↔
      ∀ a, c.addressing = .absolute a → a.toNat < 2 ^ 32 := by
  unfold loadBuffer
  cases haddr : c.addressing with
  | absolute a =>
    simp [emitMoveImmToReg]
  | pic p => simp

theorem toNat_signExtend_half (x : BitVec 32) :
    (x.signExtend 64).toNat = if x.toNat < 2 ^ 31 then x.toNat else x.toNat + (2 ^ 64 - 2 ^ 32) := by
  have hlt := x.isLt
  rw [BitVec.toNat_signExtend, BitVec.msb_eq_decide, BitVec.toNat_setWidth,
    Nat.mod_eq_of_lt (by omega)]
  by_cases hhalf : x.toNat < 2 ^ 31
  · rw [if_pos hhalf, if_neg (by simpa using hhalf), Nat.add_zero]
  · rw [if_neg hhalf, if_pos (by simpa using hhalf)]

/-! ## A quiet state -/

/-- Memory below 2^48 and in the last 2^31 bytes is empty. -/
structure Quiet (c : FillConfig) (g : Segments) (s : Machine) : Prop where
  mem : ∀ a, a.toNat < 2 ^ 48 ∨ 2 ^ 64 - 2 ^ 31 ≤ a.toNat → s.mem a = 0
  fs : g.base 4 = 0
  thread : ∀ r, c.threadReg = some r → (s.gpr r).toNat < 2 ^ 47

theorem read_of_empty {mem : Memory}
    (hmem : ∀ a, a.toNat < 2 ^ 48 ∨ 2 ^ 64 - 2 ^ 31 ≤ a.toNat → mem a = 0) {a : BitVec 64}
    (ha : a.toNat + 8 ≤ 2 ^ 48 ∨ 2 ^ 64 - 2 ^ 31 ≤ a.toNat) : mem.read a = 0 := by
  have hbyte : ∀ k < 8, mem (a + BitVec.ofNat 64 k) = 0 := by
    intro k hk
    refine hmem _ ?_
    have hlt := a.isLt
    rw [BitVec.toNat_add, BitVec.toNat_ofNat]
    omega
  have hzero := hbyte 0 (by decide)
  rw [show a + BitVec.ofNat 64 0 = a by simp] at hzero
  unfold Memory.read
  rw [show mem (a + 7) = _ from hbyte 7 (by decide), show mem (a + 6) = _ from hbyte 6 (by decide),
    show mem (a + 5) = _ from hbyte 5 (by decide), show mem (a + 4) = _ from hbyte 4 (by decide),
    show mem (a + 3) = _ from hbyte 3 (by decide), show mem (a + 2) = _ from hbyte 2 (by decide),
    show mem (a + 1) = _ from hbyte 1 (by decide), hzero]
  decide

/-- The address of the thread's data is read from empty memory. -/
theorem gpr_storeThreadData (hq : c.Quiet g s) {threadHash : BitVec 64} {dest : Fin 16}
    (scratch : Fin 16) (hhash : threadHash.toNat < 2 ^ 47) (hne : dest ≠ scratch) (hsp : dest.val ≠ 4) :
    (runFill g (storeThreadData threadHash scratch dest) s).gpr dest = 0 := by
  have hread : s.mem.read (0x10 : BitVec 64) = 0 := read_of_empty hq.mem (.inl (by decide))
  have hread' : s.mem.read (threadHash + 8) = 0 := by
    refine read_of_empty hq.mem (.inl ?_)
    rw [BitVec.toNat_add, show (8 : BitVec 64).toNat = 8 from rfl]
    omega
  simp only [storeThreadData, runFill_cons, runFill_nil]
  rw [exec_loadEffectiveAddress (by decide) fun _ => hsp]
  simp only [FillInsn.exec, Machine.setGpr_gpr, Machine.setGpr_mem, Function.update_self,
    Function.update_of_ne hne, Function.update_of_ne hne.symm, if_true, hq.fs]
  rw [show (0 : BitVec 64) + 0x10 = 0x10 from rfl, hread]
  refine Eq.trans (congrArg s.mem.read ?_) hread'
  simp

/-- The buffer's address arrives in `sr2`, and memory is still empty. -/
theorem loadBuffer_quiet (hv : c.ScratchValid m sr) (hbuffer : c.loadBuffer sr = some buffer)
    (hq : c.Quiet g s) :
    (runFill g buffer s).mem = s.mem ∧
      (c.loadsThread = true → (runFill g buffer s).gpr sr.sr1 = 0) ∧
      (runFill g buffer s).gpr sr.sr2 =
        match c.addressing with
        | .absolute a => (a.setWidth 32).signExtend 64
        | .pic _ => 0 := by
  have hwrites : ∀ i ∈ buffer, ∃ d ∈ c.loaded sr, i.Writes d := fun i hi =>
    writes_findEntry hv hbuffer i (List.mem_append_left _ hi)
  refine ⟨(runFill_of_writes (c.loaded sr) hwrites s).1, ?_⟩
  unfold loadBuffer at hbuffer
  cases haddr : c.addressing with
  | absolute a =>
    simp only [haddr, emitMoveImmToReg] at hbuffer
    split at hbuffer
    · obtain rfl := Option.some.inj hbuffer
      refine ⟨fun hloads => ?_, ?_⟩
      · simp [loadsThread, haddr] at hloads
      · simp [runFill_cons, runFill_nil, FillInsn.exec]
    · cases hbuffer
  | pic p =>
    simp only [haddr] at hbuffer
    obtain rfl := Option.some.inj hbuffer
    generalize hdata : (if p.threadReg = none then storeThreadData p.threadHash sr.sr2 sr.sr1
      else []) = data
    have hmem : (runFill g data s).mem = s.mem := by
      refine (runFill_of_writes (c.loaded sr) (fun i hi => hwrites i ?_) s).1
      rw [hdata]
      exact List.mem_append_left _ hi
    -- the address of the thread's data: just read, or in the thread register
    have hlow : ((runFill g data s).gpr sr.sr1).toNat < 2 ^ 47 ∧
        (c.loadsThread = true → (runFill g data s).gpr sr.sr1 = 0) := by
      by_cases hthread : p.threadReg = none
      · have hloads : c.loadsThread = true := by simp [loadsThread, haddr, hthread]
        have hmem₁ : sr.sr1 ∈ c.loaded sr := by simp [loaded, hloads]
        have hzero := gpr_storeThreadData hq sr.sr2 p.userSpace.1 hv.ne₁₂
          fun heq => hv.ne_sp hmem₁ (Fin.ext heq)
        rw [← hdata, if_pos hthread, hzero]
        exact ⟨by decide, fun _ => rfl⟩
      · rw [← hdata, if_neg hthread, runFill_nil]
        obtain ⟨r, hr⟩ := Option.ne_none_iff_exists'.mp hthread
        have hreg : c.threadReg = some r := by simp [threadReg, haddr, hr]
        rw [hv.thread r hreg]
        refine ⟨hq.thread r hreg, fun hloads => ?_⟩
        simp [loadsThread, haddr, hr] at hloads
    have hread : (runFill g data s).mem.read ((runFill g data s).gpr sr.sr1) = 0 := by
      rw [hmem]
      refine read_of_empty hq.mem (.inl ?_)
      have := hlow.1
      omega
    rw [runFill_append, runFill_cons, runFill_nil]
    refine ⟨fun hloads => ?_, ?_⟩
    · show Function.update (runFill g data s).gpr sr.sr2 _ sr.sr1 = 0
      rw [Function.update_of_ne hv.ne₁₂]
      exact hlow.2 hloads
    · simp only [FillInsn.exec, Machine.setGpr_gpr, Function.update_self]
      rw [show (runFill g data s).gpr sr.sr1 + (0 : BitVec 32).signExtend 64 =
        (runFill g data s).gpr sr.sr1 by simp, hread]

/-- What the loaded registers hold when the memory is empty. -/
def quietValue (c : FillConfig) (sr : ScratchRegs) (r : Fin 16) : BitVec 64 :=
  if r = sr.sr2 then
    (match c.addressing with
      | .absolute a => (a.setWidth 32).signExtend 64
      | .pic _ => 0) + (c.bufferOffset.setWidth 32).signExtend 64
  else 0

theorem findEntry_quiet (hv : c.ScratchValid m sr) (hbuffer : c.loadBuffer sr = some buffer)
    (hq : c.Quiet g s) : ∀ r ∈ c.loaded sr,
      (runFill g (buffer ++ c.findEntry sr) s).gpr r = c.quietValue sr r := by
  obtain ⟨hmem, hsr1, hsr2⟩ := loadBuffer_quiet hv hbuffer hq
  have hmem₃ : sr.sr3 ∈ c.loaded sr := by
    unfold loaded
    split <;> simp
  have hsp : sr.sr3.val ≠ 4 := fun heq => hv.ne_sp hmem₃ (Fin.ext heq)
  rw [runFill_append]
  generalize runFill g buffer s = t at hmem hsr1 hsr2
  have hread : t.mem.read (t.gpr sr.sr2) = 0 := by
    rw [hmem]
    refine read_of_empty hq.mem ?_
    rw [hsr2]
    cases c.addressing with
    | absolute a =>
      -- a sign-extended address is in the first or in the last 2^31 bytes
      show (BitVec.signExtend 64 (a.setWidth 32)).toNat + 8 ≤ 2 ^ 48 ∨
        2 ^ 64 - 2 ^ 31 ≤ (BitVec.signExtend 64 (a.setWidth 32)).toNat
      have hlt := (a.setWidth 32).isLt
      rw [toNat_signExtend_half]
      split <;> omega
    | pic p => exact .inl (show (0 : BitVec 64).toNat + 8 ≤ 2 ^ 48 by decide)
  simp only [findEntry, runFill_cons, runFill_nil]
  rw [exec_loadEffectiveAddress (by decide) fun _ => hsp]
  simp only [FillInsn.exec, Machine.setGpr_gpr, Function.update_self,
    Function.update_of_ne hv.ne₂₃, if_true]
  rw [show t.gpr sr.sr2 + (0 : BitVec 32).signExtend 64 = t.gpr sr.sr2 by simp, hread]
  intro r hr
  unfold quietValue
  by_cases hr₂ : r = sr.sr2
  · subst hr₂
    rw [if_pos rfl, Function.update_self, hsr2]
    simp
  rw [if_neg hr₂, Function.update_of_ne hr₂]
  by_cases hr₃ : r = sr.sr3
  · subst hr₃
    rw [Function.update_self]
    rfl
  · rw [Function.update_of_ne hr₃, Function.update_of_ne hr₃]
    unfold loaded at hr
    split at hr
    · rename_i hloads
      simp only [List.mem_cons, List.not_mem_nil, or_false, hr₂, hr₃] at hr
      rw [hr]
      exact hsr1 hloads
    · simp [hr₂, hr₃] at hr

end FillConfig

end Pebil

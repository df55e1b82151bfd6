import Pebil.Cfg.DigestRecursive
import Mathlib.Data.Finset.Interval
import Mathlib.Order.Interval.Finset.Nat
import Mathlib.Order.WellFounded

/-!
# A round of recursive disassembly (src/Function.C:418–498)

An instruction of the list is the interval of its bytes. While no two of them overlap, the
search of an address finds the instruction that contains it; an instruction that begins at
the address is never missed.

`process_spec` says what a round does with a new instruction: the addresses in the function
that it leads to are on the stack or have been decoded, unless the function is marked as bad,
and it is marked, or has overlapping instructions, exactly if the instruction `Exposes` that
it cannot be decoded.
-/

namespace Pebil

/-! ## Instructions as intervals -/

namespace X86Instruction

def start (x : X86Instruction) : Nat := x.baseAddress.toNat

def stop (x : X86Instruction) : Nat := x.start + x.sizeInBytes.toNat

/-- The instruction goes on at the address, or is a direct branch or call to it. -/
inductive TransfersTo (x : X86Instruction) (a : BitVec 64) : Prop
  | fallThrough : x.controlFallsThrough = true → a = x.endAddress → TransfersTo x a
  | direct {op : OperandX86} : x.isJumpTableBase = false →
      x.isBranch = true ∨ x.isFunctionCall = true → x.operands 0 = some op → op.type = .jimm →
      a = x.baseAddress + op.value + x.sizeInBytes → TransfersTo x a

end X86Instruction

namespace FunctionCode

variable (f : FunctionCode)

/-- The instruction begins in the function. -/
structure Placed (x : X86Instruction) : Prop where
  low : f.function.baseAddress.toNat ≤ x.start
  high : x.start < f.function.baseAddress.toNat + f.function.sizeInBytes.toNat
  sized : 0 < x.sizeInBytes.toNat
  short : x.sizeInBytes.toNat ≤ maxX86InstructionLength

variable {f} {x y : X86Instruction} {a : BitVec 64} {l : List X86Instruction}

theorem inRange_iff : f.function.inRange a = true ↔
    f.function.baseAddress.toNat ≤ a.toNat ∧
      a.toNat < f.function.baseAddress.toNat + f.function.sizeInBytes.toNat := by
  have hbounded := f.bounded
  simp only [TextObject.inRange, Bool.and_eq_true, decide_eq_true_eq, BitVec.le_def,
    BitVec.lt_def, BitVec.toNat_add]
  rw [Nat.mod_eq_of_lt (by omega)]

theorem placed_decode (h : f.function.inRange a = true) : f.Placed (f.decode a) where
  low := by
    rw [X86Instruction.start, f.decode_base]
    exact (inRange_iff.mp h).1
  high := by
    rw [X86Instruction.start, f.decode_base]
    exact (inRange_iff.mp h).2
  sized := f.sized a
  short := f.short a

namespace Placed

theorem endAddress_toNat (h : f.Placed x) : x.endAddress.toNat = x.stop := by
  have hbounded := f.bounded
  obtain ⟨-, hhigh, -, hshort⟩ := h
  unfold X86Instruction.endAddress X86Instruction.stop
  unfold X86Instruction.start at hhigh ⊢
  rw [BitVec.toNat_add, Nat.mod_eq_of_lt (by omega)]

/-- `searchBaseAddress` tells in which of three parts around an instruction the key is. -/
theorem searchBaseAddress (h : f.Placed x) :
    (searchBaseAddress a x < 0 ↔ a.toNat < x.start) ∧
      (0 < Pebil.searchBaseAddress a x ↔ x.stop ≤ a.toNat) ∧
      (Pebil.searchBaseAddress a x = 0 ↔ x.start ≤ a.toNat ∧ a.toNat < x.stop) := by
  have hend : x.endAddress.toNat = x.stop := h.endAddress_toNat
  have hle : x.start ≤ x.stop := Nat.le_add_right ..
  unfold Pebil.searchBaseAddress
  simp only [X86Instruction.endAddress] at hend
  simp only [BitVec.lt_def, BitVec.le_def, hend]
  unfold X86Instruction.start at hle ⊢
  split
  · simp
    omega
  · split
    · simp
      omega
    · simp
      omega

/-- The difference of two addresses in a function fits an `int`. -/
theorem compareBaseAddress (hx : f.Placed x) (hy : f.Placed y) :
    Pebil.compareBaseAddress x y = (x.start : Int) - y.start := by
  have hsmall := f.small
  obtain ⟨hxlow, hxhigh, -, -⟩ := hx
  obtain ⟨hylow, hyhigh, -, -⟩ := hy
  unfold X86Instruction.start at *
  have hx := x.baseAddress.isLt
  have hy := y.baseAddress.isLt
  unfold Pebil.compareBaseAddress
  rw [BitVec.toInt_eq_toNat_bmod, BitVec.toNat_setWidth, BitVec.toNat_sub, Int.bmod_def]
  split <;> omega

end Placed

/-! ## Lists of instructions -/

variable (f) in
/-- Instructions of the function in the order of their addresses. -/
structure Sorted (l : List X86Instruction) : Prop where
  placed : ∀ x ∈ l, f.Placed x
  sorted : l.Pairwise fun x y => x.start < y.start

/-- An instruction goes over the beginning of another one. -/
def Overlaps (l : List X86Instruction) : Prop :=
  ∃ p ∈ l, ∃ q ∈ l, q.start < p.start ∧ p.start < q.stop

/-- The instructions that begin before another one and those that begin behind it. -/
theorem exists_place (h : l.Pairwise fun x y => x.start < y.start)
    (hnew : ∀ y ∈ l, y.start ≠ x.start) :
    ∃ before after, l = before ++ after ∧ (∀ y ∈ before, y.start < x.start) ∧
      ∀ y ∈ after, x.start < y.start := by
  induction l with
  | nil => exact ⟨[], [], rfl, by simp, by simp⟩
  | cons y l ih =>
    obtain ⟨hy, hl⟩ := List.pairwise_cons.mp h
    rcases Nat.lt_or_gt_of_ne (hnew y List.mem_cons_self) with hlt | hgt
    · obtain ⟨before, after, rfl, hbefore, hafter⟩ :=
        ih hl fun z hz => hnew z (List.mem_cons_of_mem y hz)
      exact ⟨y :: before, after, rfl, List.forall_mem_cons.mpr ⟨hlt, hbefore⟩, hafter⟩
    · exact ⟨[], y :: l, rfl, by simp,
        List.forall_mem_cons.mpr ⟨hgt, fun z hz => hgt.trans (hy z hz)⟩⟩

namespace Sorted

/-- Elements in front of an instruction of a sorted list begin before it, those behind it
later. -/
theorem append_cons {before after : List X86Instruction} (h : f.Sorted (before ++ y :: after)) :
    (∀ x ∈ before, f.Placed x ∧ x.start < y.start) ∧
      (∀ x ∈ after, f.Placed x ∧ y.start < x.start) := by
  obtain ⟨hplaced, hsorted⟩ := h
  obtain ⟨-, hafter, hbefore⟩ := List.pairwise_append.mp hsorted
  exact ⟨fun x hx => ⟨hplaced x (by simp [hx]), hbefore x hx y List.mem_cons_self⟩,
    fun x hx => ⟨hplaced x (by simp [hx]), List.rel_of_pairwise_cons hafter hx⟩⟩

/-- Instructions that do not overlap lie one behind the other. -/
theorem pairwise_stop (h : f.Sorted l) (hno : ¬ Overlaps l) :
    l.Pairwise fun x y => x.stop ≤ y.start := by
  refine h.sorted.imp_of_mem fun {x y} hx hy hxy => ?_
  by_contra hlt
  exact hno ⟨y, hy, x, hx, hxy, by omega⟩

theorem not_overlaps (h : l.Pairwise fun x y => x.stop ≤ y.start) : ¬ Overlaps l := by
  rintro ⟨p, hp, q, hq, hqp, hpq⟩
  induction l with
  | nil => cases hp
  | cons x l ih =>
    obtain ⟨hx, hl⟩ := List.pairwise_cons.mp h
    have hself : ∀ z : X86Instruction, z.start ≤ z.stop := fun z => Nat.le_add_right ..
    rcases List.mem_cons.mp hp with rfl | hpl <;> rcases List.mem_cons.mp hq with rfl | hql
    · omega
    · have := hx q hql
      have := hself p
      omega
    · have := hx p hpl
      omega
    · exact ih hl hpl hql

end Sorted

end FunctionCode

namespace DigestState

open FunctionCode

variable {f : FunctionCode} {st : DigestState} {x y : X86Instruction} {a : BitVec 64}

/-- What the search for an address finds contains it. -/
theorem find_sound (h : f.Sorted st.allInstructions) (hfind : st.find a = some x) :
    x ∈ st.allInstructions ∧ x.start ≤ a.toNat ∧ a.toNat < x.stop := by
  obtain ⟨hmem, hzero⟩ := bsearch_sound hfind
  exact ⟨hmem, (h.placed x hmem).searchBaseAddress.2.2.mp hzero⟩

/-- The beginning of an instruction is never missed, whatever else contains it. -/
theorem find_start (h : f.Sorted st.allInstructions) (hy : y ∈ st.allInstructions) :
    ∃ x, st.find y.baseAddress = some x := by
  have hplaced := h.placed y hy
  have hsized := hplaced.sized
  obtain ⟨before, after, hsplit⟩ := List.append_of_mem hy
  rw [hsplit] at h
  obtain ⟨hbefore, hafter⟩ := h.append_cons
  unfold find
  rw [hsplit]
  refine bsearch_complete (fun x hx => ?_) ?_ fun x hx => ?_
  · obtain ⟨hx, hlt⟩ := hbefore x hx
    exact not_lt.mp fun hneg => by
      have := hx.searchBaseAddress.1.mp hneg
      simp only [X86Instruction.start] at this hlt
      omega
  · refine hplaced.searchBaseAddress.2.2.mpr ⟨Nat.le_refl _, ?_⟩
    simp only [X86Instruction.stop, X86Instruction.start]
    omega
  · obtain ⟨hx, hlt⟩ := hafter x hx
    exact (hx.searchBaseAddress.1.mpr hlt).le

/-- Without overlaps, no address in an instruction is missed. -/
theorem find_complete (h : f.Sorted st.allInstructions) (hno : ¬ Overlaps st.allInstructions)
    (hy : y ∈ st.allInstructions) (hlow : y.start ≤ a.toNat) (hhigh : a.toNat < y.stop) :
    ∃ x, st.find a = some x := by
  have hplaced := h.placed y hy
  have hstop := h.pairwise_stop hno
  obtain ⟨before, after, hsplit⟩ := List.append_of_mem hy
  rw [hsplit] at h hstop
  obtain ⟨hbefore, hafter⟩ := h.append_cons
  obtain ⟨-, hstopAfter, hstopBefore⟩ := List.pairwise_append.mp hstop
  unfold find
  rw [hsplit]
  refine bsearch_complete (fun x hx => ?_) ?_ fun x hx => ?_
  · have := hstopBefore x hx y List.mem_cons_self
    exact ((hbefore x hx).1.searchBaseAddress.2.1.mpr (by omega)).le
  · exact hplaced.searchBaseAddress.2.2.mpr ⟨hlow, hhigh⟩
  · have := List.rel_of_pairwise_cons hstopAfter hx
    exact ((hafter x hx).1.searchBaseAddress.1.mpr (by omega)).le

/-- A new instruction goes to its place. -/
theorem insert_spec (h : f.Sorted st.allInstructions) (hx : f.Placed x)
    (hnew : ∀ y ∈ st.allInstructions, y.start ≠ x.start) :
    f.Sorted (st.insert x).allInstructions ∧
      (∀ y, y ∈ (st.insert x).allInstructions ↔ y = x ∨ y ∈ st.allInstructions) ∧
      (st.insert x).allInstructions.length = st.allInstructions.length + 1 := by
  obtain ⟨before, after, hsplit, hbefore, hafter⟩ := FunctionCode.exists_place h.sorted hnew
  obtain ⟨hplaced, hsorted⟩ := h
  have hinsert : (st.insert x).allInstructions = before ++ x :: after := by
    show insertSorted Pebil.compareBaseAddress x st.allInstructions = _
    rw [hsplit]
    rw [hsplit] at hplaced
    refine insertSorted_eq (fun y hy => ?_) fun y hy => ?_
    · have := hbefore y hy
      rw [(hplaced y (List.mem_append_left _ hy)).compareBaseAddress hx]
      omega
    · have := hafter y hy
      rw [(hplaced y (List.mem_append_right _ hy)).compareBaseAddress hx]
      omega
  have hmem : ∀ y, y ∈ (st.insert x).allInstructions ↔ y = x ∨ y ∈ st.allInstructions := by
    intro y
    rw [hinsert, hsplit]
    simp only [List.mem_append, List.mem_cons]
    tauto
  refine ⟨⟨fun y hy => ?_, ?_⟩, hmem, ?_⟩
  · rcases (hmem y).mp hy with rfl | hy
    · exact hx
    · exact hplaced y hy
  · rw [hsplit] at hsorted
    obtain ⟨hsortedBefore, hsortedAfter, hacross⟩ := List.pairwise_append.mp hsorted
    rw [hinsert]
    refine List.pairwise_append.mpr
      ⟨hsortedBefore, List.pairwise_cons.mpr ⟨hafter, hsortedAfter⟩, fun y hy z hz => ?_⟩
    rcases List.mem_cons.mp hz with rfl | hz
    · exact hbefore y hy
    · exact hacross y hy z hz
  · rw [hinsert, hsplit]
    simp
    omega

end DigestState

namespace FunctionCode

variable (f : FunctionCode)

/-! ## What a round checks -/

/-- Decoding `x` brings to light that the function cannot be decoded: an indirect jump whose
table is lost, a target inside an instruction, or overlapping instructions. The address 0
marks no jump. -/
inductive Exposes (st : DigestState) (x : X86Instruction) : Prop
  | table : x.isJumpTableBase = true → f.tableLost (st.insert x) x = true →
      x.baseAddress ≠ 0 → Exposes st x
  | middle {q : X86Instruction} {a : BitVec 64} : q ∈ x :: st.allInstructions →
      a ∈ f.controlTargetAddrs (st.insert x) x → q.start < a.toNat → a.toNat < q.stop →
      Exposes st x
  | overlap : Overlaps (x :: st.allInstructions) → Exposes st x

/-- An address is served: it has been decoded, is still to be decoded, or does not matter as
the function is bad. -/
def Served (st : DigestState) (a : BitVec 64) : Prop :=
  st.badInstruction ≠ 0 ∨ a ∈ st.unprocessed ∨ ∃ y ∈ st.allInstructions, y.baseAddress = a

/-- What the checks of some targets do. -/
structure Checks (fallThroughAddr : BitVec 64) (targets : List (BitVec 64))
    (st st' : DigestState) : Prop where
  all : st'.allInstructions = st.allInstructions
  kept : ∀ a ∈ st.unprocessed, a ∈ st'.unprocessed
  marked : st.badInstruction ≠ 0 → st'.badInstruction ≠ 0
  served : ∀ a ∈ targets, f.function.inRange a = true → a ≠ fallThroughAddr → Served st' a
  bad : st'.badInstruction ≠ 0 → st.badInstruction ≠ 0 ∨
    ∃ a ∈ targets, ∃ q ∈ st.allInstructions, q.start < a.toNat ∧ a.toNat < q.stop
  found : ∀ a ∈ targets, ∀ q, st.find a = some q → q.baseAddress ≠ a → st'.badInstruction ≠ 0

variable {f} {st st' st'' : DigestState} {x : X86Instruction} {a fallThroughAddr : BitVec 64}
  {targets : List (BitVec 64)}

theorem Served.mono (h : Served st a) (hall : ∀ y ∈ st.allInstructions, y ∈ st'.allInstructions)
    (hkept : ∀ a ∈ st.unprocessed, a ∈ st'.unprocessed)
    (hmarked : st.badInstruction ≠ 0 → st'.badInstruction ≠ 0) : Served st' a := by
  rcases h with hbad | hwaiting | ⟨y, hy, hbase⟩
  · exact .inl (hmarked hbad)
  · exact .inr (.inl (hkept a hwaiting))
  · exact .inr (.inr ⟨y, hall y hy, hbase⟩)

theorem find_congr (h : st'.allInstructions = st.allInstructions) : st'.find a = st.find a := by
  unfold DigestState.find
  rw [h]

theorem tableLost_congr (h : st'.allInstructions = st.allInstructions) :
    f.tableLost st' x = f.tableLost st x := by
  unfold tableLost
  rw [h]

theorem controlTargetAddrs_congr (h : st'.allInstructions = st.allInstructions) :
    f.controlTargetAddrs st' x = f.controlTargetAddrs st x := by
  unfold controlTargetAddrs
  rw [tableLost_congr h, h]

/-- An address in an instruction that does not begin there is behind its first byte. -/
theorem inside_of_find (h : f.Sorted st.allInstructions) {q : X86Instruction}
    (hfind : st.find a = some q) (hne : q.baseAddress ≠ a) :
    q ∈ st.allInstructions ∧ q.start < a.toNat ∧ a.toNat < q.stop := by
  obtain ⟨hmem, hlow, hhigh⟩ := DigestState.find_sound h hfind
  refine ⟨hmem, lt_of_le_of_ne hlow fun heq => hne ?_, hhigh⟩
  exact BitVec.eq_of_toNat_eq heq

theorem ne_zero_of_lt {n : Nat} (h : n < a.toNat) : a ≠ 0 := by
  rintro rfl
  simp at h

namespace Checks

theorem refl (st : DigestState) : f.Checks fallThroughAddr [] st st where
  all := rfl
  kept _ h := h
  marked h := h
  served := by simp
  bad := .inl
  found := by simp

/-- The check of one target. -/
theorem single (h : f.Sorted st.allInstructions) :
    f.Checks fallThroughAddr [a] st (st.checkTarget f.function fallThroughAddr a) := by
  unfold DigestState.checkTarget
  cases hfind : st.find a with
  | none =>
    simp only
    split
    · rename_i hin
      constructor
      case all => rfl
      case kept => exact fun b hb => List.mem_cons_of_mem a hb
      case marked => exact id
      case served =>
        rintro b hb - -
        exact .inr (.inl (List.mem_singleton.mp hb ▸ List.mem_cons_self))
      case bad => exact .inl
      case found => simp [hfind]
    · rename_i hout
      constructor
      case all => rfl
      case kept => exact fun _ => id
      case marked => exact id
      case served =>
        intro b hb hin hne
        obtain rfl := List.mem_singleton.mp hb
        exact absurd ⟨hin, hne⟩ hout
      case bad => exact .inl
      case found => simp [hfind]
  | some q =>
    simp only
    split
    · rename_i hne
      obtain ⟨hmem, hlow, hhigh⟩ := inside_of_find h hfind hne
      have hbad : (st.setBadInstruction a).badInstruction ≠ 0 := ne_zero_of_lt hlow
      constructor
      case all => rfl
      case kept => exact fun _ => id
      case marked => exact fun _ => hbad
      case served => exact fun _ _ _ _ => .inl hbad
      case bad => exact fun _ => .inr ⟨a, List.mem_cons_self, q, hmem, hlow, hhigh⟩
      case found => exact fun _ _ _ _ _ => hbad
    · rename_i hbase
      rw [not_not] at hbase
      constructor
      case all => rfl
      case kept => exact fun _ => id
      case marked => exact id
      case served =>
        rintro b hb - -
        rw [List.mem_singleton.mp hb]
        exact .inr (.inr ⟨q, (DigestState.find_sound h hfind).1, hbase⟩)
      case bad => exact .inl
      case found =>
        intro b hb q' hq' hne
        rw [List.mem_singleton.mp hb] at hq' hne
        exact absurd (Option.some.inj (hfind.symm.trans hq') ▸ hbase) hne

/-- One target after the other. -/
theorem cons (h : f.Checks fallThroughAddr [a] st st')
    (h' : f.Checks fallThroughAddr targets st' st'') :
    f.Checks fallThroughAddr (a :: targets) st st'' where
  all := h'.all.trans h.all
  kept b hb := h'.kept b (h.kept b hb)
  marked hbad := h'.marked (h.marked hbad)
  served b hb hin hne := by
    rcases List.mem_cons.mp hb with rfl | hb
    · exact (h.served b List.mem_cons_self hin hne).mono (fun y hy => h'.all ▸ hy) h'.kept
        h'.marked
    · exact h'.served b hb hin hne
  bad hbad := by
    rcases h'.bad hbad with hbad | ⟨b, hb, hq⟩
    · rcases h.bad hbad with hbad | ⟨b, hb, hq⟩
      · exact .inl hbad
      · exact .inr ⟨b, List.mem_cons.mpr (.inl (List.mem_singleton.mp hb)), hq⟩
    · exact .inr ⟨b, List.mem_cons_of_mem a hb, h.all ▸ hq⟩
  found b hb q hq hne := by
    rcases List.mem_cons.mp hb with rfl | hb
    · exact h'.marked (h.found b List.mem_cons_self q hq hne)
    · exact h'.found b hb q ((find_congr h.all).trans hq) hne

/-- The loop over the targets of an instruction. -/
theorem foldl (targets : List (BitVec 64)) (h : f.Sorted st.allInstructions) :
    f.Checks fallThroughAddr targets st (targets.foldl
      (fun st a => st.checkTarget f.function fallThroughAddr a) st) := by
  induction targets generalizing st with
  | nil => exact .refl st
  | cons a targets ih =>
    have hfirst : f.Checks fallThroughAddr [a] st _ := .single h
    exact hfirst.cons (ih (hfirst.all ▸ h))

end Checks

/-! ## A round -/

/-- No type of an instruction has the number of the mnemonic. -/
theorem checkType_eq : st.checkType x = st := by
  unfold DigestState.checkType
  cases x.itype <;> rfl

/-- A search that finds the address behind an instruction in another one has found
overlapping instructions. -/
theorem overlaps_of_end (h : f.Sorted st.allInstructions) (hx : x ∈ st.allInstructions)
    {q : X86Instruction} (hfind : st.find x.endAddress = some q)
    (hne : q.baseAddress ≠ x.endAddress) : Overlaps st.allInstructions := by
  obtain ⟨hq, hlow, hhigh⟩ := inside_of_find h hfind hne
  rw [(h.placed x hx).endAddress_toNat] at hlow hhigh
  have hxstop : x.stop = x.start + x.sizeInBytes.toNat := rfl
  have hsized := (h.placed x hx).sized
  rcases Nat.lt_trichotomy q.start x.start with hlt | heq | hgt
  · exact ⟨x, hx, q, hq, hlt, by omega⟩
  · -- of two instructions that begin at one address the list has only one
    exfalso
    obtain ⟨before, after, hsplit⟩ := List.append_of_mem hx
    rw [hsplit] at h hq
    obtain ⟨hbefore, hafter⟩ := h.append_cons
    rcases List.mem_append.mp hq with hq | hq
    · exact absurd heq (hbefore q hq).2.ne
    · rcases List.mem_cons.mp hq with rfl | hq
      · omega
      · exact absurd heq (hafter q hq).2.ne'
  · exact ⟨q, hq, x, hx, hgt, hlow⟩

/-- What the check of the fall-through address does. -/
structure FallThroughChecked (st st' : DigestState) (x : X86Instruction)
    (fallThroughAddr : BitVec 64) : Prop where
  all : st'.allInstructions = st.allInstructions
  kept : ∀ a ∈ st.unprocessed, a ∈ st'.unprocessed
  served : x.controlFallsThrough = true → Served st' x.endAddress
  bad : st'.badInstruction ≠ 0 → st.badInstruction ≠ 0 ∨ Overlaps st.allInstructions
  addr : fallThroughAddr = 0 ∨ Served st' fallThroughAddr

theorem checkFallThrough_spec (h : f.Sorted st.allInstructions) (hx : x ∈ st.allInstructions) :
    FallThroughChecked st (st.checkFallThrough x).1 x (st.checkFallThrough x).2 := by
  generalize hr : st.checkFallThrough x = r
  unfold DigestState.checkFallThrough at hr
  cases hfind : st.find x.endAddress with
  | none =>
    simp only [hfind] at hr
    split at hr
    · subst hr
      have hserved : Served (st.push x.endAddress) x.endAddress := .inr (.inl List.mem_cons_self)
      exact ⟨rfl, fun a ha => List.mem_cons_of_mem _ ha, fun _ => hserved, .inl, .inr hserved⟩
    · rename_i hnot
      subst hr
      exact ⟨rfl, fun _ => id, fun hfalls => absurd hfalls hnot, .inl, .inl rfl⟩
  | some q =>
    simp only [hfind] at hr
    subst hr
    split
    · rename_i hne
      have hserved : Served (st.setBadInstruction x.endAddress) x.endAddress :=
        .inl (ne_zero_of_lt (inside_of_find h hfind hne).2.1)
      exact ⟨rfl, fun _ => id, fun _ => hserved,
        fun _ => .inr (overlaps_of_end h hx hfind hne), .inr hserved⟩
    · rename_i hbase
      rw [not_not] at hbase
      have hserved : Served st x.endAddress :=
        .inr (.inr ⟨q, (DigestState.find_sound h hfind).1, hbase⟩)
      exact ⟨rfl, fun _ => id, fun _ => hserved, .inl, .inr hserved⟩

/-- What a round does that decodes `x`. -/
structure Processed (f : FunctionCode) (st st' : DigestState) (x : X86Instruction) : Prop where
  all : st'.allInstructions = (st.insert x).allInstructions
  kept : ∀ a ∈ st.unprocessed, a ∈ st'.unprocessed
  fall : x.controlFallsThrough = true → Served st' x.endAddress
  served : ∀ a ∈ f.controlTargetAddrs (st.insert x) x, f.function.inRange a = true → Served st' a
  bad : st'.badInstruction ≠ 0 → f.Exposes st x
  exposed : f.Exposes st x → st'.badInstruction ≠ 0 ∨ Overlaps st'.allInstructions

/-- The instructions overlap that overlapped before the new one was in its place. -/
theorem overlaps_insert (h : ∀ y, y ∈ st'.allInstructions ↔ y = x ∨ y ∈ st.allInstructions) :
    Overlaps st'.allInstructions ↔ Overlaps (x :: st.allInstructions) := by
  simp only [Overlaps, List.mem_cons, h]

theorem process_spec (h : f.Sorted st.allInstructions) (hx : f.Placed x)
    (hnew : ∀ y ∈ st.allInstructions, y.start ≠ x.start) (hbad : st.badInstruction = 0)
    (hentry : ∃ y ∈ (st.insert x).allInstructions,
      y.baseAddress = f.function.baseAddress) : Processed f st (f.process st x) x := by
  obtain ⟨hsorted, hmem, -⟩ := DigestState.insert_spec h hx hnew
  have hxmem : x ∈ (st.insert x).allInstructions := (hmem x).mpr (.inl rfl)
  have hfall := checkFallThrough_spec hsorted hxmem
  have hoverlaps := overlaps_insert hmem
  unfold process
  rw [checkType_eq]
  generalize (st.insert x).checkFallThrough x = r at hfall ⊢
  obtain ⟨st₁, fallThroughAddr⟩ := r
  simp only at hfall ⊢
  rw [controlTargetAddrs_congr hfall.all]
  have hlost : f.tableLost st₁ x = f.tableLost (st.insert x) x := tableLost_congr hfall.all
  by_cases htable : x.isJumpTableBase = true ∧ f.tableLost (st.insert x) x = true
  · -- a lost table has no targets
    have htargets : f.controlTargetAddrs (st.insert x) x = [] := by
      simp only [controlTargetAddrs, htable.1, htable.2, if_true]
    have hcheck : f.checkTable st₁ x = st₁.setBadInstruction x.baseAddress := by
      simp only [checkTable, htable.1, hlost, htable.2, Bool.and_self, if_true]
    rw [htargets, hcheck, List.foldl_nil]
    constructor
    case all => exact hfall.all
    case kept => exact hfall.kept
    case fall =>
      intro hfalls
      simp [X86Instruction.controlFallsThrough, htable.1] at hfalls
    case served => simp [htargets]
    case bad => exact fun hne => .table htable.1 htable.2 hne
    case exposed =>
      intro hexposes
      cases hexposes with
      | table _ _ hne => exact .inl hne
      | middle _ ha => simp [htargets] at ha
      | overlap hover => exact .inr (hfall.all ▸ hoverlaps.mpr hover)
  · have hcheck : f.checkTable st₁ x = st₁ := by
      unfold checkTable
      rw [if_neg]
      rwa [Bool.and_eq_true, hlost]
    rw [hcheck]
    have hsorted₁ : f.Sorted st₁.allInstructions := hfall.all ▸ hsorted
    have hchecks : f.Checks fallThroughAddr (f.controlTargetAddrs (st.insert x) x) st₁ _ :=
      .foldl _ hsorted₁
    have hserved : ∀ {a}, Served st₁ a → Served _ a := fun hs =>
      hs.mono (fun y hy => hchecks.all.symm ▸ hy) hchecks.kept hchecks.marked
    constructor
    case all => exact hchecks.all.trans hfall.all
    case kept => exact fun a ha => hchecks.kept a (hfall.kept a ha)
    case fall => exact fun hfalls => hserved (hfall.served hfalls)
    case served =>
      intro a ha hin
      by_cases heq : a = fallThroughAddr
      · rcases hfall.addr with hzero | hs
        · -- the address 0 can only be the entry
          obtain ⟨y, hy, hbase⟩ := hentry
          have hlow := (inRange_iff.mp hin).1
          refine hserved (.inr (.inr ⟨y, hfall.all.symm ▸ hy, ?_⟩))
          rw [hbase, heq, hzero]
          apply BitVec.eq_of_toNat_eq
          rw [heq, hzero] at hlow
          simpa using hlow
        · exact hserved (heq ▸ hs)
      · exact hchecks.served a ha hin heq
    case bad =>
      intro hne
      rcases hchecks.bad hne with hne | ⟨a, ha, q, hq, hlow, hhigh⟩
      · rcases hfall.bad hne with hne | hover
        · exact absurd hbad hne
        · exact .overlap (hoverlaps.mp hover)
      · rw [hfall.all] at hq
        exact .middle (List.mem_cons.mpr ((hmem q).mp hq)) ha hlow hhigh
    case exposed =>
      intro hexposes
      cases hexposes with
      | table htab hlost _ => exact absurd ⟨htab, hlost⟩ htable
      | @middle q a hq ha hlow hhigh =>
        rw [hchecks.all]
        have hq₁ : q ∈ st₁.allInstructions :=
          hfall.all.symm ▸ (hmem q).mpr (List.mem_cons.mp hq)
        by_cases hover : Overlaps st₁.allInstructions
        · exact .inr hover
        · -- the search finds the target in `q`, or at another instruction inside `q`
          obtain ⟨q', hq'⟩ := DigestState.find_complete hsorted₁ hover hq₁ hlow.le hhigh
          by_cases hbase : q'.baseAddress = a
          · have hstart : q'.start = a.toNat := congrArg BitVec.toNat hbase
            exact .inr ⟨q', (DigestState.find_sound hsorted₁ hq').1, q, hq₁, hstart ▸ hlow,
              hstart ▸ hhigh⟩
          · exact .inl (hchecks.found a ha q' hq' hbase)
      | overlap hover =>
        rw [hchecks.all, hfall.all]
        exact .inr (hoverlaps.mpr hover)

end FunctionCode

end Pebil

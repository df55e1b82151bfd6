import Pebil.Cfg.DigestRound
import Mathlib.Data.Finset.Card
import Mathlib.Order.Interval.Finset.Nat
import Mathlib.Data.Prod.Lex

/-!
# When recursive disassembly is right (src/Function.C:405–540)

`Visited` are the states that the search of `digestRecursive` goes through, and `SearchInv`
is what holds in all of them: the instructions found so far are sorted by address, and every
address in the function to which one of them transfers control has been found as well or is
still on the stack, unless the function is marked as bad.

Where an address from the stack turns out to lie inside an instruction, an assertion fails
instead of the function being marked, and an invalid instruction is not bad at all: its type
is compared with a mnemonic. `digestRecursive_iff` says that nothing else goes wrong.
-/

namespace Pebil

/-- The address on top of the stack is found in an instruction that does not begin there. -/
def DigestState.Inside (st : DigestState) : Prop :=
  st.badInstruction = 0 ∧ ∃ a q, st.unprocessed.head? = some a ∧ st.find a = some q ∧
    q.baseAddress ≠ a

/-- The decoder gives `UD_Iinvalid`. -/
def X86Instruction.Invalid (x : X86Instruction) : Prop := x.mnemonic = .other udIinvalid

namespace FunctionCode

variable (f : FunctionCode)

/-- The states that the search goes through. -/
inductive Visited : DigestState → Prop
  | start : Visited f.start
  | step {st st' : DigestState} : Visited st → f.searchStep st = .inl st' → Visited st'

/-- In this state the search decodes `x`. -/
structure Decodes (st : DigestState) (x : X86Instruction) : Prop where
  good : st.badInstruction = 0
  next : st.unprocessed.head? = some x.baseAddress
  new : st.find x.baseAddress = none
  inRange : f.function.inRange x.baseAddress = true
  decode : x = f.decode x.baseAddress

/-- A list that `digestRecursive` may return: valid instructions that the decoder has found,
sorted by address, apart from each other and in the function, with the entry among them and
all addresses in the function to which they transfer control. Only the size of an
instruction is reduced. -/
structure WellDecoded (l : List X86Instruction) : Prop where
  sorted : l.Pairwise fun x y => x.start < y.start
  apart : l.Pairwise fun x y => x.stop ≤ y.start
  sized : ∀ x ∈ l, 0 < x.sizeInBytes.toNat ∧
    x.sizeInBytes.toNat ≤ (f.decode x.baseAddress).sizeInBytes.toNat
  decoded : ∀ x ∈ l, { f.decode x.baseAddress with sizeInBytes := x.sizeInBytes } = x
  inside : ∀ x ∈ l, f.function.baseAddress.toNat ≤ x.start ∧
    x.stop ≤ f.function.baseAddress.toNat + f.function.sizeInBytes.toNat
  entry : ∃ x ∈ l, x.baseAddress = f.function.baseAddress
  closed : ∀ x ∈ l, ∀ a, (f.decode x.baseAddress).TransfersTo a →
    f.function.inRange a = true → ∃ y ∈ l, y.baseAddress = a
  valid : ∀ x ∈ l, ¬ x.Invalid

/-- A right result: a good list, or the report that the function cannot be decoded when an
invalid instruction or what else is bad has been met. -/
def Right : Digested → Prop
  | .fails => False
  | .undecodable => ∃ st x, f.Visited st ∧ f.Decodes st x ∧ (x.Invalid ∨ f.Exposes st x)
  | .decoded l => f.WellDecoded l

/-- `digestRecursive` terminates with the result. -/
def Terminates (result : Digested) : Prop :=
  ∃ N, ∀ fuel, N ≤ fuel → f.digestRecursive fuel = some result

variable {f} {st st' : DigestState} {x y : X86Instruction} {a : BitVec 64}
  {l : List X86Instruction}

/-! ## The rounds of the search -/

/-- A round drops an address that has been decoded or is outside the function, or it decodes
an instruction. -/
theorem searchStep_eq_inl (h : f.searchStep st = .inl st') :
    (∃ a rest, st.unprocessed = a :: rest ∧ st.badInstruction = 0 ∧
      ((∃ q, st.find a = some q ∧ q.baseAddress = a) ∨ f.function.inRange a = false) ∧
        st' = st.pop) ∨
      ∃ x, f.Decodes st x ∧ st' = f.process st.pop x := by
  unfold searchStep at h
  split at h
  · cases h
  · rename_i a rest hstack
    split at h
    · cases h
    · rename_i hgood
      rw [not_not] at hgood
      split at h
      · rename_i q hfind
        split at h
        · rename_i hbase
          exact .inl ⟨a, rest, hstack, hgood, .inl ⟨q, hfind, hbase⟩, (Sum.inl.inj h).symm⟩
        · cases h
      · rename_i hfind
        split at h
        · rename_i hin
          have hbase := f.decode_base a
          refine .inr ⟨f.decode a, ⟨hgood, ?_, ?_, ?_, ?_⟩, (Sum.inl.inj h).symm⟩ <;> rw [hbase]
          · rw [hstack, List.head?_cons]
          · exact hfind
          · exact hin
        · rename_i hout
          exact .inl ⟨a, rest, hstack, hgood, .inr (Bool.not_eq_true _ ▸ hout),
            (Sum.inl.inj h).symm⟩

/-- The search ends with an empty stack or a mark, or an assertion fails. -/
theorem searchStep_eq_inr {r : Option DigestState} (h : f.searchStep st = .inr r) :
    (r = some st ∧ (st.unprocessed = [] ∨ st.badInstruction ≠ 0)) ∨
      (r = none ∧ st.Inside) := by
  unfold searchStep at h
  split at h
  · rename_i hstack
    exact .inl ⟨(Sum.inr.inj h).symm, .inl hstack⟩
  · rename_i a rest hstack
    split at h
    · rename_i hbad
      exact .inl ⟨(Sum.inr.inj h).symm, .inr hbad⟩
    · rename_i hgood
      rw [not_not] at hgood
      split at h
      · rename_i q hfind
        split at h
        · cases h
        · rename_i hne
          exact .inr ⟨(Sum.inr.inj h).symm, hgood, a, q, by rw [hstack, List.head?_cons], hfind,
            hne⟩
      · split at h <;> cases h

/-- There the assertion fails. -/
theorem searchStep_of_inside (h : st.Inside) : f.searchStep st = .inr none := by
  obtain ⟨hgood, a, q, hhead, hfind, hne⟩ := h
  obtain ⟨rest, hstack⟩ := List.head?_eq_some_iff.mp hhead
  simp only [searchStep, hstack, hgood, ne_eq, not_true_eq_false, if_false, hfind, hne]

/-! ## What holds in every state -/

variable (f) in
/-- Some decoded instruction was exposing. -/
def MeetsExposed : Prop := ∃ st x, f.Visited st ∧ f.Decodes st x ∧ f.Exposes st x

variable (f) in
/-- The invariant of the search. -/
structure SearchInv (st : DigestState) : Prop where
  sorted : f.Sorted st.allInstructions
  decoded : ∀ x ∈ st.allInstructions, ∃ st', f.Visited st' ∧ f.Decodes st' x
  entry : (st.allInstructions = [] ∧ st.unprocessed = [f.function.baseAddress] ∧
    st.badInstruction = 0) ∨ ∃ x ∈ st.allInstructions, x.baseAddress = f.function.baseAddress
  closed : ∀ x ∈ st.allInstructions, ∀ a, x.TransfersTo a → f.function.inRange a = true →
    Served st a
  bad : st.badInstruction ≠ 0 ∨ Overlaps st.allInstructions → f.MeetsExposed

theorem Decodes.placed (h : f.Decodes st x) : f.Placed x :=
  h.decode ▸ placed_decode h.inRange

/-- What is decoded has not been decoded before. -/
theorem Decodes.start_ne (h : f.Decodes st x) (hsorted : f.Sorted st.allInstructions) :
    ∀ y ∈ st.allInstructions, y.start ≠ x.start := by
  intro y hy heq
  obtain ⟨q, hq⟩ := DigestState.find_start hsorted hy
  rw [BitVec.eq_of_toNat_eq heq, h.new] at hq
  cases hq

/-- The stack does not matter for what an instruction exposes. -/
theorem exposes_pop : f.Exposes st.pop x ↔ f.Exposes st x := by
  have hall : (st.pop.insert x).allInstructions = (st.insert x).allInstructions := rfl
  constructor
  · rintro (⟨htable, hlost, hne⟩ | ⟨hq, ha, hlow, hhigh⟩ | hover)
    · exact .table htable ((tableLost_congr hall) ▸ hlost) hne
    · exact .middle hq (controlTargetAddrs_congr hall ▸ ha) hlow hhigh
    · exact .overlap hover
  · rintro (⟨htable, hlost, hne⟩ | ⟨hq, ha, hlow, hhigh⟩ | hover)
    · exact .table htable ((tableLost_congr hall) ▸ hlost) hne
    · exact .middle hq (controlTargetAddrs_congr hall ▸ ha) hlow hhigh
    · exact .overlap hover

/-- The targets of an instruction's direct transfers are what the search checks. -/
theorem mem_controlTargetAddrs {op : OperandX86} (hanchor : x.addressAnchor = none)
    (htable : x.isJumpTableBase = false) (hcontrol : x.isBranch = true ∨ x.isFunctionCall = true)
    (hop : x.operands 0 = some op) (htype : op.type = .jimm) :
    x.baseAddress + op.value + x.sizeInBytes ∈ f.controlTargetAddrs st x := by
  have htarget : x.getTargetAddress = x.baseAddress + op.value + x.sizeInBytes := by
    simp only [X86Instruction.getTargetAddress, hanchor, hop, htype, if_true]
  have huses : x.usesControlTarget = true ∧ x.targetAddress = x.getTargetAddress := by
    simp only [X86Instruction.isBranch, X86Instruction.isUnconditionalBranch,
      X86Instruction.isConditionalBranch, X86Instruction.isFunctionCall, Bool.or_eq_true,
      beq_iff_eq] at hcontrol
    unfold X86Instruction.usesControlTarget X86Instruction.targetAddress
    rcases hcontrol with (htype | htype) | htype <;>
      simp [X86Instruction.isUnconditionalBranch, X86Instruction.isConditionalBranch,
        X86Instruction.isFunctionCall, htype]
  unfold controlTargetAddrs
  rw [htable, huses.1, huses.2, htarget]
  simp

/-- A dropped address is served without the stack. -/
theorem SearchInv.pop (h : f.SearchInv st) (hsize : 0 < f.function.sizeInBytes.toNat)
    {rest : List (BitVec 64)} (hstack : st.unprocessed = a :: rest)
    (hdrop : (∃ q, st.find a = some q ∧ q.baseAddress = a) ∨ f.function.inRange a = false) :
    f.SearchInv st.pop where
  sorted := h.sorted
  decoded := h.decoded
  entry := by
    rcases h.entry with ⟨hnil, hone, -⟩ | hentry
    · -- the entry itself is in the function and has not been decoded
      obtain ⟨rfl, -⟩ := List.cons.inj (hstack.symm.trans hone)
      rcases hdrop with ⟨q, hq, -⟩ | hout
      · have := (DigestState.find_sound h.sorted hq).1
        simp [hnil] at this
      · have hin := (inRange_iff (f := f) (a := f.function.baseAddress)).mpr ⟨le_refl _, by omega⟩
        rw [hout] at hin
        cases hin
    · exact .inr hentry
  closed x hx b hb hin := by
    rcases h.closed x hx b hb hin with hbad | hwaiting | hfound
    · exact .inl hbad
    · rw [hstack] at hwaiting
      rcases List.mem_cons.mp hwaiting with rfl | hwaiting
      · rcases hdrop with ⟨q, hq, hbase⟩ | hout
        · exact .inr (.inr ⟨q, (DigestState.find_sound h.sorted hq).1, hbase⟩)
        · rw [hout] at hin
          cases hin
      · refine .inr (.inl ?_)
        rwa [DigestState.pop_unprocessed, hstack]
    · exact .inr (.inr hfound)
  bad := h.bad

/-- After the first instruction the entry is among those decoded. -/
theorem SearchInv.entry_insert (h : f.SearchInv st) (hx : f.Decodes st x) :
    ∃ y ∈ (st.insert x).allInstructions, y.baseAddress = f.function.baseAddress := by
  obtain ⟨-, hmem, -⟩ := DigestState.insert_spec h.sorted hx.placed (hx.start_ne h.sorted)
  rcases h.entry with ⟨-, hone, -⟩ | ⟨y, hy, hbase⟩
  · have hhead := hx.next
    rw [hone, List.head?_cons] at hhead
    exact ⟨x, (hmem x).mpr (.inl rfl), (Option.some.inj hhead).symm⟩
  · exact ⟨y, (hmem y).mpr (.inr hy), hbase⟩

/-- The round that decodes `x`, as `process_spec` has it. -/
theorem SearchInv.processed (h : f.SearchInv st) (hx : f.Decodes st x) :
    Processed f st.pop (f.process st.pop x) x :=
  process_spec h.sorted hx.placed (hx.start_ne h.sorted) hx.good (h.entry_insert hx)

theorem SearchInv.process (h : f.SearchInv st) (hvisited : f.Visited st) (hx : f.Decodes st x) :
    f.SearchInv (f.process st.pop x) := by
  obtain ⟨hsorted, hmem, -⟩ := DigestState.insert_spec h.sorted hx.placed (hx.start_ne h.sorted)
  have hround := h.processed hx
  obtain ⟨rest, hstack⟩ := List.head?_eq_some_iff.mp hx.next
  have hmem' : ∀ y, y ∈ (f.process st.pop x).allInstructions ↔ y = x ∨ y ∈ st.allInstructions :=
    fun y => hround.all ▸ hmem y
  constructor
  case sorted => exact hround.all ▸ hsorted
  case decoded =>
    intro y hy
    rcases (hmem' y).mp hy with rfl | hy
    · exact ⟨st, hvisited, hx⟩
    · exact h.decoded y hy
  case entry => exact .inr (hround.all ▸ h.entry_insert hx)
  case closed =>
    intro y hy b hb hin
    rcases (hmem' y).mp hy with rfl | hy
    · cases hb with
      | fallThrough hfalls heq => exact heq ▸ hround.fall hfalls
      | direct htable hcontrol hop htype heq =>
        have hanchor : y.addressAnchor = none := hx.decode ▸ f.decode_anchor _
        refine hround.served b ?_ hin
        rw [heq]
        exact mem_controlTargetAddrs hanchor htable hcontrol hop htype
    · rcases h.closed y hy b hb hin with hbad | hwaiting | ⟨z, hz, hbase⟩
      · exact absurd hx.good hbad
      · rw [hstack] at hwaiting
        rcases List.mem_cons.mp hwaiting with rfl | hwaiting
        · exact .inr (.inr ⟨x, (hmem' x).mpr (.inl rfl), rfl⟩)
        · refine .inr (.inl (hround.kept b ?_))
          rwa [DigestState.pop_unprocessed, hstack]
      · exact .inr (.inr ⟨z, (hmem' z).mpr (.inr hz), hbase⟩)
  case bad =>
    rintro (hbad | hover)
    · exact ⟨st, x, hvisited, hx, exposes_pop.mp (hround.bad hbad)⟩
    · exact ⟨st, x, hvisited, hx, .overlap ((overlaps_insert hmem').mp hover)⟩

theorem Visited.inv (hsize : 0 < f.function.sizeInBytes.toNat) (h : f.Visited st) :
    f.SearchInv st := by
  induction h with
  | start =>
    have hnone : ∀ x, x ∉ f.start.allInstructions := fun x => List.not_mem_nil
    refine ⟨⟨fun x hx => absurd hx (hnone x), .nil⟩, fun x hx => absurd hx (hnone x),
      .inl ⟨rfl, rfl, rfl⟩, fun x hx => absurd hx (hnone x), ?_⟩
    rintro (hbad | ⟨p, hp, -⟩)
    · exact absurd rfl hbad
    · exact absurd hp (hnone p)
  | step hst hstep ih =>
    rcases searchStep_eq_inl hstep with ⟨a, rest, hstack, -, hdrop, rfl⟩ | ⟨x, hx, rfl⟩
    · exact ih.pop hsize hstack hdrop
    · exact ih.process hst hx

/-! ## Termination -/

/-- There are no more instructions than addresses in the function. -/
theorem Sorted.length_le (h : f.Sorted l) : l.length ≤ f.function.sizeInBytes.toNat := by
  have hnodup : (l.map X86Instruction.start).Nodup :=
    List.pairwise_map.mpr (h.sorted.imp Nat.ne_of_lt)
  have hsub : (l.map X86Instruction.start).toFinset ⊆ Finset.Ico f.function.baseAddress.toNat
      (f.function.baseAddress.toNat + f.function.sizeInBytes.toNat) := by
    intro n hn
    obtain ⟨x, hx, rfl⟩ := List.mem_map.mp (List.mem_toFinset.mp hn)
    exact Finset.mem_Ico.mpr ⟨(h.placed x hx).low, (h.placed x hx).high⟩
  have hcard := Finset.card_le_card hsub
  rw [List.toFinset_card_of_nodup hnodup, List.length_map, Nat.card_Ico] at hcard
  omega

variable (f) in
/-- The addresses without an instruction, and the stack. -/
def variant (st : DigestState) : Nat × Nat :=
  (f.function.sizeInBytes.toNat - st.allInstructions.length, st.unprocessed.length)

/-- The search ends: with a state in which the stack is empty or the function is bad, or
where an assertion fails. -/
theorem search_returns (hsize : 0 < f.function.sizeInBytes.toNat) :
    ∃ r, Returns f.searchStep f.start r ∧ ∃ st, f.Visited st ∧
      ((r = some st ∧ (st.unprocessed = [] ∨ st.badInstruction ≠ 0)) ∨ (r = none ∧ st.Inside)) := by
  refine returns_total (r := InvImage (Prod.Lex (· < ·) (· < ·)) f.variant)
    (InvImage.wf _ (WellFounded.prod_lex wellFounded_lt wellFounded_lt)) f.Visited _
    (fun st hst => ?_) f.start .start
  cases hstep : f.searchStep st with
  | inr r => exact .inr ⟨r, rfl, st, hst, searchStep_eq_inr hstep⟩
  | inl st' =>
    have hst' := hst.step hstep
    refine .inl ⟨st', rfl, hst', ?_⟩
    have hinv := hst.inv hsize
    have hlength := (hst'.inv hsize).sorted.length_le
    rcases searchStep_eq_inl hstep with ⟨a, rest, hstack, -, -, rfl⟩ | ⟨x, hx, rfl⟩
    · -- an address is dropped
      refine Prod.Lex.right _ ?_
      rw [DigestState.pop_unprocessed, hstack]
      simp
    · -- an instruction is added
      refine Prod.Lex.left _ _ ?_
      have hlen := (DigestState.insert_spec hinv.sorted hx.placed (hx.start_ne hinv.sorted)).2.2
      have hall : (f.process st.pop x).allInstructions = (st.insert x).allInstructions :=
        (hinv.processed hx).all
      rw [hall, hlen] at hlength ⊢
      omega

/-- From every state on its way the search has the same result. -/
theorem Visited.returns {r : Option DigestState} (h : f.Visited st)
    (hr : Returns f.searchStep f.start r) : Returns f.searchStep st r := by
  induction h with
  | start => exact hr
  | step _ hstep ih => exact (returns_inl hstep).mp ih

/-- What a round keeps holds at the end of the search. -/
theorem Visited.persists {final : DigestState} (J : DigestState → Prop)
    (hJ : ∀ s s', f.Visited s → J s → f.searchStep s = .inl s' → J s')
    (h : f.Visited st) (hst : J st) (hr : Returns f.searchStep f.start (some final)) :
    J final := by
  obtain ⟨n, hn⟩ := h.returns hr
  refine loop_partial (fun s => f.Visited s ∧ J s) (fun r => ∀ final, r = some final → J final)
    (fun s s' hs hstep => ⟨hs.1.step hstep, hJ s s' hs.1 hs.2 hstep⟩) (fun s r hs hstep => ?_)
    ⟨h, hst⟩ (hn n (Nat.le_refl n)) final rfl
  intro final hfinal
  rcases searchStep_eq_inr hstep with ⟨hr, -⟩ | ⟨hr, -⟩
  · exact Option.some.inj (hr.symm.trans hfinal) ▸ hs.2
  · cases hr.symm.trans hfinal

/-! ## What follows the search -/

/-- Comparing each instruction with the next one is enough to find overlaps. -/
theorem markOverlaps_ne_zero (h : f.Sorted l) (b : BitVec 64) :
    markOverlaps b l ≠ 0 ↔ b ≠ 0 ∨ Overlaps l := by
  induction l generalizing b with
  | nil => simp [markOverlaps, Overlaps]
  | cons x l ih =>
    cases l with
    | nil =>
      suffices hno : ¬ Overlaps [x] by simp [markOverlaps, hno]
      exact Sorted.not_overlaps (List.pairwise_singleton _ _)
    | cons y l =>
      obtain ⟨hplaced, hsorted⟩ := h
      obtain ⟨hx, htail⟩ := List.pairwise_cons.mp hsorted
      have hrest : f.Sorted (y :: l) := ⟨fun z hz => hplaced z (List.mem_cons_of_mem x hz), htail⟩
      have hend := (hplaced x List.mem_cons_self).endAddress_toNat
      unfold X86Instruction.endAddress at hend
      rw [markOverlaps, ih hrest]
      simp only [BitVec.lt_def, hend]
      constructor
      · rintro (hb | ⟨p, hp, q, hq, hover⟩)
        · split at hb
          · rename_i hlt
            exact .inr ⟨y, by simp, x, by simp, hx y List.mem_cons_self, hlt⟩
          · exact .inl hb
        · exact .inr ⟨p, List.mem_cons_of_mem x hp, q, List.mem_cons_of_mem x hq, hover⟩
      · intro hor
        have hstart : y.start = y.baseAddress.toNat := rfl
        by_cases hlt : y.baseAddress.toNat < x.stop
        · -- `x` goes over `y`, whose address is not 0
          refine .inl ?_
          rw [if_pos hlt]
          exact ne_zero_of_lt (hx y List.mem_cons_self)
        · rw [if_neg hlt]
          refine hor.imp_right fun hover => ?_
          by_contra hno
          refine Sorted.not_overlaps (List.pairwise_cons.mpr ⟨fun z hz => ?_,
            hrest.pairwise_stop hno⟩) hover
          rcases List.mem_cons.mp hz with rfl | hz
          · omega
          · have := List.rel_of_pairwise_cons htail hz
            omega

/-- `y` is `x`, cut where the function ends. -/
structure Trims (f : FunctionCode) (x y : X86Instruction) : Prop where
  same : { x with sizeInBytes := y.sizeInBytes } = y
  sized : 0 < y.sizeInBytes.toNat
  le : y.sizeInBytes.toNat ≤ x.sizeInBytes.toNat
  inside : y.stop ≤ f.function.baseAddress.toNat + f.function.sizeInBytes.toNat

theorem Trims.base (h : Trims f x y) : y.baseAddress = x.baseAddress := by
  rw [← h.same]

theorem trims_self (h : f.Placed x)
    (hin : x.stop ≤ f.function.baseAddress.toNat + f.function.sizeInBytes.toNat) :
    Trims f x x :=
  ⟨rfl, h.sized, Nat.le_refl _, hin⟩

theorem trims_reduceTail (h : f.Placed x) : Trims f x (f.reduceTail x) := by
  have hsmall := f.small
  have hend := h.endAddress_toNat
  have hstop : x.stop = x.start + x.sizeInBytes.toNat := rfl
  have hbase := f.function.baseAddress.isLt
  obtain ⟨hlow, hhigh, hsized, hshort⟩ := id h
  have hmax : maxX86InstructionLength = 20 := rfl
  have hcurr : ((x.baseAddress + x.sizeInBytes - f.function.baseAddress).setWidth 32).toNat =
      x.stop - f.function.baseAddress.toNat := by
    unfold X86Instruction.endAddress at hend
    rw [BitVec.toNat_setWidth, BitVec.toNat_sub, hend]
    omega
  have hsize : (f.function.sizeInBytes.setWidth 32).toNat = f.function.sizeInBytes.toNat := by
    rw [BitVec.toNat_setWidth]
    omega
  unfold reduceTail
  simp only [BitVec.lt_def, hcurr, hsize]
  split
  · -- the bytes behind the function are taken off
    rename_i hlt
    have hextra : (x.sizeInBytes - (((x.baseAddress + x.sizeInBytes -
        f.function.baseAddress).setWidth 32 - f.function.sizeInBytes.setWidth 32).setWidth
          64)).toNat = f.function.baseAddress.toNat + f.function.sizeInBytes.toNat - x.start := by
      rw [BitVec.toNat_sub, BitVec.toNat_setWidth, BitVec.toNat_sub, hcurr, hsize]
      omega
    refine ⟨rfl, ?_, ?_, ?_⟩
    · simp only [hextra]
      omega
    · simp only [hextra]
      omega
    · simp only [X86Instruction.stop, hextra, X86Instruction.start] at hhigh ⊢
      omega
  · exact trims_self h (by omega)

/-- The last instruction of a list is cut, the others end before it. -/
theorem trims_all {init : List X86Instruction} {tail : X86Instruction}
    (h : f.Sorted (init ++ [tail])) (hno : ¬ Overlaps (init ++ [tail])) :
    List.Forall₂ (Trims f) (init ++ [tail]) (init ++ [f.reduceTail tail]) := by
  have hplaced := h.placed tail (by simp)
  have hbefore := (List.pairwise_append.mp (h.pairwise_stop hno)).2.2
  refine List.rel_append ?_ (.cons (trims_reduceTail hplaced) .nil)
  refine List.forall₂_same.mpr fun x hx => ?_
  have hstop := hbefore x hx tail List.mem_cons_self
  have := hplaced.high
  exact trims_self (h.placed x (by simp [hx])) (by omega)

theorem mergeSort_eq (h : f.Sorted l) :
    (l.mergeSort fun x y => compareBaseAddress x y ≤ 0) = l := by
  refine List.mergeSort_of_pairwise (h.sorted.imp_of_mem fun {x y} hx hy hxy => ?_)
  rw [(h.placed x hx).compareBaseAddress (h.placed y hy), decide_eq_true_eq]
  omega

/-- The result of a search that has found instructions: a list if nothing is marked and
nothing overlaps. -/
theorem finish_spec (h : f.Sorted st.allInstructions) (hne : st.allInstructions ≠ []) :
    ((st.badInstruction ≠ 0 ∨ Overlaps st.allInstructions) ∧ f.finish st = .undecodable) ∨
      (st.badInstruction = 0 ∧ ¬ Overlaps st.allInstructions ∧
        ∃ l, f.finish st = .decoded l ∧ List.Forall₂ (Trims f) st.allInstructions l) := by
  obtain ⟨init, tail, hall⟩ := (List.eq_nil_or_concat st.allInstructions).resolve_left hne
  rw [List.concat_eq_append] at hall
  have hmark := markOverlaps_ne_zero h st.badInstruction
  unfold finish
  rw [mergeSort_eq h]
  simp only
  rw [hall] at h hmark ⊢
  rw [List.getLast?_concat]
  simp only
  split
  · rename_i hbad
    exact .inl ⟨hmark.mp hbad, rfl⟩
  · rename_i hgood
    rw [hmark, not_or, not_not] at hgood
    rw [List.dropLast_concat]
    exact .inr ⟨hgood.1, hgood.2, _, rfl, trims_all h hgood.2⟩

theorem exists_of_forall₂ {l' : List X86Instruction} (h : List.Forall₂ (Trims f) l l') :
    (∀ x ∈ l, ∃ y ∈ l', Trims f x y) ∧ ∀ y ∈ l', ∃ x ∈ l, Trims f x y := by
  induction h with
  | nil => simp
  | cons hxy _ ih =>
    obtain ⟨hleft, hright⟩ := ih
    constructor
    · refine List.forall_mem_cons.mpr ⟨⟨_, List.mem_cons_self, hxy⟩, fun x hx => ?_⟩
      obtain ⟨y, hy, htrims⟩ := hleft x hx
      exact ⟨y, List.mem_cons_of_mem _ hy, htrims⟩
    · refine List.forall_mem_cons.mpr ⟨⟨_, List.mem_cons_self, hxy⟩, fun y hy => ?_⟩
      obtain ⟨x, hx, htrims⟩ := hright y hy
      exact ⟨x, List.mem_cons_of_mem _ hx, htrims⟩

/-- Cutting instructions keeps them in order and apart. -/
theorem pairwise_of_trims {l' : List X86Instruction} (h : List.Forall₂ (Trims f) l l')
    (hsorted : l.Pairwise fun x y => x.start < y.start)
    (hapart : l.Pairwise fun x y => x.stop ≤ y.start) :
    (l'.Pairwise fun x y => x.start < y.start) ∧ l'.Pairwise fun x y => x.stop ≤ y.start := by
  induction h with
  | nil => exact ⟨.nil, .nil⟩
  | @cons x y l l' hxy hl ih =>
    obtain ⟨hx, hsorted⟩ := List.pairwise_cons.mp hsorted
    obtain ⟨hxapart, hapart⟩ := List.pairwise_cons.mp hapart
    have hstart : ∀ {x y}, Trims f x y → y.start = x.start := fun h => congrArg BitVec.toNat h.base
    have hstop : y.stop ≤ x.stop := by
      have := hxy.le
      simp only [X86Instruction.stop, hstart hxy]
      omega
    refine ⟨List.pairwise_cons.mpr ⟨fun z hz => ?_, (ih hsorted hapart).1⟩,
      List.pairwise_cons.mpr ⟨fun z hz => ?_, (ih hsorted hapart).2⟩⟩ <;>
      obtain ⟨w, hw, hwz⟩ := (exists_of_forall₂ hl).2 z hz
    · rw [hstart hwz, hstart hxy]
      exact hx w hw
    · rw [hstart hwz]
      exact hstop.trans (hxapart w hw)

/-- A finished search without a mark, overlaps and invalid instructions gives a good list. -/
theorem SearchInv.wellDecoded (h : f.SearchInv st) (hstack : st.unprocessed = [])
    (hgood : st.badInstruction = 0) (hno : ¬ Overlaps st.allInstructions)
    (hl : List.Forall₂ (Trims f) st.allInstructions l)
    (hvalid : ∀ x ∈ st.allInstructions, ¬ x.Invalid) : f.WellDecoded l := by
  obtain ⟨hleft, hright⟩ := exists_of_forall₂ hl
  obtain ⟨hsorted, hapart⟩ := pairwise_of_trims hl h.sorted.sorted (h.sorted.pairwise_stop hno)
  have hdecode : ∀ x ∈ st.allInstructions, f.decode x.baseAddress = x := by
    intro x hx
    obtain ⟨st', -, hdecodes⟩ := h.decoded x hx
    exact hdecodes.decode.symm
  -- the instruction of the list at an address that has been decoded
  have hfound : ∀ {a}, (∃ x ∈ st.allInstructions, x.baseAddress = a) →
      ∃ y ∈ l, y.baseAddress = a := by
    rintro a ⟨x, hx, hbase⟩
    obtain ⟨y, hy, htrims⟩ := hleft x hx
    exact ⟨y, hy, htrims.base.trans hbase⟩
  constructor
  case sorted => exact hsorted
  case apart => exact hapart
  case sized =>
    intro y hy
    obtain ⟨x, hx, htrims⟩ := hright y hy
    rw [htrims.base, hdecode x hx]
    exact ⟨htrims.sized, htrims.le⟩
  case decoded =>
    intro y hy
    obtain ⟨x, hx, htrims⟩ := hright y hy
    rw [htrims.base, hdecode x hx]
    exact htrims.same
  case inside =>
    intro y hy
    obtain ⟨x, hx, htrims⟩ := hright y hy
    refine ⟨?_, htrims.inside⟩
    rw [X86Instruction.start, htrims.base]
    exact (h.sorted.placed x hx).low
  case entry =>
    rcases h.entry with ⟨-, hone, -⟩ | hentry
    · rw [hstack] at hone
      cases hone
    · exact hfound hentry
  case closed =>
    intro y hy a ha hin
    obtain ⟨x, hx, htrims⟩ := hright y hy
    rw [htrims.base, hdecode x hx] at ha
    rcases h.closed x hx a ha hin with hbad | hwaiting | hdecoded
    · exact absurd hgood hbad
    · rw [hstack] at hwaiting
      cases hwaiting
    · exact hfound hdecoded
  case valid =>
    intro y hy hinvalid
    obtain ⟨x, hx, htrims⟩ := hright y hy
    refine hvalid x hx ?_
    rw [← htrims.same] at hinvalid
    exact hinvalid

/-! ## The result -/

theorem terminates_of_returns {r : Option DigestState} (h : Returns f.searchStep f.start r) :
    f.Terminates (f.conclude r) := by
  obtain ⟨n, hn⟩ := h
  refine ⟨n, fun fuel hfuel => ?_⟩
  rw [digestRecursive, hn fuel hfuel, Option.map_some]

theorem Terminates.unique {r r' : Digested} (h : f.Terminates r) (h' : f.Terminates r') :
    r = r' := by
  obtain ⟨n, hn⟩ := h
  obtain ⟨m, hm⟩ := h'
  have hr := hn (max n m) (Nat.le_max_left n m)
  rw [hm (max n m) (Nat.le_max_right n m)] at hr
  exact (Option.some.inj hr).symm

/-- Of a function without bytes nothing is decoded. -/
theorem terminates_of_empty (h : f.function.sizeInBytes.toNat = 0) : f.Terminates .fails := by
  have hout : f.function.inRange f.function.baseAddress = false := by
    rw [← Bool.not_eq_true, inRange_iff, h]
    omega
  have hstep : f.searchStep f.start = .inl f.start.pop := by
    show (if f.function.inRange f.function.baseAddress then _ else _) = _
    rw [hout]
    rfl
  have hend : f.searchStep f.start.pop = .inr (some f.start.pop) := rfl
  have hnil : f.conclude (some f.start.pop) = .fails := by
    simp [conclude, finish, start, DigestState.pop]
  exact hnil ▸ terminates_of_returns
    ((returns_inl hstep).mpr (returns_of_loop (loop_inr hend 0)))

/-- The round that decodes an instruction. -/
theorem Decodes.searchStep (h : f.Decodes st x) :
    f.searchStep st = .inl (f.process st.pop x) := by
  obtain ⟨rest, hstack⟩ := List.head?_eq_some_iff.mp h.next
  simp only [FunctionCode.searchStep, hstack, h.good, ne_eq, not_true_eq_false, if_false, h.new,
    h.inRange, if_true, ← h.decode]

/-- What has been decoded stays in the list, with its overlaps. -/
theorem subset_of_searchStep (hsize : 0 < f.function.sizeInBytes.toNat) (hst : f.Visited st)
    (hstep : f.searchStep st = .inl st') :
    ∀ y ∈ st.allInstructions, y ∈ st'.allInstructions := by
  intro y hy
  have hinv := hst.inv hsize
  rcases searchStep_eq_inl hstep with ⟨a, rest, -, -, -, rfl⟩ | ⟨x, hx, rfl⟩
  · exact hy
  · rw [(hinv.processed hx).all]
    exact ((DigestState.insert_spec hinv.sorted hx.placed (hx.start_ne hinv.sorted)).2.1 y).mpr
      (.inr hy)

/-- At the end the list has all that was decoded. -/
theorem Decodes.mem_final {final : DigestState} (hsize : 0 < f.function.sizeInBytes.toNat)
    (hst : f.Visited st) (hx : f.Decodes st x)
    (hr : Returns f.searchStep f.start (some final)) : x ∈ final.allInstructions := by
  have hinv := hst.inv hsize
  refine (hst.step hx.searchStep).persists (fun s => x ∈ s.allInstructions)
    (fun s s' hs hmem hstep => subset_of_searchStep hsize hs hstep x hmem) ?_ hr
  rw [(hinv.processed hx).all]
  exact ((DigestState.insert_spec hinv.sorted hx.placed (hx.start_ne hinv.sorted)).2.1 x).mpr
    (.inl rfl)

/-- At the end the function is marked or has overlapping instructions if something was
exposed. -/
theorem MeetsExposed.final {final : DigestState} (hsize : 0 < f.function.sizeInBytes.toNat)
    (h : f.MeetsExposed) (hr : Returns f.searchStep f.start (some final)) :
    final.badInstruction ≠ 0 ∨ Overlaps final.allInstructions := by
  obtain ⟨st, x, hst, hx, hexposes⟩ := h
  have hinv := hst.inv hsize
  refine (hst.step hx.searchStep).persists
    (fun s => s.badInstruction ≠ 0 ∨ Overlaps s.allInstructions) (fun s s' hs hJ hstep => ?_)
    ((hinv.processed hx).exposed (exposes_pop.mpr hexposes)) hr
  rcases hJ with hbad | ⟨p, hp, q, hq, hover⟩
  · -- a mark ends the search
    rcases searchStep_eq_inl hstep with ⟨-, -, -, hgood, -⟩ | ⟨y, hy, -⟩
    · exact absurd hgood hbad
    · exact absurd hy.good hbad
  · have hsub := subset_of_searchStep hsize hs hstep
    exact .inr ⟨p, hsub p hp, q, hsub q hq, hover⟩

/-- A function on which the search goes as it should: it has bytes, an address from the
stack is never found inside an instruction, and an invalid instruction is only met in a
function with something else that is bad. -/
structure Sound (f : FunctionCode) : Prop where
  nonempty : 0 < f.function.sizeInBytes.toNat
  outside : ∀ st, f.Visited st → ¬ st.Inside
  invalid : (∃ st x, f.Visited st ∧ f.Decodes st x ∧ x.Invalid) → f.MeetsExposed

/-- The code `EB 03 .. .. B8 74 FD .. ..` at 0x400000: a jump to the branch at 5, which goes
back to a `mov` at 4 that has the branch inside; behind the branch, at 7, the search expects
an instruction too. -/
def jumpIntoMov : FunctionCode where
  function := ⟨0x400000, 9⟩
  decode a :=
    let (itype, sizeInBytes, displacement) : X86InstructionType × BitVec 64 × BitVec 64 :=
      if a = 0x400000 then (.uncondbr, 2, 3)
      else if a = 0x400004 then (.move, 5, 0)
      else if a = 0x400005 then (.condbr, 2, -3)
      else (.nop, 1, 0)
    { mnemonic := .other 0, itype, format := .unknown
      operands := fun i => if i = 0 then some ⟨.jimm, 0, 0, displacement⟩ else none
      flagsUse := 0, flagsDef := 0, impregUse := 0, impregDef := 0
      container := ⟨0x400000, 9⟩, baseAddress := a, sizeInBytes, addressAnchor := none }
  findJumpTableBaseAddress _ _ := 0
  computeJumpTableTargets _ _ := []
  decode_base _ := rfl
  decode_anchor _ := rfl
  sized a := by
    simp only
    split_ifs <;> decide
  short a := by
    simp only
    split_ifs <;> decide
  bounded := by decide
  small := by decide

end FunctionCode

end Pebil

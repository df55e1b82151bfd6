import Pebil.Cfg.ImmDominators
import Pebil.Cfg.LivenessCorrect

/-!
# Liveness of a function (src/Function.C:542–640, src/FlowGraph.C:522–686)

`computeLiveness` works on the graph that `generateCFG` connects. For a traceable body the control
flow of this graph is that of the code (`passes_iff`): from an instruction to those it can transfer
control to, and from a halt to the instruction behind it, where the processor goes on after an
interrupt. So what the analysis leaves is liveness along the paths of the code
(`generateCFG_liveness`).
-/

namespace Pebil

/-! ## The graph for `computeLiveness` -/

namespace CodeGraph

/-- A block as `computeLiveness` sees it. -/
def flowBlock (g : CodeGraph) (p : CodeBlock × Nat) : BasicBlock BodyInstruction where
  instructions := p.1.instructions
  targetBlocks := g.links.targetBlocks p.2
  nonempty := p.1.nonempty

/-- The graph that `computeLiveness` works on. -/
def toFlowGraph (g : CodeGraph) (hg : g.Connected) : FlowGraph BodyInstruction where
  basicBlocks := g.basicBlocks.zipIdx.map g.flowBlock
  targets_lt bb hbb t ht := by
    obtain ⟨p, -, rfl⟩ := List.mem_map.mp hbb
    rw [List.length_map, List.length_zipIdx]
    exact hg.targets_lt p.2 t ht

variable {g : CodeGraph} (hg : g.Connected) {l : Location} {x : BodyInstruction}

theorem getElem?_toFlowGraph (i : Nat) : (g.toFlowGraph hg).basicBlocks[i]? =
    (g.basicBlocks[i]?).map fun b => g.flowBlock (b, i) := by
  rw [toFlowGraph, List.getElem?_map, List.getElem?_zipIdx, Option.map_map, Nat.zero_add]
  rfl

theorem instruction?_toFlowGraph : (g.toFlowGraph hg).instruction? l = some x ↔
    ∃ b, g.basicBlocks[l.block]? = some b ∧ b.instructions[l.pos]? = some x := by
  rw [FlowGraph.instruction?, getElem?_toFlowGraph, Option.bind_map]
  exact Option.bind_eq_some_iff

/-- An instruction is followed by the next one of its block, the last one by the leaders of the
block's targets. -/
theorem controlFlow_toFlowGraph {i p : Nat} {b : CodeBlock} (hb : g.basicBlocks[i]? = some b)
    (hp : p < b.instructions.length) : (g.toFlowGraph hg).ControlFlow ⟨i, p⟩ l ↔
      (p + 1 < b.instructions.length ∧ l = ⟨i, p + 1⟩) ∨
        (p + 1 = b.instructions.length ∧ ∃ t ∈ g.links.targetBlocks i, l = ⟨t, 0⟩) := by
  have hget : (g.toFlowGraph hg).basicBlocks[i]? = some (g.flowBlock (b, i)) := by
    rw [getElem?_toFlowGraph, hb]
    rfl
  constructor
  · intro h
    generalize hl : (⟨i, p⟩ : Location) = l₀ at h
    cases h with
    | fallThrough hbb hj =>
      obtain ⟨rfl, rfl⟩ := Location.mk.inj hl
      obtain rfl := Option.some.inj (hget.symm.trans hbb)
      exact .inl ⟨hj, rfl⟩
    | target hbb ht =>
      obtain ⟨rfl, hpos⟩ := Location.mk.inj hl
      obtain rfl := Option.some.inj (hget.symm.trans hbb)
      have hlen : p = b.instructions.length - 1 := hpos
      exact .inr ⟨by omega, _, ht, rfl⟩
  · rintro (⟨hlt, rfl⟩ | ⟨hlen, t, ht, rfl⟩)
    · exact .fallThrough hget hlt
    · have hflow := FlowGraph.ControlFlow.target hget ht
      have hpos : (g.flowBlock (b, i)).instructions.length - 1 = p := by
        show b.instructions.length - 1 = p
        omega
      rwa [hpos] at hflow

end CodeGraph

/-! ## The control flow of the code -/

namespace FunctionBody

variable {f : FunctionBody} {blocks : List CodeBlock} {b : CodeBlock} {x y : BodyInstruction}

/-- Control passes from `x` to `y`: it is transferred, or the processor goes on behind a halt. -/
def Passes (f : FunctionBody) (x y : BodyInstruction) : Prop :=
  y ∈ f.instructions ∧
    (x.CanTransfer y.baseAddress ∨ x.isHalt = true ∧ y.baseAddress = x.endAddress)

namespace Cut

theorem before_back (hcut : f.Cut blocks) (hb : b ∈ blocks)
    (hx : x ∈ b.instructions.dropLast) : Before x b.back := by
  have hpair := instructions_pairwise (f := f)
  rw [← hcut.flatten, List.pairwise_flatten] at hpair
  have hinner := hpair.1 _ (List.mem_map_of_mem hb)
  rw [← List.dropLast_append_getLast b.nonempty] at hinner
  exact (List.pairwise_append.mp hinner).2.2 x hx _ (List.mem_singleton_self _)

/-- What is behind a block begins a block. -/
theorem exists_behind (hcut : f.Cut blocks) (hb : b ∈ blocks) (hy : y ∈ f.instructions)
    (hbase : y.baseAddress = b.back.endAddress) : ∃ c ∈ blocks, c.baseAddress = y.baseAddress := by
  obtain ⟨i, hi⟩ := List.mem_iff_getElem?.mp hb
  cases hd : blocks[i + 1]? with
  | some d =>
    refine ⟨d, List.mem_of_getElem? hd, ?_⟩
    rw [(hcut.base_eq_end_iff hi hd).mpr rfl, hbase]
  | none =>
    -- `b` is the last block, and nothing begins at its end
    have hback := hcut.mem_instructions hb (List.getLast_mem b.nonempty)
    have hend : b.back.endAddress.toNat =
        b.back.baseAddress.toNat + b.back.sizeInBytes.toNat := endAddress_toNat hback
    have hnat := congrArg BitVec.toNat hbase
    have hpos := f.sized y hy
    have hpos' : 0 < b.back.sizeInBytes.toNat := f.sized _ hback
    have hbefore : y = b.back ∨ Before y b.back := by
      obtain ⟨c, hc, hyc⟩ := hcut.exists_block hy
      obtain ⟨k, hk⟩ := List.mem_iff_getElem?.mp hc
      have hki : k < i ∨ k = i := by
        have hlen := List.getElem?_eq_none_iff.mp hd
        have hlt := (List.getElem?_eq_some_iff.mp hk).1
        omega
      rcases hki with hki | rfl
      · obtain ⟨hklt, rfl⟩ := List.getElem?_eq_some_iff.mp hk
        obtain ⟨hilt, rfl⟩ := List.getElem?_eq_some_iff.mp hi
        exact .inr (List.pairwise_iff_getElem.mp hcut.pairwise k i hklt hilt hki y hyc _
          (List.getLast_mem _))
      · obtain rfl := Option.some.inj (hi.symm.trans hk)
        exact (eq_back_or_mem_dropLast hyc).imp_right (hcut.before_back hb)
    rcases hbefore with rfl | hbefore
    · omega
    · unfold Before at hbefore
      omega

/-- What a block can transfer control to begins a block. -/
theorem exists_target (hcut : f.Cut blocks) (hb : b ∈ blocks) (hy : y ∈ f.instructions)
    (h : b.back.CanTransfer y.baseAddress) : ∃ c ∈ blocks, c.baseAddress = y.baseAddress := by
  have hback : b.back ∈ f.instructions := hcut.mem_instructions hb (List.getLast_mem b.nonempty)
  have hleads : f.LeaderAddr y.baseAddress → ∃ c ∈ blocks, c.baseAddress = y.baseAddress :=
    fun ha => hcut.exists_leader hy (.inr ⟨_, ha, covers_base hy⟩)
  cases h with
  | fallThrough _ hbase => exact hcut.exists_behind hb hy hbase
  | table htable hmem => exact hleads (leaderAddr_table hback htable hmem)
  | @direct op hkind hop hty hbase =>
    refine hleads ⟨_, hback, [b.back.targetAddress, b.back.endAddress], ?_, ?_⟩
    · have htable : ¬ b.back.isJumpTableBase = true := fun htable => by
        obtain ⟨⟨op', hop', hty'⟩, -⟩ := decoded_jumpTable hback htable
        obtain rfl := Option.some.inj (hop.symm.trans hop')
        exact type_ne_jimm hty' hty
      have huses : b.back.usesControlTarget = true := by
        simp only [X86Instruction.usesControlTarget, X86Instruction.isBranch,
          Bool.or_eq_true] at hkind ⊢
        tauto
      rw [controlTargetAddrs, if_neg htable, if_pos huses]
    · rw [hbase, targetAddress_branch hkind, getTargetAddress_known hback hop hty]
      exact List.mem_cons_self

/-- Inside a block control passes to the next instruction. -/
theorem passes_dropLast (hcut : f.Cut blocks) (hb : b ∈ blocks)
    (hx : x ∈ b.instructions.dropLast) :
    f.Passes x y ↔ y ∈ f.instructions ∧ y.baseAddress = x.endAddress := by
  have hc := hcut.isControl_eq_false hb hx
  simp only [X86Instruction.isControl, Bool.or_eq_false_iff] at hc
  obtain ⟨⟨⟨⟨hcond, huncond⟩, hsys⟩, hcall⟩, hret⟩ := hc
  have huses : x.usesControlTarget = false := by
    simp only [X86Instruction.usesControlTarget, hcond, huncond, hsys, hcall, Bool.or_false]
  have hfall : x.controlFallsThrough = !x.isHalt := by
    simp only [X86Instruction.controlFallsThrough, X86Instruction.isJumpTableBase, hret, huncond,
      Bool.false_and, Bool.or_false]
  rw [Passes, (kind_other huses).2, hfall]
  cases x.isHalt <;> simp

end Cut

section Connected

variable {g : CodeGraph} (hg : g.Connected) {i p : Nat} {l : Location}

/-- Inside a block, in the code as in the graph, the next instruction follows. -/
theorem passes_inside (hcut : f.Cut g.basicBlocks) (hb : g.basicBlocks[i]? = some b)
    (hp : b.instructions[p]? = some x) (hnext : p + 1 < b.instructions.length) :
    f.Passes x y ↔ ∃ l', (g.toFlowGraph hg).ControlFlow ⟨i, p⟩ l' ∧
      (g.toFlowGraph hg).instruction? l' = some y := by
  obtain ⟨hlt, hget⟩ := List.getElem?_eq_some_iff.mp hp
  have hbmem := List.mem_of_getElem? hb
  -- `x` is not the block's last instruction, so it is none that the body is cut behind
  have hxmem : x ∈ b.instructions.dropLast := by
    have hlt' : p < b.instructions.dropLast.length := by
      rw [List.length_dropLast]
      omega
    have hget' : b.instructions.dropLast[p] = x := by
      rw [List.getElem_dropLast]
      exact hget
    exact hget' ▸ List.getElem_mem hlt'
  have hmem := hcut.mem_instructions hbmem (List.getElem_mem hnext)
  -- a block has no gaps
  have hbase : (b.instructions[p + 1]).baseAddress = x.endAddress := by
    have hxf := hcut.mem_instructions hbmem (List.mem_of_mem_dropLast hxmem)
    have hchain := List.isChain_iff_getElem.mp (hcut.isChain.1 b hbmem) p (by omega)
    refine BitVec.eq_of_toNat_eq ?_
    rw [endAddress_toNat hxf, ← hchain, hget]
  rw [hcut.passes_dropLast hbmem hxmem]
  constructor
  · rintro ⟨hy, hyx⟩
    refine ⟨⟨i, p + 1⟩, (CodeGraph.controlFlow_toFlowGraph hg hb hlt).mpr (.inl ⟨hnext, rfl⟩), ?_⟩
    refine (CodeGraph.instruction?_toFlowGraph hg).mpr ⟨b, hb, ?_⟩
    rw [List.getElem?_eq_getElem hnext, eq_of_baseAddress_eq hmem hy (hbase.trans hyx.symm)]
  · rintro ⟨l', hflow, hy⟩
    rcases (CodeGraph.controlFlow_toFlowGraph hg hb hlt).mp hflow with ⟨-, rfl⟩ | ⟨hlen, -⟩
    · obtain ⟨b', hb', hy⟩ := (CodeGraph.instruction?_toFlowGraph hg).mp hy
      obtain rfl := Option.some.inj (hb.symm.trans hb')
      obtain ⟨-, rfl⟩ := List.getElem?_eq_some_iff.mp hy
      exact ⟨hmem, hbase⟩
    · omega

/-- From the end of a block control passes to the leaders of its targets. The cut sees to it that
what a block can transfer control to is a leader, traceability that nothing behind a halt is. -/
theorem passes_back (hf : f.Traceable) (hcut : f.Cut g.basicBlocks) (hedges : EdgesFaithful g)
    (hb : g.basicBlocks[i]? = some b) (hlast : p + 1 = b.instructions.length) :
    f.Passes b.back y ↔ ∃ l', (g.toFlowGraph hg).ControlFlow ⟨i, p⟩ l' ∧
      (g.toFlowGraph hg).instruction? l' = some y := by
  have hbmem := List.mem_of_getElem? hb
  have hback := hcut.mem_instructions hbmem (List.getLast_mem b.nonempty)
  have hflow := fun {l} => CodeGraph.controlFlow_toFlowGraph hg (l := l) hb
    (show p < b.instructions.length by omega)
  constructor
  · rintro ⟨hy, hpass⟩
    have hcan : b.back.CanTransfer y.baseAddress := by
      refine hpass.resolve_right fun ⟨hhalt, hbase⟩ => ?_
      -- what is behind a block begins a block, and no block begins behind a halt
      obtain ⟨c, hc, hcy⟩ := hcut.exists_behind hbmem hy hbase
      have hhead := hcut.mem_instructions hc (List.head_mem c.nonempty)
      obtain rfl := eq_of_baseAddress_eq hhead hy hcy
      exact hf.halts _ hback hhalt _ hhead hbase (hcut.led c hc).1
    -- the target's block is among the targets of this one
    obtain ⟨c, hc, hcy⟩ := hcut.exists_target hbmem hy hcan
    obtain ⟨t, ht⟩ := List.mem_iff_getElem?.mp hc
    have hmem : t ∈ g.links.targetBlocks i := (hedges i t b c hb ht).mpr (hcy ▸ hcan)
    refine ⟨⟨t, 0⟩, hflow.mpr (.inr ⟨hlast, t, hmem, rfl⟩), ?_⟩
    refine (CodeGraph.instruction?_toFlowGraph hg).mpr ⟨c, ht, ?_⟩
    have hhead := hcut.mem_instructions hc (List.head_mem c.nonempty)
    rw [← eq_of_baseAddress_eq hhead hy hcy, ← List.head?_eq_getElem?,
      List.head?_eq_some_head c.nonempty]
  · rintro ⟨l', hl', hy⟩
    rcases hflow.mp hl' with ⟨hnext, -⟩ | ⟨-, t, ht, rfl⟩
    · omega
    · obtain ⟨c, hc, hy⟩ := (CodeGraph.instruction?_toFlowGraph hg).mp hy
      have hyhead : c.instructions.head c.nonempty = y := by
        rw [← List.head?_eq_getElem?, List.head?_eq_some_head c.nonempty] at hy
        exact Option.some.inj hy
      have hcmem := List.mem_of_getElem? hc
      refine ⟨hyhead ▸ hcut.mem_instructions hcmem (List.head_mem c.nonempty), .inl ?_⟩
      rw [← hyhead]
      exact (hedges i t b c hb hc).mp ht

/-- The control flow of the graph is that of the code. -/
theorem passes_iff (hf : f.Traceable) (hcut : f.Cut g.basicBlocks) (hedges : EdgesFaithful g)
    (hx : (g.toFlowGraph hg).instruction? l = some x) :
    f.Passes x y ↔ ∃ l', (g.toFlowGraph hg).ControlFlow l l' ∧
      (g.toFlowGraph hg).instruction? l' = some y := by
  obtain ⟨i, p⟩ := l
  obtain ⟨b, hb, hp⟩ := (CodeGraph.instruction?_toFlowGraph hg).mp hx
  dsimp only at hb hp
  rcases Nat.lt_or_ge (p + 1) b.instructions.length with hnext | hlast
  · exact passes_inside hg hcut hb hp hnext
  · obtain ⟨hlt, hget⟩ := List.getElem?_eq_some_iff.mp hp
    obtain rfl : b.back = x := by
      rw [← hget, CodeBlock.back, List.getLast_eq_getElem]
      congr 1
      omega
    exact passes_back hg hf hcut hedges hb (by omega)

/-- The instructions and their places simulate each other, so what is live at a place is live at
its instruction. -/
theorem livePath_iff (hf : f.Traceable) (hcut : f.Cut g.basicBlocks) (hedges : EdgesFaithful g)
    (use defn : BodyInstruction → RegisterSet)
    (hx : (g.toFlowGraph hg).instruction? l = some x) (r : Nat) :
    LivePath (g.toFlowGraph hg).ControlFlow ((g.toFlowGraph hg).Uses use)
        ((g.toFlowGraph hg).Defines defn) l r ↔
      LivePath f.Passes (fun y r => (use y).Mem r) (fun y r => (defn y).Mem r) x r := by
  rw [← liveIn_iff_path, ← liveIn_iff_path]
  constructor
  -- from the places to their instructions
  · refine LiveIn.simulate (S := fun l x => (g.toFlowGraph hg).instruction? l = some x) ?_ ?_ ?_ hx
    · rintro l x hx r ⟨y, hy, hu⟩
      obtain rfl := Option.some.inj (hx.symm.trans hy)
      exact hu
    · intro l x hx r hd
      exact ⟨x, hx, hd⟩
    · intro l x l' hx hs
      obtain ⟨y, hy⟩ := FlowGraph.valid_iff.mp hs.valid
      exact ⟨y, (passes_iff hg hf hcut hedges hx).mpr ⟨l', hs, hy⟩, hy⟩
  -- and back
  · refine LiveIn.simulate (S := fun x l => (g.toFlowGraph hg).instruction? l = some x) ?_ ?_ ?_ hx
    · intro x l hx r hu
      exact ⟨x, hx, hu⟩
    · rintro x l hx r ⟨y, hy, hd⟩
      obtain rfl := Option.some.inj (hx.symm.trans hy)
      exact hd
    · intro x l y hx hs
      obtain ⟨l', hs', hy⟩ := (passes_iff hg hf hcut hedges hx).mp hs
      exact ⟨l', hs', hy⟩

end Connected

/-! ## Liveness -/

/-- The live sets are those of the code: a register is live before an instruction if control can
pass from there to a use of it without a definition before, and behind an instruction if it is live
before some instruction that control passes to. -/
structure LivenessFound (f : FunctionBody) (use defn : BodyInstruction → RegisterSet)
    (g : FlowGraph BodyInstruction) (st : LiveSets) : Prop where
  placed : ∀ x ∈ f.instructions, ∃ l, g.instruction? l = some x
  ins : ∀ l x, g.instruction? l = some x → ∀ r, (st.ins (g.index l)).Mem r ↔
    LivePath f.Passes (fun y r => (use y).Mem r) (fun y r => (defn y).Mem r) x r
  outs : ∀ l x, g.instruction? l = some x → ∀ r, (st.outs (g.index l)).Mem r ↔
    ∃ y, f.Passes x y ∧
      LivePath f.Passes (fun y r => (use y).Mem r) (fun y r => (defn y).Mem r) y r

/-- An instruction of the loop at `0x400000`. -/
def countdownInstruction (itype : X86InstructionType) (operand : Option OperandX86)
    (baseAddress sizeInBytes : BitVec 64) : BodyInstruction :=
  { earlyReturnInstruction itype operand baseAddress sizeInBytes with container := ⟨0x400000, 5⟩ }

/-- `ff c9`, `75 fc`, `c3`: a counter is decremented until it is zero. -/
def countdown : FunctionBody where
  function := ⟨0x400000, 5⟩
  instructions := [
    countdownInstruction .int none 0x400000 2,
    countdownInstruction .condbr (some ⟨.jimm, 0, 0, -4⟩) 0x400002 2,
    countdownInstruction .ret none 0x400004 1]
  badInstruction := false
  nonempty := by simp
  sized := by decide
  contiguous := by simp [countdownInstruction, earlyReturnInstruction]
  inside := by decide
  bounded := by decide
  container := by simp [countdownInstruction]
  unanchored := by simp [countdownInstruction, earlyReturnInstruction]
  decoded := by
    intro x hx
    simp only [List.mem_cons, List.not_mem_nil, or_false] at hx
    rcases hx with rfl | rfl | rfl
    · exact .nonControl rfl
    · exact .direct rfl rfl rfl rfl
    · exact .ret rfl
  aligned := by
    intro _ x hx a ha y hy hcov
    have hend : a = 0x400000 ∨ a = 0x400002 ∨ a = 0x400004 := by
      simp only [List.mem_cons, List.not_mem_nil, or_false] at hx
      rcases hx with rfl | rfl | rfl
      · cases ha with
        | fallThrough _ ha => exact .inr (.inl ha)
        | direct h => rcases h with h | h <;> cases h
        | table h => cases h
      · cases ha with
        | fallThrough _ ha => exact .inr (.inr ha)
        | direct _ hop _ ha =>
          cases hop
          exact .inl ha
        | table h => cases h
      · cases ha with
        | fallThrough h => cases h
        | direct h => rcases h with h | h <;> cases h
        | table h => cases h
    simp only [List.mem_cons, List.not_mem_nil, or_false] at hy
    rcases hend with rfl | rfl | rfl <;> rcases hy with rfl | rfl | rfl <;>
      first | rfl | exact absurd hcov (by decide)

theorem countdown_traceable : countdown.Traceable := by
  have hcases : ∀ x ∈ countdown.instructions, x = countdownInstruction .int none 0x400000 2 ∨
      x = countdownInstruction .condbr (some ⟨.jimm, 0, 0, -4⟩) 0x400002 2 ∨
      x = countdownInstruction .ret none 0x400004 1 := fun x hx => by
    simpa [countdown] using hx
  refine ⟨fun x hx h y hy hbase => ?_, fun x hx h => ?_, fun x hx h => ?_, fun x hx h => ?_⟩
  · rcases hcases x hx with rfl | rfl | rfl
    · cases h
    · cases h
    · rcases hcases y hy with rfl | rfl | rfl <;> exact absurd hbase (by decide)
  · rcases hcases x hx with rfl | rfl | rfl <;> cases h
  · rcases hcases x hx with rfl | rfl | rfl <;> rcases h with h | ⟨h, -⟩ <;> cases h
  · rcases hcases x hx with rfl | rfl | rfl <;> cases h

end FunctionBody

end Pebil

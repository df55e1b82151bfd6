import Pebil.Cfg.Leaders

/-!
# The graph of a body

On every decoded body `generateCFG` gives a graph whose blocks are the body cut at its
leaders, whose target and source lists mirror each other without duplicates, and whose
no-path flags mark what the entry does not reach (`generateCFG_wellFormed`).

Its edges are those that control can take exactly for the bodies that are `Traceable`
(`generateCFG_faithful_iff`). A return or halt is given an edge to the block behind it,
since `getTargetAddress` of either is the address behind it; the targets that
`computeJumpTableTargets` recovers lead blocks but are given no edges.
-/

namespace Pebil

open Relation (ReflTransGen)

/-! ## Target and source lists -/

namespace Links

variable {es : List (Nat × Nat)} {i j : Nat}

theorem targetBlocks_foldl (l : Links) (i : Nat) :
    (es.foldl add l).targetBlocks i =
      l.targetBlocks i ++ (es.filter (·.1 = i)).map (·.2) := by
  induction es generalizing l with
  | nil => simp
  | cons e es ih =>
    rw [List.foldl_cons, ih]
    by_cases h : e.1 = i
    · subst h
      simp [add]
    · simp [add, h, Function.update, Ne.symm h]

theorem sourceBlocks_foldl (l : Links) (j : Nat) :
    (es.foldl add l).sourceBlocks j =
      l.sourceBlocks j ++ (es.filter (·.2 = j)).map (·.1) := by
  induction es generalizing l with
  | nil => simp
  | cons e es ih =>
    rw [List.foldl_cons, ih]
    by_cases h : e.2 = j
    · subst h
      simp [add]
    · simp [add, h, Function.update, Ne.symm h]

theorem mem_targetBlocks : j ∈ (es.foldl add empty).targetBlocks i ↔ (i, j) ∈ es := by
  rw [targetBlocks_foldl]
  simp [empty]

theorem mem_sourceBlocks : i ∈ (es.foldl add empty).sourceBlocks j ↔ (i, j) ∈ es := by
  rw [sourceBlocks_foldl]
  simp [empty]

theorem targetBlocks_nodup (h : es.Nodup) : ((es.foldl add empty).targetBlocks i).Nodup := by
  rw [targetBlocks_foldl]
  refine (h.filter _).map_on fun a ha b hb hab => ?_
  have ha := (List.mem_filter.mp ha).2
  have hb := (List.mem_filter.mp hb).2
  exact Prod.ext ((of_decide_eq_true ha).trans (of_decide_eq_true hb).symm) hab

theorem sourceBlocks_nodup (h : es.Nodup) : ((es.foldl add empty).sourceBlocks j).Nodup := by
  rw [sourceBlocks_foldl]
  refine (h.filter _).map_on fun a ha b hb hab => ?_
  have ha := (List.mem_filter.mp ha).2
  have hb := (List.mem_filter.mp hb).2
  exact Prod.ext hab ((of_decide_eq_true ha).trans (of_decide_eq_true hb).symm)

end Links

namespace FunctionBody

variable {f : FunctionBody} {blocks : List CodeBlock} {i j : Nat} {b c : CodeBlock}

/-! ## Edges -/

theorem mem_adjacentEdges {e : Nat × Nat} : e ∈ adjacentEdges blocks i b ↔
    e.1 = i ∧ e.2 = i + 1 ∧ b.controlFallsThrough = true ∧
      ∃ c, blocks[e.2]? = some c ∧ b.getTargetAddress ≠ c.baseAddress := by
  obtain ⟨k, j⟩ := e
  rw [adjacentEdges]
  cases hnext : blocks[i + 1]? with
  | none =>
    refine iff_of_false List.not_mem_nil ?_
    rintro ⟨-, rfl, -, c, hc, -⟩
    rw [hnext] at hc
    cases hc
  | some next =>
    by_cases hcond : (b.controlFallsThrough && b.getTargetAddress != next.baseAddress) = true
    · have hand := Bool.and_eq_true_iff.mp hcond
      simp only [if_pos hcond, List.mem_singleton, Prod.mk.injEq]
      constructor
      · rintro ⟨rfl, rfl⟩
        exact ⟨rfl, rfl, hand.1, next, hnext, by simpa using hand.2⟩
      · rintro ⟨rfl, rfl, -⟩
        exact ⟨rfl, rfl⟩
    · simp only [if_neg hcond]
      refine iff_of_false List.not_mem_nil ?_
      rintro ⟨-, rfl, hft, c, hc, hne⟩
      obtain rfl : next = c := Option.some.inj (hnext.symm.trans hc)
      simp [hft, hne] at hcond

theorem mem_jumpEdges {e : Nat × Nat} : e ∈ f.jumpEdges blocks i b ↔
    e.1 = i ∧ f.function.inRange b.getTargetAddress = true ∧
      ∃ c, blocks[e.2]? = some c ∧ c.baseAddress = b.getTargetAddress := by
  obtain ⟨k, j⟩ := e
  rw [jumpEdges]
  by_cases hrange : f.function.inRange b.getTargetAddress = true
  · rw [if_pos hrange, List.mem_map]
    constructor
    · rintro ⟨j', hj', heq⟩
      obtain ⟨rfl, rfl⟩ := Prod.mk.inj heq
      obtain ⟨c, hc, hbase⟩ := (Option.any_eq_true _ _).mp (List.mem_filter.mp hj').2
      exact ⟨rfl, hrange, c, hc, beq_iff_eq.mp hbase⟩
    · rintro ⟨rfl, -, c, hc, hbase⟩
      refine ⟨j, List.mem_filter.mpr ⟨List.mem_range.mpr ?_, ?_⟩, rfl⟩
      · exact (List.getElem?_eq_some_iff.mp hc).1
      · simp [hc, hbase]
  · rw [if_neg hrange]
    exact iff_of_false List.not_mem_nil fun h => hrange h.2.1

theorem edgesFrom_eq (hb : blocks[i]? = some b) :
    f.edgesFrom blocks i = adjacentEdges blocks i b ++ f.jumpEdges blocks i b := by
  rw [edgesFrom, hb]

theorem fst_of_mem_edgesFrom {e : Nat × Nat} (h : e ∈ f.edgesFrom blocks i) : e.1 = i := by
  rw [edgesFrom] at h
  cases hb : blocks[i]? with
  | none =>
    rw [hb] at h
    cases h
  | some b =>
    rw [hb] at h
    exact (List.mem_append.mp h).elim (fun h => (mem_adjacentEdges.mp h).1)
      fun h => (mem_jumpEdges.mp h).1

theorem mem_edges (hb : blocks[i]? = some b) :
    (i, j) ∈ f.edges blocks ↔ (i, j) ∈ adjacentEdges blocks i b ∨ (i, j) ∈ f.jumpEdges blocks i b := by
  rw [edges, List.mem_flatMap, ← List.mem_append, ← edgesFrom_eq hb]
  constructor
  · rintro ⟨k, -, he⟩
    obtain rfl : i = k := fst_of_mem_edgesFrom he
    exact he
  · exact fun h => ⟨i, List.mem_range.mpr (List.getElem?_eq_some_iff.mp hb).1, h⟩

theorem edges_lt (h : (i, j) ∈ f.edges blocks) : i < blocks.length ∧ j < blocks.length := by
  obtain ⟨k, hk, he⟩ := List.mem_flatMap.mp h
  obtain rfl : i = k := fst_of_mem_edgesFrom he
  have hlt := List.mem_range.mp hk
  refine ⟨hlt, ?_⟩
  rw [edgesFrom_eq (List.getElem?_eq_getElem hlt), List.mem_append] at he
  rcases he with he | he
  · obtain ⟨-, -, -, c, hc, -⟩ := mem_adjacentEdges.mp he
    exact (List.getElem?_eq_some_iff.mp hc).1
  · obtain ⟨-, -, c, hc, -⟩ := mem_jumpEdges.mp he
    exact (List.getElem?_eq_some_iff.mp hc).1

theorem edges_nodup : (f.edges blocks).Nodup := by
  refine List.nodup_flatMap.mpr ⟨fun i hi => ?_, ?_⟩
  · rw [edgesFrom_eq (List.getElem?_eq_getElem (List.mem_range.mp hi))]
    refine List.Nodup.append ?_ ?_ ?_
    · rw [adjacentEdges]
      split
      · split
        · exact List.nodup_singleton _
        · exact .nil
      · exact .nil
    · rw [jumpEdges]
      split
      · exact (List.nodup_range.filter _).map fun a b h => (Prod.mk.inj h).2
      · exact .nil
    · -- the next block is not added where it is the target
      intro e hadj hjump
      obtain ⟨-, -, -, c, hc, hne⟩ := mem_adjacentEdges.mp hadj
      obtain ⟨-, -, d, hd, heq⟩ := mem_jumpEdges.mp hjump
      obtain rfl : c = d := Option.some.inj (hc.symm.trans hd)
      exact hne heq.symm
  · refine List.Nodup.pairwise_of_forall_ne List.nodup_range fun i _ j _ hne e he he' => ?_
    exact hne ((fst_of_mem_edgesFrom he).symm.trans (fst_of_mem_edgesFrom he'))

/-- The address of a block is in the function. -/
theorem Cut.inRange_base (hcut : f.Cut blocks) (hb : b ∈ blocks) :
    f.function.inRange b.baseAddress = true := by
  have hin := f.inside _ (hcut.mem_instructions hb (List.head_mem b.nonempty))
  have hpos := f.sized _ (hcut.mem_instructions hb (List.head_mem b.nonempty))
  have hbound := f.bounded
  rw [TextObject.inRange, Bool.and_eq_true, decide_eq_true_iff, decide_eq_true_iff, BitVec.le_def,
    BitVec.lt_def, BitVec.toNat_add, Nat.mod_eq_of_lt hbound]
  unfold CodeBlock.baseAddress
  omega

/-- The edges of a body: behind a block whose last instruction falls through, and to the
block at its target address. -/
theorem Cut.mem_edges_iff (hcut : f.Cut blocks) (hb : blocks[i]? = some b)
    (hc : blocks[j]? = some c) : (i, j) ∈ f.edges blocks ↔
      (b.controlFallsThrough = true ∧ c.baseAddress = b.back.endAddress) ∨
        c.baseAddress = b.getTargetAddress := by
  rw [mem_edges hb, mem_adjacentEdges, mem_jumpEdges, hcut.base_eq_end_iff hb hc]
  constructor
  · rintro (⟨-, hj, hfall, -⟩ | ⟨-, -, d, hd, heq⟩)
    · exact .inl ⟨hfall, hj⟩
    · obtain rfl : c = d := Option.some.inj (hc.symm.trans hd)
      exact .inr heq
  · by_cases heq : c.baseAddress = b.getTargetAddress
    · intro _
      refine .inr ⟨rfl, ?_, c, hc, heq⟩
      rw [← heq]
      exact hcut.inRange_base (List.mem_of_getElem? hc)
    · rintro (⟨hfall, hj⟩ | h)
      · exact .inl ⟨rfl, hj, hfall, c, hc, Ne.symm heq⟩
      · exact absurd h heq

/-! ## The graph -/

/-- What a graph of the body has to be, its edges' meaning apart. -/
structure WellFormed (f : FunctionBody) (g : CodeGraph) : Prop where
  partition : (g.basicBlocks.map (·.instructions)).flatten = f.instructions
  control : ∀ b ∈ g.basicBlocks, ∀ x ∈ b.instructions.dropLast, x.isControl = false
  mirrored : ∀ i j, i ∈ g.links.sourceBlocks j ↔ j ∈ g.links.targetBlocks i
  targets_lt : ∀ i j, j ∈ g.links.targetBlocks i → j < g.basicBlocks.length
  sources_lt : ∀ i j, i ∈ g.links.sourceBlocks j → i < g.basicBlocks.length
  targets_nodup : ∀ i, (g.links.targetBlocks i).Nodup
  sources_nodup : ∀ j, (g.links.sourceBlocks j).Nodup
  entry : g.entry = 0
  noPath : ∀ i < g.basicBlocks.length, g.noPath i = false ↔
    ReflTransGen (DepthFirst.Succ g.links.targetBlocks) g.entry i

/-- The edges are those that control can take. -/
def EdgesFaithful (g : CodeGraph) : Prop :=
  ∀ i j b c, g.basicBlocks[i]? = some b → g.basicBlocks[j]? = some c →
    (j ∈ g.links.targetBlocks i ↔ b.back.CanTransfer c.baseAddress)

/-- Sorting leaves blocks in address order as they are. -/
theorem Cut.mergeSort (hcut : f.Cut blocks) :
    blocks.zipIdx.mergeSort (fun a b => CodeBlock.compareBaseAddress a.1 b.1) = blocks.zipIdx := by
  refine List.mergeSort_of_pairwise ?_
  have hpair : (blocks.zipIdx.map Prod.fst).Pairwise
      fun b c => b.baseAddress.toNat < c.baseAddress.toNat := by
    rw [List.zipIdx_map_fst]
    exact hcut.pairwise_base
  refine (List.pairwise_map.mp hpair).imp fun h => ?_
  exact decide_eq_true (Nat.le_of_lt h)

theorem findIdx_first (h : blocks ≠ []) : blocks.zipIdx.findIdx (fun p => p.2 == 0) = 0 := by
  cases blocks with
  | nil => exact absurd rfl h
  | cons b blocks => rfl

/-- What is left of the full set is what the search does not reach. -/
theorem unreachableBlocks_spec {l : Links} {n : Nat} (hlt : ∀ a, ∀ t ∈ l.targetBlocks a, t < n)
    (hnodup : ∀ a, (l.targetBlocks a).Nodup) {entry : Nat} (hentry : entry < n) :
    ∃ members, l.unreachableBlocks n entry = some members ∧ ∀ i < n,
      i ∉ members ↔ ReflTransGen (DepthFirst.Succ l.targetBlocks) entry i := by
  have hrep := @SearchSets.depthFirstSearch_represents n l.targetBlocks false false hlt (n + 1)
    entry { visitedSet := BitSet.setall n, completedSet := BitSet.new n, backEdges := [] }
    DepthFirst.start hentry
    ⟨fun b hb => by simp [DepthFirst.start, BitSet.contains_setall hb], nofun, nofun⟩
  obtain ⟨hvisited, -⟩ := DepthFirst.search_start (V := Finset.range n)
    (Finset.mem_range.mpr hentry) (fun b _ t ht => Finset.mem_range.mpr (hlt b t ht)) hnodup
    (Nat.le_trans (Finset.card_range n).le (Nat.le_succ n))
  refine ⟨_, BitSet.duplicateMembers_eq
    (SearchSets.depthFirstSearch_counted _ _ _ BitSet.counted_setall), fun i hi => ?_⟩
  rw [← hvisited i, hrep.visited i hi, List.mem_filter, List.mem_range]
  simp [hi]

theorem connectGraph_spec (hcut : f.Cut blocks) : ∃ g, f.connectGraph blocks = some g ∧
    g.basicBlocks = blocks ∧ f.WellFormed g ∧
      ∀ i j, j ∈ g.links.targetBlocks i ↔ (i, j) ∈ f.edges blocks := by
  have hbasic : (blocks.zipIdx.map fun p => p.1) = blocks := List.zipIdx_map_fst 0 blocks
  have hlt : ∀ a, ∀ t ∈ ((f.edges blocks).foldl Links.add .empty).targetBlocks a,
      t < blocks.length := fun a t ht => (edges_lt (Links.mem_targetBlocks.mp ht)).2
  have hnodup : ∀ a, (((f.edges blocks).foldl Links.add .empty).targetBlocks a).Nodup :=
    fun a => Links.targetBlocks_nodup edges_nodup
  obtain ⟨members, hmembers, hreach⟩ := unreachableBlocks_spec hlt hnodup
    (List.length_pos_iff.mpr hcut.ne_nil)
  rw [connectGraph, hcut.mergeSort, findIdx_first hcut.ne_nil, hbasic, connectSorted, hmembers]
  refine ⟨_, rfl, rfl, ?_, fun i j => Links.mem_targetBlocks⟩
  exact {
    partition := hcut.flatten
    control := fun b hb x hx => hcut.isControl_eq_false hb hx
    mirrored := fun i j => Links.mem_sourceBlocks.trans Links.mem_targetBlocks.symm
    targets_lt := hlt
    sources_lt := fun i j h => (edges_lt (Links.mem_sourceBlocks.mp h)).1
    targets_nodup := hnodup
    sources_nodup := fun j => Links.sourceBlocks_nodup edges_nodup
    entry := rfl
    noPath := fun i hi => decide_eq_false_iff_not.trans (hreach i hi) }

/-- `generateCFG` gives a well-formed graph, with the edges that `edges` lists. -/
theorem generateCFG_spec (f : FunctionBody) : ∃ g, f.generateCFG = some g ∧ f.WellFormed g ∧
    f.Cut g.basicBlocks ∧ ∀ i j, j ∈ g.links.targetBlocks i ↔ (i, j) ∈ f.edges g.basicBlocks := by
  obtain ⟨leaders, hleaders, hmem⟩ := findLeaders_spec (f := f)
  have hcut := buildBlocks_cut hmem
  obtain ⟨g, hg, hblocks, hwf, hedges⟩ := connectGraph_spec hcut
  refine ⟨g, ?_, hwf, hblocks ▸ hcut, hblocks ▸ hedges⟩
  rw [generateCFG, hleaders]
  exact hg

/-! ## Which edges are right -/

/-- The target of a branch or call that is not a known address. -/
def UnknownTarget (x : BodyInstruction) : Prop :=
  ∀ op, x.operands 0 = some op → op.type ≠ .jimm

/-- The bodies whose graph is right: a return is the last instruction, no leader is behind a
halt, and no instruction is a target that was recovered from a jump table. In a body at
address 0, which stands for an unknown target, calls have a known one, and the jump tables
lead there. -/
structure Traceable (f : FunctionBody) : Prop where
  returns : ∀ x ∈ f.instructions, x.isReturn = true →
    ∀ y ∈ f.instructions, y.baseAddress ≠ x.endAddress
  halts : ∀ x ∈ f.instructions, x.isHalt = true →
    ∀ y ∈ f.instructions, y.baseAddress = x.endAddress → ¬f.IsLeader y
  calls : ∀ x ∈ f.instructions, x.isSystemCall = true ∨ x.isFunctionCall = true ∧ UnknownTarget x →
    ∀ y ∈ f.instructions, y.baseAddress ≠ 0
  tables : ∀ x ∈ f.instructions, x.isJumpTableBase = true →
    ∀ y ∈ f.instructions, y.baseAddress ∈ x.jumpTableTargets ↔ y.baseAddress = 0

/-! ### The four kinds of instructions -/

section Kinds

variable {x : BodyInstruction} {a : BitVec 64} {op : OperandX86}

theorem canTransfer_iff : x.CanTransfer a ↔
    (x.controlFallsThrough = true ∧ a = x.endAddress) ∨
      ((x.isBranch = true ∨ x.isFunctionCall = true) ∧ ∃ op, x.operands 0 = some op ∧
        op.type = .jimm ∧ a = x.baseAddress + op.value + x.sizeInBytes) ∨
      (x.isJumpTableBase = true ∧ a ∈ x.jumpTableTargets) := by
  constructor
  · rintro (⟨hfall, ha⟩ | ⟨hkind, hop, hty, ha⟩ | ⟨htable, ha⟩)
    · exact .inl ⟨hfall, ha⟩
    · exact .inr (.inl ⟨hkind, _, hop, hty, ha⟩)
    · exact .inr (.inr ⟨htable, ha⟩)
  · rintro (⟨hfall, ha⟩ | ⟨hkind, op, hop, hty, ha⟩ | ⟨htable, ha⟩)
    · exact .fallThrough hfall ha
    · exact .direct hkind hop hty ha
    · exact .table htable ha

theorem targetAddress_branch (h : x.isBranch = true ∨ x.isFunctionCall = true) :
    x.targetAddress = x.getTargetAddress := by
  simp only [X86Instruction.isBranch, X86Instruction.isUnconditionalBranch,
    X86Instruction.isConditionalBranch, X86Instruction.isFunctionCall, Bool.or_eq_true,
    beq_iff_eq] at h
  rw [X86Instruction.targetAddress]
  rcases h with (h | h) | h <;> rw [h]

theorem getTargetAddress_known (hx : x ∈ f.instructions) (hop : x.operands 0 = some op)
    (hty : op.type = .jimm) : x.getTargetAddress = x.baseAddress + op.value + x.sizeInBytes := by
  rw [X86Instruction.getTargetAddress, f.unanchored x hx, hop]
  exact if_pos hty

theorem getTargetAddress_unknown (hx : x ∈ f.instructions) (h : UnknownTarget x) :
    x.getTargetAddress = 0 := by
  rw [X86Instruction.getTargetAddress, f.unanchored x hx]
  cases hop : x.operands 0 with
  | none => rfl
  | some op => exact if_neg (h op hop)

theorem not_known (h : UnknownTarget x) : ¬∃ op, x.operands 0 = some op ∧
    op.type = .jimm ∧ a = x.baseAddress + op.value + x.sizeInBytes :=
  fun ⟨op, hop, hty, _⟩ => h op hop hty

/-- An indirect jump: the address that stands for an unknown target against the table. -/
theorem kind_table (hx : x ∈ f.instructions) (h : x.isJumpTableBase = true) :
    x.targetAddress = 0 ∧ x.controlFallsThrough = false ∧
      (x.CanTransfer a ↔ a ∈ x.jumpTableTargets) := by
  obtain ⟨⟨op, hop, hty⟩, -⟩ := decoded_jumpTable hx h
  have hunknown : UnknownTarget x := fun op' hop' => by
    rw [Option.some.inj (hop'.symm.trans hop)]
    exact type_ne_jimm hty
  have hbranch : x.isBranch = true := by
    rw [X86Instruction.isJumpTableBase, Bool.and_eq_true] at h
    rw [X86Instruction.isBranch, h.1, Bool.true_or]
  have hfall : x.controlFallsThrough = false := by
    rw [X86Instruction.controlFallsThrough, h, Bool.or_true, Bool.not_true]
  refine ⟨?_, hfall, ?_⟩
  · rw [targetAddress_branch (.inl hbranch), getTargetAddress_unknown hx hunknown]
  · rw [canTransfer_iff, hfall]
    simp [not_known hunknown, h]

/-- A call whose target is not known. -/
theorem kind_unknown (hx : x ∈ f.instructions)
    (h : x.isSystemCall = true ∨ x.isFunctionCall = true ∧ UnknownTarget x) :
    x.targetAddress = 0 ∧ x.controlFallsThrough = true ∧ (x.CanTransfer a ↔ a = x.endAddress) := by
  have hty : x.itype = .syscall ∨ x.itype = .call ∧ UnknownTarget x :=
    h.imp beq_iff_eq.mp (And.imp_left beq_iff_eq.mp)
  have hfall : x.controlFallsThrough = true := by
    rcases hty with hty | ⟨hty, -⟩ <;>
      simp [X86Instruction.controlFallsThrough, X86Instruction.isJumpTableBase,
        X86Instruction.isUnconditionalBranch, X86Instruction.isHalt, X86Instruction.isReturn, hty]
  have htable : x.isJumpTableBase = false := by
    rcases hty with hty | ⟨hty, -⟩ <;>
      simp [X86Instruction.isJumpTableBase, X86Instruction.isUnconditionalBranch, hty]
  have hcall : x.isBranch = false := by
    rcases hty with hty | ⟨hty, -⟩ <;>
      simp [X86Instruction.isBranch, X86Instruction.isUnconditionalBranch,
        X86Instruction.isConditionalBranch, hty]
  refine ⟨?_, hfall, ?_⟩
  · rcases hty with hty | ⟨hty, hunknown⟩
    · rw [X86Instruction.targetAddress, hty]
    · rw [targetAddress_branch (.inr (beq_iff_eq.mpr hty)), getTargetAddress_unknown hx hunknown]
  · rw [canTransfer_iff, hfall, htable, hcall]
    rcases hty with hty | ⟨-, hunknown⟩
    · simp [X86Instruction.isFunctionCall, hty]
    · simp [not_known hunknown]

/-- A branch or call with a known target. -/
theorem kind_direct (hx : x ∈ f.instructions) (h : x.isBranch = true ∨ x.isFunctionCall = true)
    (htable : x.isJumpTableBase = false) (hop : x.operands 0 = some op) (hty : op.type = .jimm) :
    x.CanTransfer a ↔ (x.controlFallsThrough = true ∧ a = x.endAddress) ∨ a = x.targetAddress := by
  rw [canTransfer_iff, htable, targetAddress_branch h, getTargetAddress_known hx hop hty]
  simp [h, hop, hty]

/-- An instruction that is no branch or call. -/
theorem kind_other (h : x.usesControlTarget = false) : x.targetAddress = x.endAddress ∧
    (x.CanTransfer a ↔ x.controlFallsThrough = true ∧ a = x.endAddress) := by
  simp only [X86Instruction.usesControlTarget, Bool.or_eq_false_iff] at h
  obtain ⟨⟨⟨hcond, huncond⟩, hcall⟩, hsys⟩ := h
  constructor
  · rw [X86Instruction.targetAddress]
    simp only [X86Instruction.isConditionalBranch, X86Instruction.isUnconditionalBranch,
      X86Instruction.isFunctionCall, X86Instruction.isSystemCall, beq_eq_false_iff_ne] at *
    split <;> first | contradiction | rfl
  · rw [canTransfer_iff]
    simp [X86Instruction.isBranch, X86Instruction.isJumpTableBase, hcond, huncond, hcall]

/-- A branch or call that is decoded is one of the first three kinds. -/
theorem uses_cases (hx : x ∈ f.instructions) (h : x.usesControlTarget = true) :
    x.isJumpTableBase = true ∨ (x.isSystemCall = true ∨ x.isFunctionCall = true ∧ UnknownTarget x) ∨
      ((x.isBranch = true ∨ x.isFunctionCall = true) ∧ x.isJumpTableBase = false ∧
        ∃ op, x.operands 0 = some op ∧ op.type = .jimm) := by
  by_cases htable : x.isJumpTableBase = true
  · exact .inl htable
  rw [Bool.not_eq_true] at htable
  by_cases hsys : x.isSystemCall = true
  · exact .inr (.inl (.inl hsys))
  have hkind : x.isBranch = true ∨ x.isFunctionCall = true := by
    simp only [X86Instruction.usesControlTarget, X86Instruction.isBranch, Bool.or_eq_true] at *
    tauto
  by_cases hknown : ∃ op, x.operands 0 = some op ∧ op.type = .jimm
  · exact .inr (.inr ⟨hkind, htable, hknown⟩)
  have hunknown : UnknownTarget x := fun op hop hty => hknown ⟨op, hop, hty⟩
  rcases hkind with hbranch | hcall
  · -- a branch that is decoded is direct or has a table
    cases f.decoded x hx with
    | nonControl hc =>
      simp only [X86Instruction.isControl, X86Instruction.isBranch, Bool.or_eq_true,
        Bool.or_eq_false_iff] at hc hbranch
      simp [hc] at hbranch
    | direct _ hop hty _ => exact absurd ⟨_, hop, hty⟩ hknown
    | call hc =>
      rcases Bool.or_eq_true_iff.mp hc with hc | hc
      · exact absurd hc hsys
      · exact .inr (.inl (.inr ⟨hc, hunknown⟩))
    | ret hr =>
      simp only [X86Instruction.isReturn, X86Instruction.isBranch, Bool.or_eq_true,
        X86Instruction.isUnconditionalBranch, X86Instruction.isConditionalBranch,
        beq_iff_eq] at hr hbranch
      simp [hr] at hbranch
    | indirect h => simp [htable] at h
  · exact .inr (.inl (.inr ⟨hcall, hunknown⟩))

end Kinds

/-- What an edge from a block that ends with `x` to a block at `a` says about `x`. -/
theorem linked_iff {x : BodyInstruction} {a : BitVec 64} (hx : x ∈ f.instructions)
    (hstop : x.isReturn = true ∨ x.isHalt = true → a ≠ x.endAddress)
    (hcall : x.isSystemCall = true ∨ x.isFunctionCall = true ∧ UnknownTarget x → a ≠ 0)
    (htable : x.isJumpTableBase = true → (a ∈ x.jumpTableTargets ↔ a = 0)) :
    (x.controlFallsThrough = true ∧ a = x.endAddress) ∨ a = x.targetAddress ↔ x.CanTransfer a := by
  by_cases huses : x.usesControlTarget = true
  · rcases uses_cases hx huses with h | h | ⟨hkind, hno, op, hop, hty⟩
    · obtain ⟨htarget, hfall, hcan⟩ := kind_table (a := a) hx h
      rw [hcan, htarget, hfall, htable h]
      simp
    · obtain ⟨htarget, hfall, hcan⟩ := kind_unknown (a := a) hx h
      rw [hcan, htarget, or_iff_left (hcall h)]
      exact and_iff_right hfall
    · exact (kind_direct hx hkind hno hop hty).symm
  · rw [Bool.not_eq_true] at huses
    obtain ⟨htarget, hcan⟩ := kind_other (a := a) huses
    rw [hcan, htarget]
    by_cases hfall : x.controlFallsThrough = true
    · simp [hfall]
    · -- what is no branch and does not fall through is a return or a halt
      have hstops : x.isReturn = true ∨ x.isHalt = true := by
        simp only [X86Instruction.usesControlTarget, X86Instruction.controlFallsThrough,
          X86Instruction.isJumpTableBase, Bool.or_eq_false_iff] at huses hfall
        simp only [huses, Bool.false_and, Bool.or_false, Bool.not_eq_true,
          Bool.not_eq_false'] at hfall
        exact (Bool.or_eq_true_iff.mp hfall).symm
      simp [hfall, hstop hstops]

/-- What begins at address 0 is the first instruction, and so a leader. -/
theorem isLeader_of_base_zero {y : BodyInstruction} (hy : y ∈ f.instructions)
    (h : y.baseAddress = 0) : f.IsLeader y := by
  refine .inl ?_
  have hpair := instructions_pairwise (f := f)
  have hhead := f.sized _ (List.head_mem f.nonempty)
  rw [← List.cons_head_tail f.nonempty] at hpair hy
  rcases List.mem_cons.mp hy with hy | hy
  · exact hy
  · have hbefore := List.rel_of_pairwise_cons hpair hy
    rw [Before, h] at hbefore
    have hzero : (0 : BitVec 64).toNat = 0 := rfl
    omega

/-- A recovered target is a leader address. -/
theorem leaderAddr_table {x : BodyInstruction} {a : BitVec 64} (hx : x ∈ f.instructions)
    (h : x.isJumpTableBase = true) (ha : a ∈ x.jumpTableTargets) : f.LeaderAddr a := by
  obtain ⟨-, hbase, hrange⟩ := decoded_jumpTable hx h
  refine ⟨x, hx, x.jumpTableTargets ++ [x.endAddress], ?_, List.mem_append_left _ ha⟩
  rw [controlTargetAddrs, if_pos h, if_neg (not_or.mpr ⟨hbase, by simp [hrange]⟩)]

/-- Edges are right exactly for traceable bodies. -/
theorem edgesFaithful_iff {g : CodeGraph} (hcut : f.Cut g.basicBlocks)
    (hedges : ∀ i j, j ∈ g.links.targetBlocks i ↔ (i, j) ∈ f.edges g.basicBlocks) :
    EdgesFaithful g ↔ f.Traceable := by
  constructor
  · intro h
    -- an edge between the block of a control instruction and the block of a leader
    have hpair : ∀ x ∈ f.instructions, ∀ y ∈ f.instructions, f.IsLeader y →
        (x.isControl = true ∨ y.baseAddress = x.endAddress) →
        ((x.controlFallsThrough = true ∧ y.baseAddress = x.endAddress) ∨
          y.baseAddress = x.targetAddress ↔ x.CanTransfer y.baseAddress) := by
      intro x hx y hy hl hends
      obtain ⟨b, hb, hxb⟩ := hcut.exists_block hx
      obtain ⟨c, hc, hbase⟩ := hcut.exists_leader hy hl
      obtain rfl : x = b.back := hends.elim (hcut.eq_back_of_isControl hb hxb)
        fun hend => hcut.eq_back_of_next hb hxb hy hend hl
      obtain ⟨i, hi⟩ := List.mem_iff_getElem?.mp hb
      obtain ⟨j, hj⟩ := List.mem_iff_getElem?.mp hc
      have hij := h i j b c hi hj
      rw [hedges, hcut.mem_edges_iff hi hj, hbase] at hij
      exact hij
    refine ⟨fun x hx hret y hy hbase => ?_, fun x hx hhalt y hy hbase hl => ?_,
      fun x hx hcall y hy hzero => ?_, fun x hx htable y hy => ?_⟩
    · have hno : x.usesControlTarget = false := by
        simp [X86Instruction.usesControlTarget, X86Instruction.isConditionalBranch,
          X86Instruction.isUnconditionalBranch, X86Instruction.isFunctionCall,
          X86Instruction.isSystemCall, beq_iff_eq.mp hret]
      have hc : x.isControl = true := by
        rw [X86Instruction.isControl, hret, Bool.or_true]
      have hl : f.IsLeader y := .inr ⟨_, leaderAddr_end hx hc, hbase ▸ covers_base hy⟩
      have hfall : x.controlFallsThrough = false := by
        rw [X86Instruction.controlFallsThrough, hret, Bool.or_true, Bool.true_or, Bool.true_or,
          Bool.not_true]
      obtain ⟨htarget, hcan⟩ := kind_other (a := y.baseAddress) hno
      have hij := hpair x hx y hy hl (.inl hc)
      rw [hcan, htarget, hfall] at hij
      simp [hbase] at hij
    · have hno : x.usesControlTarget = false := by
        simp [X86Instruction.usesControlTarget, X86Instruction.isConditionalBranch,
          X86Instruction.isUnconditionalBranch, X86Instruction.isFunctionCall,
          X86Instruction.isSystemCall, beq_iff_eq.mp hhalt]
      have hfall : x.controlFallsThrough = false := by
        rw [X86Instruction.controlFallsThrough, hhalt, Bool.true_or, Bool.true_or, Bool.true_or,
          Bool.not_true]
      obtain ⟨htarget, hcan⟩ := kind_other (a := y.baseAddress) hno
      have hij := hpair x hx y hy hl (.inr hbase)
      rw [hcan, htarget, hfall] at hij
      simp [hbase] at hij
    · have hc : x.isControl = true := by
        rcases hcall with h | ⟨h, -⟩
        · rw [X86Instruction.isControl, h, Bool.or_true, Bool.true_or, Bool.true_or]
        · rw [X86Instruction.isControl, h, Bool.or_true, Bool.true_or]
      obtain ⟨htarget, -, hcan⟩ := kind_unknown (a := y.baseAddress) hx hcall
      have hij := hpair x hx y hy (isLeader_of_base_zero hy hzero) (.inl hc)
      rw [hcan, htarget] at hij
      have hend := congrArg BitVec.toNat (hzero.symm.trans (hij.mp (.inr hzero)))
      rw [endAddress_toNat hx] at hend
      have hpos := f.sized x hx
      have hzero : (0 : BitVec 64).toNat = 0 := rfl
      omega
    · have hc : x.isControl = true := by
        have h := htable
        rw [X86Instruction.isJumpTableBase, Bool.and_eq_true] at h
        rw [X86Instruction.isControl, h.1, Bool.or_true, Bool.true_or, Bool.true_or, Bool.true_or]
      obtain ⟨htarget, hfall, hcan⟩ := kind_table (a := y.baseAddress) hx htable
      have hij : f.IsLeader y → (y.baseAddress ∈ x.jumpTableTargets ↔ y.baseAddress = 0) := by
        intro hl
        have hij := hpair x hx y hy hl (.inl hc)
        rw [hcan, htarget, hfall] at hij
        simpa using hij.symm
      constructor
      · exact fun hmem => (hij (.inr ⟨_, leaderAddr_table hx htable hmem, covers_base hy⟩)).mp hmem
      · exact fun hzero => (hij (isLeader_of_base_zero hy hzero)).mpr hzero
  · intro h i j b c hi hj
    have hb := List.mem_of_getElem? hi
    have hc := List.mem_of_getElem? hj
    have hx := hcut.mem_instructions hb (List.getLast_mem b.nonempty)
    have hy := hcut.mem_instructions hc (List.head_mem c.nonempty)
    rw [hedges, hcut.mem_edges_iff hi hj]
    refine linked_iff hx (fun hstop hbase => ?_) (fun hcall => h.calls _ hx hcall _ hy)
      fun htable => h.tables _ hx htable _ hy
    rcases hstop with hret | hhalt
    · exact h.returns _ hx hret _ hy hbase
    · exact h.halts _ hx hhalt _ hy hbase (hcut.led c hc).1

/-- An instruction of the function at `0x400000`. -/
def earlyReturnInstruction (itype : X86InstructionType) (operand : Option OperandX86)
    (baseAddress sizeInBytes : BitVec 64) : BodyInstruction where
  mnemonic := .other 0
  itype := itype
  format := .unknown
  operands := fun i => if i = 0 then operand else none
  flagsUse := 0
  flagsDef := 0
  impregUse := 0
  impregDef := 0
  container := ⟨0x400000, 4⟩
  baseAddress := baseAddress
  sizeInBytes := sizeInBytes
  addressAnchor := none
  jumpTableBase := 0
  jumpTableTargets := []

/-- `74 01`, `c3`, `c3`: a conditional jump over a return to another. -/
def earlyReturn : FunctionBody where
  function := ⟨0x400000, 4⟩
  instructions := [
    earlyReturnInstruction .condbr (some ⟨.jimm, 0, 0, 1⟩) 0x400000 2,
    earlyReturnInstruction .ret none 0x400002 1,
    earlyReturnInstruction .ret none 0x400003 1]
  badInstruction := false
  nonempty := by simp
  sized := by decide
  contiguous := by simp [earlyReturnInstruction]
  inside := by decide
  bounded := by decide
  container := by simp [earlyReturnInstruction]
  unanchored := by simp [earlyReturnInstruction]
  decoded := by
    intro x hx
    simp only [List.mem_cons, List.not_mem_nil, or_false] at hx
    rcases hx with rfl | rfl | rfl
    · exact .direct rfl rfl rfl rfl
    · exact .ret rfl
    · exact .ret rfl
  aligned := by
    intro _ x hx a ha y hy hcov
    have hend : a = 0x400002 ∨ a = 0x400003 := by
      simp only [List.mem_cons, List.not_mem_nil, or_false] at hx
      rcases hx with rfl | rfl | rfl
      · cases ha with
        | fallThrough _ ha => exact .inl ha
        | direct _ hop _ ha =>
          cases hop
          exact .inr ha
        | table h => cases h
      · cases ha with
        | fallThrough h => cases h
        | direct h => rcases h with h | h <;> cases h
        | table h => cases h
      · cases ha with
        | fallThrough h => cases h
        | direct h => rcases h with h | h <;> cases h
        | table h => cases h
    simp only [List.mem_cons, List.not_mem_nil, or_false] at hy
    rcases hend with rfl | rfl <;> rcases hy with rfl | rfl | rfl <;>
      first | rfl | exact absurd hcov (by decide)

end FunctionBody

end Pebil

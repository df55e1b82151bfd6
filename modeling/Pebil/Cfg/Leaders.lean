import Pebil.Cfg.GenerateCFG
import Mathlib.Data.List.Pairwise

/-!
# The blocks partition the body

`findLeaders` does not fail on a decoded body, and marks the first instruction and every
instruction that covers a leader address (`findLeaders_spec`). Cutting at the leaders
gives blocks that are the body in its order, each led by a leader and with none behind it
(`buildBlocks_cut`). Since the address behind a control instruction is a leader address,
control is transferred at the end of a block only (`Cut.isControl_eq_false`).
-/

namespace Pebil

namespace FunctionBody

variable {f : FunctionBody} {x y : BodyInstruction} {a : BitVec 64}

/-! ## Addresses -/

theorem endAddress_toNat (hx : x ∈ f.instructions) :
    x.endAddress.toNat = x.baseAddress.toNat + x.sizeInBytes.toNat := by
  have hin := f.inside x hx
  have hbound := f.bounded
  rw [X86Instruction.endAddress, BitVec.toNat_add, Nat.mod_eq_of_lt (by omega)]

theorem covers_iff (hx : x ∈ f.instructions) :
    x.covers a = true ↔ x.baseAddress.toNat ≤ a.toNat ∧
      a.toNat < x.baseAddress.toNat + x.sizeInBytes.toNat := by
  have hend := endAddress_toNat hx
  rw [X86Instruction.endAddress] at hend
  rw [BodyInstruction.covers, Bool.and_eq_true, decide_eq_true_iff, decide_eq_true_iff,
    BitVec.le_def, BitVec.lt_def, hend]

theorem covers_base (hx : x ∈ f.instructions) : x.covers x.baseAddress = true := by
  have hpos := f.sized x hx
  exact (covers_iff hx).mpr ⟨Nat.le_refl _, by omega⟩

/-- `x` ends before `y` begins. -/
def Before (x y : BodyInstruction) : Prop :=
  x.baseAddress.toNat + x.sizeInBytes.toNat ≤ y.baseAddress.toNat

instance : Trans Before Before Before where
  trans hab hbc := by
    unfold Before at *
    omega

/-- The instructions do not overlap, and stand in address order. -/
theorem instructions_pairwise : f.instructions.Pairwise Before :=
  (f.contiguous.imp (S := Before) fun _ _ h => Nat.le_of_eq h).pairwise

theorem eq_or_before (hx : x ∈ f.instructions) (hy : y ∈ f.instructions) :
    x = y ∨ Before x y ∨ Before y x := by
  obtain ⟨i, hi, rfl⟩ := List.mem_iff_getElem.mp hx
  obtain ⟨j, hj, rfl⟩ := List.mem_iff_getElem.mp hy
  have hpair := List.pairwise_iff_getElem.mp (instructions_pairwise (f := f))
  rcases Nat.lt_trichotomy i j with hij | hij | hij
  · exact .inr (.inl (hpair i j hi hj hij))
  · subst hij
    exact .inl rfl
  · exact .inr (.inr (hpair j i hj hi hij))

/-- An address is covered once. -/
theorem covers_unique (hx : x ∈ f.instructions) (hy : y ∈ f.instructions)
    (hxa : x.covers a = true) (hya : y.covers a = true) : x = y := by
  rw [covers_iff hx] at hxa
  rw [covers_iff hy] at hya
  rcases eq_or_before hx hy with h | h | h
  · exact h
  · unfold Before at h
    omega
  · unfold Before at h
    omega

theorem eq_of_baseAddress_eq (hx : x ∈ f.instructions) (hy : y ∈ f.instructions)
    (h : x.baseAddress = y.baseAddress) : x = y :=
  covers_unique hx hy (covers_base hx) (h ▸ covers_base hy)

theorem find?_covers : f.instructions.find? (·.covers a) = some x ↔
    x ∈ f.instructions ∧ x.covers a = true := by
  constructor
  · exact fun h => ⟨List.mem_of_find?_eq_some h,
      List.find?_some (p := fun x => BodyInstruction.covers x a) h⟩
  · rintro ⟨hx, hxa⟩
    cases hfind : f.instructions.find? (·.covers a) with
    | none => exact absurd hxa (List.find?_eq_none.mp hfind x hx)
    | some y =>
      exact congrArg some (covers_unique (List.mem_of_find?_eq_some hfind) hx
        (List.find?_some (p := fun x => BodyInstruction.covers x a) hfind) hxa)

/-- What is covered right behind an instruction is the next one. -/
theorem base_of_covers_end (hx : x ∈ f.instructions) (hy : y ∈ f.instructions)
    (h : y.covers x.endAddress = true) : y.baseAddress = x.endAddress := by
  have hend := endAddress_toNat hx
  have hcov := (covers_iff hy).mp h
  have hpos := f.sized x hx
  refine BitVec.eq_of_toNat_eq ?_
  rcases eq_or_before hx hy with rfl | hbefore | hbefore
  · omega
  · unfold Before at hbefore
    omega
  · unfold Before at hbefore
    omega

/-! ## Leaders -/

/-- An address some instruction asks a block to begin at. -/
def LeaderAddr (f : FunctionBody) (a : BitVec 64) : Prop :=
  ∃ x ∈ f.instructions, ∃ addrs, f.controlTargetAddrs x = some addrs ∧ a ∈ addrs

/-- The instruction leads a block. -/
def IsLeader (f : FunctionBody) (y : BodyInstruction) : Prop :=
  y = f.instructions.head f.nonempty ∨ ∃ a, f.LeaderAddr a ∧ y.covers a = true

/-- The kind of a jump table base. -/
theorem decoded_jumpTable (hx : x ∈ f.instructions) (h : x.isJumpTableBase = true) :
    (∃ op, x.operands 0 = some op ∧ (op.type = .mem ∨ op.type = .reg)) ∧
      x.jumpTableBase ≠ 0 ∧ f.function.inRange x.jumpTableBase = false := by
  have hboth := h
  rw [X86Instruction.isJumpTableBase, Bool.and_eq_true] at hboth
  have huncond : x.itype = .uncondbr := beq_iff_eq.mp hboth.1
  cases f.decoded x hx with
  | nonControl hc => simp [X86Instruction.isControl, hboth.1] at hc
  | direct _ _ _ hind => simp [hboth.2] at hind
  | call hc => simp [X86Instruction.isCall, X86Instruction.isSystemCall,
      X86Instruction.isFunctionCall, huncond] at hc
  | ret hr => simp [X86Instruction.isReturn, huncond] at hr
  | indirect _ hop hty hbase hrange =>
    rw [f.container x hx] at hrange
    exact ⟨⟨_, hop, hty⟩, hbase, hrange⟩

/-- No assertion fails in `controlTargetAddrs`. -/
theorem exists_controlTargetAddrs (hx : x ∈ f.instructions) :
    ∃ addrs, f.controlTargetAddrs x = some addrs := by
  rw [controlTargetAddrs]
  by_cases htable : x.isJumpTableBase = true
  · obtain ⟨-, hbase, hrange⟩ := decoded_jumpTable hx htable
    rw [if_pos htable, if_neg (not_or.mpr ⟨hbase, by simp [hrange]⟩)]
    exact ⟨_, rfl⟩
  · rw [if_neg htable]
    split
    · exact ⟨_, rfl⟩
    · split
      · exact ⟨_, rfl⟩
      · exact ⟨_, rfl⟩

/-- The address behind a control instruction is a leader address. -/
theorem leaderAddr_end (hx : x ∈ f.instructions) (hc : x.isControl = true) :
    f.LeaderAddr x.endAddress := by
  obtain ⟨addrs, haddrs⟩ := exists_controlTargetAddrs hx
  refine ⟨x, hx, addrs, haddrs, ?_⟩
  rw [controlTargetAddrs] at haddrs
  by_cases htable : x.isJumpTableBase = true
  · obtain ⟨-, hbase, hrange⟩ := decoded_jumpTable hx htable
    rw [if_pos htable, if_neg (not_or.mpr ⟨hbase, by simp [hrange]⟩)] at haddrs
    cases haddrs
    simp
  rw [if_neg htable] at haddrs
  by_cases huses : x.usesControlTarget = true
  · rw [if_pos huses] at haddrs
    cases haddrs
    simp
  rw [if_neg huses] at haddrs
  have hret : x.isReturn = true := by
    simp only [X86Instruction.isControl, X86Instruction.usesControlTarget, Bool.or_eq_true,
      not_or] at hc huses
    tauto
  rw [if_pos hret] at haddrs
  cases haddrs
  simp

theorem type_ne_jimm {op : OperandX86} (h : op.type = .mem ∨ op.type = .reg) :
    op.type ≠ .jimm := by
  rcases h with h | h <;> rw [h] <;> decide

/-- Where the target of a branch or call is known, it can be transferred to. -/
theorem targetAddress_cases (hx : x ∈ f.instructions) (huses : x.usesControlTarget = true) :
    x.CanTransfer x.targetAddress ∨ x.targetAddress = 0 := by
  have hunanchored := f.unanchored x hx
  by_cases hsys : x.isSystemCall = true
  · have hty : x.itype = .syscall := beq_iff_eq.mp hsys
    exact .inr (by rw [X86Instruction.targetAddress, hty])
  have hknown : x.isBranch = true ∨ x.isFunctionCall = true := by
    simp only [X86Instruction.usesControlTarget, X86Instruction.isBranch, Bool.or_eq_true] at *
    tauto
  have htarget : x.targetAddress = x.getTargetAddress := by
    simp only [X86Instruction.isBranch, X86Instruction.isUnconditionalBranch,
      X86Instruction.isConditionalBranch, X86Instruction.isFunctionCall, Bool.or_eq_true,
      beq_iff_eq] at hknown
    rw [X86Instruction.targetAddress]
    rcases hknown with (h | h) | h <;> rw [h]
  rw [htarget, X86Instruction.getTargetAddress, hunanchored]
  cases hop : x.operands 0 with
  | none => exact .inr rfl
  | some op =>
    by_cases hty : op.type = .jimm
    · exact .inl (.direct hknown hop hty (if_pos hty))
    · exact .inr (if_neg hty)

/-- Unless the function is marked bad, a leader address that is covered is where an
instruction begins. -/
theorem base_of_covers_leaderAddr (hbad : f.badInstruction = false) (ha : f.LeaderAddr a)
    (hy : y ∈ f.instructions) (hcov : y.covers a = true) : y.baseAddress = a := by
  obtain ⟨x, hx, addrs, haddrs, hmem⟩ := ha
  have hend : a = x.endAddress → y.baseAddress = a := fun h =>
    h ▸ base_of_covers_end hx hy (h ▸ hcov)
  rw [controlTargetAddrs] at haddrs
  by_cases htable : x.isJumpTableBase = true
  · obtain ⟨-, hbase, hrange⟩ := decoded_jumpTable hx htable
    rw [if_pos htable, if_neg (not_or.mpr ⟨hbase, by simp [hrange]⟩)] at haddrs
    cases haddrs
    rcases List.mem_append.mp hmem with hmem | hmem
    · exact f.aligned hbad x hx a (.table htable hmem) y hy hcov
    · exact hend (List.mem_singleton.mp hmem)
  rw [if_neg htable] at haddrs
  by_cases huses : x.usesControlTarget = true
  · rw [if_pos huses] at haddrs
    cases haddrs
    rcases List.mem_cons.mp hmem with rfl | hmem
    · rcases targetAddress_cases hx huses with ht | ht
      · exact f.aligned hbad x hx _ ht y hy hcov
      · -- nothing but an instruction at address 0 covers address 0
        have hle := ((covers_iff hy).mp hcov).1
        rw [ht] at hle ⊢
        exact BitVec.eq_of_toNat_eq (Nat.le_zero.mp hle)
    · exact hend (List.mem_singleton.mp hmem)
  rw [if_neg huses] at haddrs
  by_cases hret : x.isReturn = true
  · rw [if_pos hret] at haddrs
    cases haddrs
    exact hend (List.mem_singleton.mp hmem)
  · rw [if_neg hret] at haddrs
    cases haddrs
    cases hmem

theorem setLeader_spec (leaders : List (BitVec 64)) (ha : f.LeaderAddr a) :
    ∃ leaders', f.setLeader leaders a = some leaders' ∧ ∀ y ∈ f.instructions,
      y.baseAddress ∈ leaders' ↔ y.baseAddress ∈ leaders ∨ y.covers a = true := by
  rw [setLeader]
  cases hfind : f.instructions.find? (·.covers a) with
  | none =>
    refine ⟨leaders, rfl, fun y hy => ?_⟩
    have hno := List.find?_eq_none.mp hfind y hy
    simp [hno]
  | some x =>
    obtain ⟨hx, hxa⟩ := find?_covers.mp hfind
    have hcond : (!f.badInstruction && x.baseAddress != a) = false := by
      cases hbad : f.badInstruction with
      | true => rfl
      | false => simpa using base_of_covers_leaderAddr hbad ha hx hxa
    refine ⟨x.baseAddress :: leaders, by simp [hcond], fun y hy => ?_⟩
    rw [List.mem_cons, or_comm]
    refine or_congr_right ⟨fun h => ?_, fun h => ?_⟩
    · rw [eq_of_baseAddress_eq hy hx h]
      exact hxa
    · rw [covers_unique hy hx h hxa]

theorem setLeaders_spec {addrs : List (BitVec 64)} (haddrs : ∀ a ∈ addrs, f.LeaderAddr a)
    (leaders : List (BitVec 64)) :
    ∃ leaders', addrs.foldlM f.setLeader leaders = some leaders' ∧ ∀ y ∈ f.instructions,
      y.baseAddress ∈ leaders' ↔ y.baseAddress ∈ leaders ∨ ∃ a ∈ addrs, y.covers a = true := by
  induction addrs generalizing leaders with
  | nil => exact ⟨leaders, rfl, by simp⟩
  | cons a addrs ih =>
    obtain ⟨ha, haddrs⟩ := List.forall_mem_cons.mp haddrs
    obtain ⟨mid, hmid, hmem⟩ := setLeader_spec leaders ha
    obtain ⟨leaders', hrest, hmem'⟩ := ih haddrs mid
    refine ⟨leaders', ?_, fun y hy => ?_⟩
    · rw [List.foldlM_cons, hmid]
      exact hrest
    · rw [hmem' y hy, hmem y hy, or_assoc]
      simp

theorem mapM_controlTargetAddrs {l : List BodyInstruction} (hl : ∀ x ∈ l, x ∈ f.instructions) :
    ∃ addrs, l.mapM f.controlTargetAddrs = some addrs ∧ ∀ a, a ∈ addrs.flatten ↔
      ∃ x ∈ l, ∃ addrs, f.controlTargetAddrs x = some addrs ∧ a ∈ addrs := by
  induction l with
  | nil => exact ⟨[], rfl, by simp⟩
  | cons x l ih =>
    obtain ⟨hx, hl⟩ := List.forall_mem_cons.mp hl
    obtain ⟨addrs, haddrs, hmem⟩ := ih hl
    obtain ⟨own, hown⟩ := exists_controlTargetAddrs hx
    refine ⟨own :: addrs, ?_, fun a => ?_⟩
    · rw [List.mapM_cons, hown, haddrs]
      rfl
    · simp [hown, ← hmem]

/-- The leaders are found, without a failing assertion. -/
theorem findLeaders_spec : ∃ leaders, f.findLeaders = some leaders ∧
    ∀ y ∈ f.instructions, y.baseAddress ∈ leaders ↔ f.IsLeader y := by
  obtain ⟨addrs, haddrs, hmem⟩ := mapM_controlTargetAddrs (f := f) fun _ h => h
  obtain ⟨leaders, hleaders, hspec⟩ := setLeaders_spec (fun a ha => (hmem a).mp ha)
    [(f.instructions.head f.nonempty).baseAddress]
  refine ⟨leaders, ?_, fun y hy => ?_⟩
  · rw [findLeaders, haddrs]
    exact hleaders
  · rw [hspec y hy, List.mem_singleton]
    refine or_congr ⟨fun h => ?_, fun h => h ▸ rfl⟩ ?_
    · exact eq_of_baseAddress_eq hy (List.head_mem _) h
    · exact ⟨fun ⟨a, ha, hc⟩ => ⟨a, (hmem a).mp ha, hc⟩, fun ⟨a, ha, hc⟩ => ⟨a, (hmem a).mpr ha, hc⟩⟩

/-! ## Blocks -/

/-- A block that is led by a leader and has none behind it. -/
def LedBy (p : BodyInstruction → Prop) (b : CodeBlock) : Prop :=
  p (b.instructions.head b.nonempty) ∧ ∀ y ∈ b.instructions.tail, ¬p y

/-- The instructions of blocks that are kept last one first. -/
def listing (blocks : List CodeBlock) : List BodyInstruction :=
  (blocks.reverse.map (·.instructions)).flatten

theorem addInstruction_leader {leaders : List (BitVec 64)} (hx : x.baseAddress ∈ leaders)
    (blocks : List CodeBlock) :
    addInstruction leaders blocks x = ⟨[x], List.cons_ne_nil _ _⟩ :: blocks := if_pos hx

theorem addInstruction_inner {leaders : List (BitVec 64)} (hx : x.baseAddress ∉ leaders)
    (b : CodeBlock) (blocks : List CodeBlock) :
    addInstruction leaders (b :: blocks) x =
      ⟨b.instructions ++ [x], List.append_ne_nil_of_right_ne_nil _ (List.cons_ne_nil _ _)⟩ :: blocks :=
  if_neg hx

theorem addInstruction_spec {leaders : List (BitVec 64)} {blocks : List CodeBlock}
    (h : blocks ≠ [] ∨ x.baseAddress ∈ leaders)
    (hled : ∀ b ∈ blocks, LedBy (fun x => x.baseAddress ∈ leaders) b) :
    addInstruction leaders blocks x ≠ [] ∧
      listing (addInstruction leaders blocks x) = listing blocks ++ [x] ∧
      ∀ b ∈ addInstruction leaders blocks x, LedBy (fun x => x.baseAddress ∈ leaders) b := by
  by_cases hx : x.baseAddress ∈ leaders
  · rw [addInstruction_leader hx]
    refine ⟨List.cons_ne_nil _ _, by simp [listing], ?_⟩
    exact List.forall_mem_cons.mpr ⟨⟨hx, fun y hy => absurd hy List.not_mem_nil⟩, hled⟩
  · cases blocks with
    | nil => exact absurd rfl (h.resolve_right hx)
    | cons b blocks =>
      obtain ⟨hb, hblocks⟩ := List.forall_mem_cons.mp hled
      rw [addInstruction_inner hx]
      refine ⟨List.cons_ne_nil _ _, by simp [listing], ?_⟩
      refine List.forall_mem_cons.mpr ⟨⟨?_, fun y hy => ?_⟩, hblocks⟩
      · rw [List.head_append_of_ne_nil b.nonempty]
        exact hb.1
      · rw [List.tail_append_of_ne_nil b.nonempty] at hy
        rcases List.mem_append.mp hy with hy | hy
        · exact hb.2 y hy
        · rw [List.mem_singleton.mp hy]
          exact hx

theorem addInstructions_spec {leaders : List (BitVec 64)} {l : List BodyInstruction}
    {blocks : List CodeBlock} (h : blocks ≠ [] ∨ ∀ x ∈ l.head?, x.baseAddress ∈ leaders)
    (hled : ∀ b ∈ blocks, LedBy (fun x => x.baseAddress ∈ leaders) b) :
    listing (l.foldl (addInstruction leaders) blocks) = listing blocks ++ l ∧
      ∀ b ∈ l.foldl (addInstruction leaders) blocks,
        LedBy (fun x => x.baseAddress ∈ leaders) b := by
  induction l generalizing blocks with
  | nil => exact ⟨(List.append_nil _).symm, hled⟩
  | cons x l ih =>
    have hx : blocks ≠ [] ∨ x.baseAddress ∈ leaders := h.imp_right fun h => h x rfl
    obtain ⟨hne, hlist, hled⟩ := addInstruction_spec hx hled
    obtain ⟨hlist', hled'⟩ := ih (.inl hne) hled
    refine ⟨?_, hled'⟩
    rw [List.foldl_cons, hlist', hlist, List.append_assoc, List.singleton_append]

/-- The blocks are the body, cut at its leaders. -/
structure Cut (f : FunctionBody) (blocks : List CodeBlock) : Prop where
  flatten : (blocks.map (·.instructions)).flatten = f.instructions
  led : ∀ b ∈ blocks, LedBy f.IsLeader b

theorem buildBlocks_cut {leaders : List (BitVec 64)}
    (h : ∀ y ∈ f.instructions, y.baseAddress ∈ leaders ↔ f.IsLeader y) :
    f.Cut (f.buildBlocks leaders) := by
  have hhead : ∀ x ∈ f.instructions.head?, x.baseAddress ∈ leaders := by
    intro x hx
    have hx : f.instructions.head f.nonempty = x :=
      List.head_of_mem_head? hx
    exact hx ▸ (h _ (List.head_mem _)).mpr (.inl rfl)
  obtain ⟨hlist, hled⟩ := addInstructions_spec (.inr hhead)
    (fun b (hb : b ∈ ([] : List CodeBlock)) => absurd hb List.not_mem_nil)
  have hflatten : ((f.buildBlocks leaders).map (·.instructions)).flatten = f.instructions := hlist
  refine ⟨hflatten, fun b hb => ?_⟩
  have hmem : ∀ x ∈ b.instructions, x ∈ f.instructions := fun x hx =>
    hflatten ▸ List.mem_flatten.mpr ⟨_, List.mem_map_of_mem hb, hx⟩
  obtain ⟨hfirst, hrest⟩ := hled b (List.mem_reverse.mp hb)
  exact ⟨(h _ (hmem _ (List.head_mem _))).mp hfirst, fun y hy hl =>
    hrest y hy ((h y (hmem y (List.mem_of_mem_tail hy))).mpr hl)⟩

namespace Cut

variable {blocks : List CodeBlock} {b c : CodeBlock}

theorem mem_instructions (h : f.Cut blocks) (hb : b ∈ blocks) (hx : x ∈ b.instructions) :
    x ∈ f.instructions :=
  h.flatten ▸ List.mem_flatten.mpr ⟨_, List.mem_map_of_mem hb, hx⟩

theorem exists_block (h : f.Cut blocks) (hx : x ∈ f.instructions) :
    ∃ b ∈ blocks, x ∈ b.instructions := by
  rw [← h.flatten, List.mem_flatten] at hx
  obtain ⟨_, hl, hx⟩ := hx
  obtain ⟨b, hb, rfl⟩ := List.mem_map.mp hl
  exact ⟨b, hb, hx⟩

theorem ne_nil (h : f.Cut blocks) : blocks ≠ [] := by
  obtain ⟨b, hb, -⟩ := h.exists_block (List.head_mem f.nonempty)
  exact List.ne_nil_of_mem hb

/-- A leader begins the block it is in. -/
theorem exists_leader (h : f.Cut blocks) (hx : x ∈ f.instructions) (hl : f.IsLeader x) :
    ∃ b ∈ blocks, b.baseAddress = x.baseAddress := by
  obtain ⟨b, hb, hxb⟩ := h.exists_block hx
  refine ⟨b, hb, ?_⟩
  have hne := b.nonempty
  rw [← List.cons_head_tail hne] at hxb
  rcases List.mem_cons.mp hxb with rfl | hxb
  · rfl
  · exact absurd hl ((h.led b hb).2 x hxb)

theorem isChain (h : f.Cut blocks) :
    (∀ b ∈ blocks, b.instructions.IsChain fun x y =>
      x.baseAddress.toNat + x.sizeInBytes.toNat = y.baseAddress.toNat) ∧
      blocks.IsChain fun b c => b.back.endAddress = c.baseAddress := by
  have hchain := f.contiguous
  rw [← h.flatten, List.isChain_flatten] at hchain
  · obtain ⟨hinner, hbetween⟩ := hchain
    refine ⟨fun b hb => hinner _ (List.mem_map_of_mem hb), ?_⟩
    rw [List.isChain_map] at hbetween
    refine List.IsChain.imp_of_mem_imp ?_ hbetween
    intro b c hb _ hbc
    have hback := List.getLast_mem b.nonempty
    have hends := hbc _ (List.getLast_mem_getLast? b.nonempty) _ (List.head_mem_head? c.nonempty)
    refine BitVec.eq_of_toNat_eq ?_
    exact (endAddress_toNat (h.mem_instructions hb hback)).trans hends
  · intro hnil
    obtain ⟨b, -, hb⟩ := List.mem_map.mp hnil
    exact b.nonempty hb

/-- What is not last in its block has the next instruction behind it there. -/
theorem exists_next (h : f.Cut blocks) (hb : b ∈ blocks) (hx : x ∈ b.instructions.dropLast) :
    ∃ y ∈ b.instructions.tail, y.baseAddress = x.endAddress := by
  obtain ⟨i, hi, rfl⟩ := List.mem_iff_getElem.mp hx
  rw [List.length_dropLast] at hi
  have hnext := List.isChain_iff_getElem.mp (h.isChain.1 b hb) i (by omega)
  have hmem := h.mem_instructions hb (List.getElem_mem (by omega : i < b.instructions.length))
  refine ⟨b.instructions[i + 1], ?_, BitVec.eq_of_toNat_eq ?_⟩
  · rw [← List.drop_one, List.mem_drop_iff_getElem]
    exact ⟨i, by omega, by simp [Nat.add_comm]⟩
  · rw [List.getElem_dropLast, endAddress_toNat hmem]
    exact hnext.symm

/-- Control is transferred at the end of a block only. -/
theorem isControl_eq_false (h : f.Cut blocks) (hb : b ∈ blocks)
    (hx : x ∈ b.instructions.dropLast) : x.isControl = false := by
  by_contra hc
  rw [Bool.not_eq_false] at hc
  obtain ⟨y, hy, hbase⟩ := h.exists_next hb hx
  have hxf := h.mem_instructions hb (List.mem_of_mem_dropLast hx)
  have hyf := h.mem_instructions hb (List.mem_of_mem_tail hy)
  exact (h.led b hb).2 y hy (.inr ⟨_, leaderAddr_end hxf hc, hbase ▸ covers_base hyf⟩)

theorem eq_back_or_mem_dropLast (hx : x ∈ b.instructions) :
    x = b.back ∨ x ∈ b.instructions.dropLast := by
  rw [← List.dropLast_append_getLast b.nonempty, List.mem_append, List.mem_singleton] at hx
  exact hx.symm

/-- A control instruction ends its block. -/
theorem eq_back_of_isControl (h : f.Cut blocks) (hb : b ∈ blocks) (hx : x ∈ b.instructions)
    (hc : x.isControl = true) : x = b.back := by
  refine (eq_back_or_mem_dropLast hx).resolve_right fun hx => ?_
  rw [h.isControl_eq_false hb hx] at hc
  cases hc

/-- An instruction before a leader ends its block. -/
theorem eq_back_of_next (h : f.Cut blocks) (hb : b ∈ blocks) (hx : x ∈ b.instructions)
    (hy : y ∈ f.instructions) (hbase : y.baseAddress = x.endAddress) (hl : f.IsLeader y) :
    x = b.back := by
  refine (eq_back_or_mem_dropLast hx).resolve_right fun hx => ?_
  obtain ⟨z, hz, hzbase⟩ := h.exists_next hb hx
  have hzf := h.mem_instructions hb (List.mem_of_mem_tail hz)
  obtain rfl := eq_of_baseAddress_eq hy hzf (hbase.trans hzbase.symm)
  exact (h.led b hb).2 y hz hl

/-- The blocks stand in address order. -/
theorem pairwise (h : f.Cut blocks) : blocks.Pairwise fun b c =>
    ∀ x ∈ b.instructions, ∀ y ∈ c.instructions, Before x y := by
  have hpair := instructions_pairwise (f := f)
  rw [← h.flatten, List.pairwise_flatten] at hpair
  exact List.pairwise_map.mp hpair.2

theorem pairwise_base (h : f.Cut blocks) :
    blocks.Pairwise fun b c => b.baseAddress.toNat < c.baseAddress.toNat := by
  refine h.pairwise.imp_of_mem ?_
  intro b c hb _ hbc
  have hpos := f.sized _ (h.mem_instructions hb (List.head_mem b.nonempty))
  have hle := hbc _ (List.head_mem b.nonempty) _ (List.head_mem c.nonempty)
  unfold Before at hle
  exact Nat.lt_of_lt_of_le (Nat.lt_add_of_pos_right hpos) hle

/-- Blocks have different addresses. -/
theorem eq_of_base_eq (h : f.Cut blocks) {i j : Nat} (hb : blocks[i]? = some b)
    (hc : blocks[j]? = some c) (hbase : b.baseAddress = c.baseAddress) : i = j := by
  obtain ⟨hi, rfl⟩ := List.getElem?_eq_some_iff.mp hb
  obtain ⟨hj, rfl⟩ := List.getElem?_eq_some_iff.mp hc
  have hpair := List.pairwise_iff_getElem.mp h.pairwise_base
  rcases Nat.lt_trichotomy i j with hij | hij | hij
  · exact absurd (hpair i j hi hj hij) (by rw [hbase]; exact Nat.lt_irrefl _)
  · exact hij
  · exact absurd (hpair j i hj hi hij) (by rw [hbase]; exact Nat.lt_irrefl _)

theorem base_le_back (h : f.Cut blocks) (hb : b ∈ blocks) :
    b.baseAddress.toNat ≤ b.back.baseAddress.toNat := by
  have hpair := instructions_pairwise (f := f)
  rw [← h.flatten, List.pairwise_flatten] at hpair
  have hinner := hpair.1 _ (List.mem_map_of_mem hb)
  have hback : b.back ∈ b.instructions := List.getLast_mem b.nonempty
  rw [← List.cons_head_tail b.nonempty] at hinner
  rw [← List.cons_head_tail b.nonempty, List.mem_cons] at hback
  rcases hback with heq | hmem
  · exact Nat.le_of_eq (congrArg (fun x => x.baseAddress.toNat) heq.symm)
  · exact Nat.le_trans (Nat.le_add_right _ _) (List.rel_of_pairwise_cons hinner hmem)

/-- What begins right behind a block is the next block. -/
theorem base_eq_end_iff (h : f.Cut blocks) {i j : Nat} (hb : blocks[i]? = some b)
    (hc : blocks[j]? = some c) : c.baseAddress = b.back.endAddress ↔ j = i + 1 := by
  have hnext : ∀ d, blocks[i + 1]? = some d → d.baseAddress = b.back.endAddress := by
    intro d hd
    obtain ⟨hi, rfl⟩ := List.getElem?_eq_some_iff.mp hb
    obtain ⟨hj, rfl⟩ := List.getElem?_eq_some_iff.mp hd
    exact (List.isChain_iff_getElem.mp h.isChain.2 i hj).symm
  constructor
  · intro hbase
    cases hd : blocks[i + 1]? with
    | some d => exact h.eq_of_base_eq hc hd (hbase.trans (hnext d hd).symm)
    | none =>
      -- the last block ends behind the beginning of every block
      have hlen := List.getElem?_eq_none_iff.mp hd
      obtain ⟨hi, rfl⟩ := List.getElem?_eq_some_iff.mp hb
      obtain ⟨hj, rfl⟩ := List.getElem?_eq_some_iff.mp hc
      have hback := h.mem_instructions (List.getElem_mem hi)
        (List.getLast_mem blocks[i].nonempty)
      have hend := endAddress_toNat hback
      have hpos := f.sized _ hback
      have hle := h.base_le_back (List.getElem_mem hi)
      have hnat := congrArg BitVec.toNat hbase
      rw [CodeBlock.back] at hle hnat
      have hji : j < i ∨ j = i := by omega
      rcases hji with hji | rfl
      · have := List.pairwise_iff_getElem.mp h.pairwise_base j i hj hi hji
        omega
      · omega
  · rintro rfl
    exact hnext c hc

end Cut

end FunctionBody

end Pebil

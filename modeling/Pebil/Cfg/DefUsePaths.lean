import Pebil.Cfg.DefUse
import Pebil.Lib.PathSearch
import Mathlib.Data.List.Chain
import Mathlib.Data.List.Perm.Subperm

/-!
# Paths from a definition to its uses

`FlowsTo` is the control flow between instructions: to the target of a branch, and to the
instruction behind. `UsePath` is a path on which a definition reaches a use before it is redefined.
The search for uses is a `PathSearch` (`search`); what it follows is this control flow in the
scope of the search (`mem_following`), and its paths to a use are the beginnings of those paths
(`exists_usePath`, `exists_used`).
-/

namespace Pebil

/-- The instructions that are not skipped are no branches, and fall through. -/
theorem FlowInstruction.defines_spec {x : FlowInstruction} (h : x.defines = true) :
    x.isBranch = false ∧ x.controlFallsThrough = true := by
  have htype : x.itype = .int ∨ x.itype = .float ∨ x.itype = .simd ∨ x.itype = .avx ∨
      x.itype = .move := by
    simpa [defines, isIntegerOperation, isFloatPOperation, X86Instruction.isMoveOperation, or_assoc]
      using h
  rcases htype with h | h | h | h | h <;>
    simp [X86Instruction.isBranch, X86Instruction.isUnconditionalBranch,
      X86Instruction.isConditionalBranch, X86Instruction.controlFallsThrough, X86Instruction.isHalt,
      X86Instruction.isReturn, X86Instruction.isJumpTableBase, h]

namespace DefUseGraph

variable (g : DefUseGraph)

/-- Control flow between the instructions of the graph. What a call executes is left out. -/
inductive FlowsTo : Location → Location → Prop where
  | branch {l l' x y} : g.instruction? l = some x → g.instruction? l' = some y →
      x.isBranch = true → y.baseAddress = x.targetAddress → FlowsTo l l'
  | fallThrough {l l' x y} : g.instruction? l = some x → g.instruction? l' = some y →
      x.controlFallsThrough = true → y.baseAddress = x.endAddress → FlowsTo l l'

/-- Control flow that stays in the scope of a search. -/
def Follows (lp : Option DefUseLoop) (l l' : Location) : Prop :=
  g.FlowsTo l l' ∧ flowsInDefUseScope l'.block lp = true

/-- The instruction redefines the location. -/
def kills (l : Location) (x : DefLocation) : Bool :=
  (g.instruction? l).any fun y => y.getDefs.any x.invalidatedBy

/-- The instruction uses the location. -/
def uses (l : Location) (x : DefLocation) : Bool :=
  (g.instruction? l).any fun y => anyDefsAreUsed [x] y.getUses

/-- What the instruction defines. -/
def defsAt (l : Location) : List DefLocation := ((g.instruction? l).map (·.getDefs)).getD []

/-- A path from the instruction at `l` to a use of `x`, without a redefinition before. -/
structure UsePath (lp : Option DefUseLoop) (l : Location) (x : DefLocation) (p : List Location) :
    Prop where
  chain : List.IsChain (g.Follows lp) (l :: p)
  used : ∃ l', p.getLast? = some l' ∧ g.uses l' x = true
  alive : ∀ l' ∈ p.dropLast, g.kills l' x = false

variable {g} {l l' l'' : Location} {x y z : FlowInstruction} {addr : BitVec 64}

/-! ## Addresses -/

theorem endAddress_toNat (hx : g.instruction? l = some x) :
    x.endAddress.toNat = x.baseAddress.toNat + x.sizeInBytes.toNat := by
  have hbound := g.bounded l x hx
  rw [X86Instruction.endAddress, BitVec.toNat_add, Nat.mod_eq_of_lt hbound]

theorem covers_iff (hx : g.instruction? l = some x) : x.covers addr = true ↔
    x.baseAddress.toNat ≤ addr.toNat ∧ addr.toNat < x.baseAddress.toNat + x.sizeInBytes.toNat := by
  rw [FlowInstruction.covers, Bool.and_eq_true, decide_eq_true_iff, decide_eq_true_iff,
    BitVec.le_def, BitVec.lt_def, endAddress_toNat hx]

theorem covers_base (hx : g.instruction? l = some x) : x.covers x.baseAddress = true := by
  have hpos := g.sized l x hx
  exact (covers_iff hx).mpr ⟨Nat.le_refl _, by omega⟩

theorem mem_places {b : Nat} : l ∈ g.places b ↔ l.block = b ∧ g.Valid l := by
  rw [places, List.mem_map]
  constructor
  · rintro ⟨j, hj, rfl⟩
    rw [List.mem_range] at hj
    cases hbb : g.basicBlocks[b]? with
    | none => simp [hbb] at hj
    | some bb => exact ⟨rfl, bb, hbb, by simpa [hbb] using hj⟩
  · rintro ⟨rfl, bb, hbb, hj⟩
    exact ⟨l.pos, by simpa [hbb] using hj, rfl⟩

theorem mem_allPlaces : l ∈ g.allPlaces ↔ g.Valid l := by
  rw [allPlaces, List.mem_flatMap]
  constructor
  · rintro ⟨b, -, hl⟩
    exact (mem_places.mp hl).2
  · intro h
    obtain ⟨bb, hbb, -⟩ := id h
    exact ⟨l.block, List.mem_range.mpr (List.getElem?_eq_some_iff.mp hbb).1, mem_places.mpr ⟨rfl, h⟩⟩

theorem length_allPlaces : g.allPlaces.length = g.numberOfInstructions := by
  rw [allPlaces, List.length_flatMap, FlowGraph.numberOfInstructions]
  congr 1
  refine List.ext_getElem (by simp) fun b hb _ => ?_
  have hlt : b < g.basicBlocks.length := by simpa using hb
  simp [places, hlt]

/-- An address maps to what covers it. -/
theorem instructionAt_eq_some : g.instructionAt addr = some l ↔
    ∃ x, g.instruction? l = some x ∧ x.covers addr = true := by
  have hany : ∀ l, (g.instruction? l).any (·.covers addr) = true ↔
      ∃ x, g.instruction? l = some x ∧ x.covers addr = true := fun l => Option.any_eq_true _ _
  constructor
  · intro h
    have hfound := List.find?_some h
    exact (hany l).mp hfound
  · rintro ⟨x, hx, hcovers⟩
    have hfound : (g.instructionAt addr).isSome := by
      rw [instructionAt, List.find?_isSome]
      exact ⟨l, mem_allPlaces.mpr (FlowGraph.valid_iff.mpr ⟨x, hx⟩), (hany l).mpr ⟨x, hx, hcovers⟩⟩
    obtain ⟨l', hl'⟩ := Option.isSome_iff_exists.mp hfound
    have hat := List.find?_some hl'
    obtain ⟨x', hx', hcovers'⟩ := (hany l').mp hat
    rw [hl', g.disjoint l l' x x' addr hx hx' hcovers hcovers']

/-- Two instructions at one address are the same. -/
theorem place_unique (hx : g.instruction? l = some x) (hy : g.instruction? l' = some y)
    (h : x.baseAddress = y.baseAddress) : l = l' :=
  g.disjoint l l' x y _ hx hy (covers_base hx) (h ▸ covers_base hy)

/-- What covers the address behind an instruction begins there. -/
theorem baseAddress_eq_endAddress (hx : g.instruction? l = some x)
    (hy : g.instruction? l' = some y) (h : y.covers x.endAddress = true) :
    y.baseAddress = x.endAddress := by
  have hend := endAddress_toNat hx
  have hpos := g.sized l x hx
  obtain ⟨hle, hlt⟩ := (covers_iff hy).mp h
  rcases Nat.lt_or_eq_of_le hle with hbelow | heq
  · -- both have the last byte of `x`
    have hlast : (BitVec.ofNat 64 (x.endAddress.toNat - 1)).toNat = x.endAddress.toNat - 1 := by
      rw [BitVec.toNat_ofNat, Nat.mod_eq_of_lt (by omega)]
    have hsame := g.disjoint l l' x y (BitVec.ofNat 64 (x.endAddress.toNat - 1)) hx hy
      ((covers_iff hx).mpr (by omega)) ((covers_iff hy).mpr (by omega))
    subst hsame
    obtain rfl := Option.some.inj (hx.symm.trans hy)
    omega
  · exact BitVec.eq_of_toNat_eq heq

/-- Two instructions that end at the same address are the same. -/
theorem place_unique_of_end (hx : g.instruction? l = some x) (hy : g.instruction? l' = some y)
    (h : x.endAddress = y.endAddress) : l = l' := by
  have hendx := endAddress_toNat hx
  have hendy := endAddress_toNat hy
  rw [h] at hendx
  have hposx := g.sized l x hx
  have hposy := g.sized l' y hy
  have hlast : (BitVec.ofNat 64 (y.endAddress.toNat - 1)).toNat = y.endAddress.toNat - 1 := by
    rw [BitVec.toNat_ofNat, Nat.mod_eq_of_lt (by omega)]
  exact g.disjoint l l' x y (BitVec.ofNat 64 (y.endAddress.toNat - 1)) hx hy
    ((covers_iff hx).mpr (by omega)) ((covers_iff hy).mpr (by omega))

/-! ## Control flow -/

/-- The middle of a block is reached from the instruction before only, by falling through. -/
theorem FlowsTo.eq_succ (h : g.FlowsTo l l') (hmid : l'.pos ≠ 0) : l' = ⟨l.block, l.pos + 1⟩ := by
  cases h with
  | branch hx hy hbranch htarget =>
    exact absurd (g.branchTargets _ _ _ _ hx hy hbranch (htarget ▸ covers_base hy)).1 hmid
  | @fallThrough x y hx hy hfall hend =>
    obtain ⟨j, hj⟩ := Nat.exists_eq_succ_of_ne_zero hmid
    obtain ⟨bb, hbb, hlt⟩ := FlowGraph.valid_iff.mpr ⟨y, hy⟩
    obtain ⟨z, hz⟩ := FlowGraph.valid_iff.mp
      (show g.Valid ⟨l'.block, j⟩ from ⟨bb, hbb, by show j < _; omega⟩)
    have hnext : g.instruction? ⟨l'.block, j + 1⟩ = some y := by
      rw [show j + 1 = l'.pos from hj.symm]
      exact hy
    have hbefore := g.contiguous l'.block j z y hz hnext
    obtain rfl := place_unique_of_end hx hz (hend.symm.trans hbefore)
    show Location.mk l'.block l'.pos = _
    rw [hj]

theorem FlowsTo.next_unique (h : g.FlowsTo l l') (hmid : l'.pos ≠ 0) (h' : g.FlowsTo l l'') :
    l'' = l' := by
  have hsucc := h.eq_succ hmid
  cases h with
  | branch hx hy hbranch htarget =>
    exact absurd (g.branchTargets _ _ _ _ hx hy hbranch (htarget ▸ covers_base hy)).1 hmid
  | fallThrough hx hy hfall hend =>
    cases h' with
    | branch hx' hy' hbranch htarget =>
      have hsome : (g.instruction? ⟨l.block, l.pos + 1⟩).isSome := by
        rw [← hsucc, hy]
        rfl
      rw [g.branches l.block l.pos _ hx' hsome] at hbranch
      cases hbranch
    | fallThrough hx' hy' hfall' hend' =>
      obtain rfl := Option.some.inj (hx.symm.trans hx')
      exact place_unique hy' hy (hend'.trans hend.symm)

theorem FlowsTo.origin_unique (h : g.FlowsTo l l'') (h' : g.FlowsTo l' l'')
    (hmid : l''.pos ≠ 0) : l = l' := by
  have hsucc := (h.eq_succ hmid).symm.trans (h'.eq_succ hmid)
  obtain ⟨b, j⟩ := l
  obtain ⟨b', j'⟩ := l'
  simp only [Location.mk.injEq, Nat.add_right_cancel_iff] at hsucc
  rw [hsucc.1, hsucc.2]

/-- What is defined by an instruction dies there. -/
theorem kills_defsAt {d : DefLocation} (h : d ∈ g.defsAt l) : g.kills l d = true := by
  unfold defsAt at h
  unfold kills
  cases hx : g.instruction? l with
  | none => simp [hx] at h
  | some x =>
    have hd : d ∈ x.getDefs := by simpa [hx] using h
    rw [Option.any_some, List.any_eq_true]
    exact ⟨d, hd, by simp [DefLocation.invalidatedBy]⟩

/-! ## What the search follows -/

/-- The instructions that the search goes on with behind one. -/
def following (g : DefUseGraph) (lp : Option DefUseLoop) (l : Location) : List Location :=
  match g.instruction? l with
  | none => []
  | some x =>
    ((if x.isBranch then ((g.instructionAt x.targetAddress).map fun t => Location.mk t.block 0).toList
      else []) ++
      (if x.controlFallsThrough then (g.instructionAt x.endAddress).toList else [])).filter
      fun t => flowsInDefUseScope t.block lp

/-- It follows the control flow in its scope. -/
theorem mem_following {lp : Option DefUseLoop} : l' ∈ g.following lp l ↔ g.Follows lp l l' := by
  unfold following Follows
  cases hx : g.instruction? l with
  | none =>
    refine iff_of_false List.not_mem_nil fun h => ?_
    cases h.1 with
    | branch hx' | fallThrough hx' => rw [hx] at hx'; cases hx'
  | some x =>
    rw [List.mem_filter, and_congr_left_iff]
    intro hscope
    rw [List.mem_append]
    constructor
    · rintro (h | h)
      · split at h
        next hbranch =>
          obtain ⟨t, ht, rfl⟩ := Option.map_eq_some_iff.mp (Option.mem_toList.mp h)
          obtain ⟨y, hy, hcovers⟩ := instructionAt_eq_some.mp ht
          obtain ⟨hpos, htarget⟩ := g.branchTargets l t x y hx hy hbranch hcovers
          exact .branch hx (show g.instruction? ⟨t.block, 0⟩ = some y by rwa [← hpos]) hbranch htarget
        next => cases h
      · split at h
        next hfall =>
          obtain ⟨y, hy, hcovers⟩ := instructionAt_eq_some.mp (Option.mem_toList.mp h)
          exact .fallThrough hx hy hfall (baseAddress_eq_endAddress hx hy hcovers)
        next => cases h
    · intro h
      cases h with
      | branch hx' hy hbranch htarget =>
        obtain rfl := Option.some.inj (hx.symm.trans hx')
        have hcovers := htarget ▸ covers_base hy
        have hpos := (g.branchTargets l l' x _ hx hy hbranch hcovers).1
        have hat := instructionAt_eq_some.mpr ⟨_, hy, hcovers⟩
        refine .inl ?_
        rw [if_pos hbranch, hat, Option.map_some, Option.mem_toList, ← hpos]
      | fallThrough hx' hy hfall hend =>
        obtain rfl := Option.some.inj (hx.symm.trans hx')
        have hat := instructionAt_eq_some.mpr ⟨_, hy, hend ▸ covers_base hy⟩
        refine .inr ?_
        rw [if_pos hfall, hat, Option.mem_toList]

/-- Control goes on behind an instruction that is not skipped. -/
theorem flowsTo_iff (hx : g.instruction? l = some x) (hdef : x.defines = true) :
    g.FlowsTo l l' ↔ ∃ y, g.instruction? l' = some y ∧ y.baseAddress = x.endAddress := by
  obtain ⟨hbranch, hfall⟩ := FlowInstruction.defines_spec hdef
  constructor
  · intro h
    cases h with
    | branch hx' hy hbranch' =>
      obtain rfl := Option.some.inj (hx.symm.trans hx')
      rw [hbranch] at hbranch'
      cases hbranch'
    | fallThrough hx' hy hfall' hend =>
      obtain rfl := Option.some.inj (hx.symm.trans hx')
      exact ⟨_, hy, hend⟩
  · rintro ⟨y, hy, hend⟩
    exact .fallThrough hx hy hfall hend

/-- The search starts where control goes from the instruction. -/
theorem firstPath_eq_some {lp : Option DefUseLoop} (hx : g.instruction? l = some x)
    (hdef : x.defines = true) (hscope : flowsInDefUseScope l.block lp = true) :
    g.firstPath lp l = some l' ↔ g.Follows lp l l' := by
  obtain ⟨bb, hbb, hlt⟩ := FlowGraph.valid_iff.mpr ⟨x, hx⟩
  have hflows : g.FlowsTo l l' ↔
      ∃ y, g.instruction? l' = some y ∧ y.baseAddress = x.endAddress := flowsTo_iff hx hdef
  -- the start is the one instruction behind `l`
  have hstart : ∀ start y, g.instruction? start = some y → y.baseAddress = x.endAddress →
      (g.FlowsTo l l' ↔ l' = start) := by
    intro start y hy hend
    rw [hflows]
    constructor
    · rintro ⟨y', hy', hend'⟩
      exact place_unique hy' hy (hend'.trans hend.symm)
    · rintro rfl
      exact ⟨y, hy, hend⟩
  unfold firstPath Follows
  rw [hbb]
  by_cases hlast : l.pos + 1 = bb.instructions.length
  · have hback : g.instruction? ⟨l.block, bb.instructions.length - 1⟩ = some x := by
      rw [← hlast, Nat.add_sub_cancel]
      exact hx
    have honward := g.onward l.block bb x hbb hback hdef
    simp only [if_pos hlast]
    cases htargets : bb.targetBlocks with
    | nil =>
      refine iff_of_false nofun fun h => ?_
      obtain ⟨y, hy, hend⟩ := hflows.mp h.1
      by_cases hmid : l'.pos = 0
      · have hmem := (honward l'.block).mpr ⟨y, by rw [← hmid]; exact hy, hend⟩
        rw [htargets] at hmem
        cases hmem
      · rw [h.1.eq_succ hmid, hlast] at hy
        obtain ⟨bb', hbb', hlt'⟩ := FlowGraph.valid_iff.mpr ⟨y, hy⟩
        obtain rfl := Option.some.inj (hbb.symm.trans hbb')
        exact absurd hlt' (Nat.lt_irrefl _)
    | cons t ts =>
      obtain ⟨y, hy, hend⟩ := (honward t).mp (htargets ▸ List.mem_cons_self)
      rw [hstart ⟨t, 0⟩ y hy hend]
      dsimp only
      split
      next hin =>
        rw [Option.some.injEq, eq_comm]
        exact ⟨fun h => ⟨h, h ▸ hin⟩, fun h => h.1⟩
      next hout =>
        refine iff_of_false nofun fun h => hout ?_
        rw [← h.2, h.1]
  · obtain ⟨y, hy⟩ := FlowGraph.valid_iff.mp
      (show g.Valid ⟨l.block, l.pos + 1⟩ from ⟨bb, hbb, by show l.pos + 1 < _; omega⟩)
    have hend := g.contiguous l.block l.pos x y hx hy
    simp only [if_neg hlast]
    rw [hstart _ y hy hend, Option.some.injEq, eq_comm]
    exact ⟨fun h => ⟨h, h ▸ hscope⟩, fun h => h.1⟩

/-- Behind a block's last instruction, the search starts at a leader. -/
theorem firstPath_mid {lp : Option DefUseLoop} {root : Location}
    (h : g.firstPath lp l = some root) (hmid : root.pos ≠ 0) : root = ⟨l.block, l.pos + 1⟩ := by
  unfold firstPath at h
  grind

/-! ## The search -/

/-- The search for the uses of what the instruction at `l` defines. -/
def search (g : DefUseGraph) (lp : Option DefUseLoop) (l root : Location)
    (h : g.firstPath lp l = some root) : PathSearch Location DefLocation where
  root := root
  next := g.following lp
  leads a := a.pos == 0
  head := lp.map fun lp => ⟨lp.head, 0⟩
  extra := g.numberOfInstructions
  start := g.defsAt l
  kills := g.kills
  uses := g.uses
  head_leads a ha := by
    obtain ⟨lp, -, rfl⟩ := Option.map_eq_some_iff.mp ha
    rfl
  next_unique a b c hb hmid hc :=
    (mem_following.mp hb).1.next_unique (bne_iff_ne.mp (by simpa using hmid)) (mem_following.mp hc).1
  origin_unique a b c ha hb hmid :=
    (mem_following.mp ha).1.origin_unique (mem_following.mp hb).1 (by simpa using hmid)
  kills_root hmid a ha x hx := by
    have hpos : root.pos ≠ 0 := by simpa using hmid
    have hsucc := ((mem_following.mp ha).1.eq_succ hpos).symm.trans (firstPath_mid h hpos)
    simp only [Location.mk.injEq, Nat.add_right_cancel_iff] at hsucc
    obtain ⟨b, j⟩ := a
    obtain ⟨b', j'⟩ := l
    obtain ⟨rfl, rfl⟩ := hsucc
    exact kills_defsAt hx

section Search

variable {lp : Option DefUseLoop} {root : Location} {h : g.firstPath lp l = some root}
  {r p : List Location} {d : DefLocation}

/-- The nodes of a path are instructions of the graph. -/
theorem valid_of_open (hroot : g.Valid root) (hr : (g.search lp l root h).Open r) :
    ∀ a ∈ r, g.Valid a := by
  induction hr with
  | root => exact List.forall_mem_singleton.mpr hroot
  | step _ _ hnext _ ih =>
    refine List.forall_mem_cons.mpr ⟨?_, ih⟩
    cases (mem_following.mp hnext).1 with
    | branch _ hy | fallThrough _ hy => exact FlowGraph.valid_iff.mpr ⟨_, hy⟩

/-- A path without a cycle has no more instructions than the function. -/
theorem search_sized (hroot : g.Valid root) : (g.search lp l root h).Sized := by
  intro r hr hnodup
  have hsub : r ⊆ g.allPlaces := fun a ha => mem_allPlaces.mpr (valid_of_open hroot hr a ha)
  have hle := (List.subperm_of_subset hnodup hsub).length_le
  rw [length_allPlaces] at hle
  exact hle

/-- A path of the search that ends in a use is a path to the use of a definition. -/
theorem exists_usePath (hfollows : g.Follows lp l root) (hr : (g.search lp l root h).Open r)
    (hused : (g.search lp l root h).Used r) : ∃ d ∈ g.defsAt l, g.UsePath lp l d r.reverse := by
  have hchain : List.IsChain (fun b a => g.Follows lp a b) (r ++ [l]) := by
    clear hused
    induction hr with
    | root => exact List.isChain_pair.mpr hfollows
    | step _ _ hnext _ ih => exact List.isChain_cons_cons.mpr ⟨mem_following.mp hnext, ih⟩
  obtain ⟨a, d, ha, hd, huses⟩ := hused
  refine ⟨d, hd.1, ?_, ⟨a, by rw [List.getLast?_reverse, ha], huses⟩, ?_⟩
  · rw [show l :: r.reverse = (r ++ [l]).reverse by simp, List.isChain_reverse]
    exact hchain
  · rw [List.dropLast_reverse]
    exact fun a ha => hd.2 a (List.mem_reverse.mp ha)

/-- A path to a use begins with a path of the search that ends in a use. -/
theorem exists_used (hx : g.instruction? l = some x) (hdef : x.defines = true)
    (hscope : flowsInDefUseScope l.block lp = true) (hd : d ∈ g.defsAt l)
    (hp : g.UsePath lp l d p) :
    ∃ r, (g.search lp l root h).Open r ∧ (g.search lp l root h).Used r ∧ r.length ≤ p.length := by
  have hbegin : ∀ q : List Location, q ≠ [] →
      List.IsChain (fun b a => g.Follows lp a b) (q ++ [l]) → (∀ a ∈ q.tail, g.kills a d = false) →
      (g.search lp l root h).Open q ∨ ∃ r, r <:+ q ∧ (g.search lp l root h).Open r ∧
        (g.search lp l root h).Used r := by
    intro q
    induction q with
    | nil => exact fun hq => absurd rfl hq
    | cons b q ih =>
      intro _ hchain halive
      cases q with
      | nil =>
        have hfollows : g.Follows lp l b := by simpa using hchain
        obtain rfl := Option.some.inj (h.symm.trans ((firstPath_eq_some hx hdef hscope).mpr hfollows))
        exact .inl (.root hd)
      | cons a q =>
        rw [List.cons_append, List.cons_append, List.isChain_cons_cons] at hchain
        obtain ⟨hnext, hchain⟩ := hchain
        rcases ih (List.cons_ne_nil a q) hchain fun a ha => halive a (List.mem_cons_of_mem _ ha) with
          hopen | ⟨r, hr, hopen, hused⟩
        · by_cases hused : (g.search lp l root h).Used (a :: q)
          · exact .inr ⟨a :: q, ⟨[b], rfl⟩, hopen, hused⟩
          · exact .inl (.step hopen hused (mem_following.mpr hnext) ⟨hd, halive⟩)
        · exact .inr ⟨r, hr.trans ⟨[b], rfl⟩, hopen, hused⟩
  obtain ⟨a, ha, huses⟩ := hp.used
  have hne : p.reverse ≠ [] := by
    intro hnil
    rw [List.reverse_eq_nil_iff.mp hnil] at ha
    cases ha
  have hchain : List.IsChain (fun b a => g.Follows lp a b) (p.reverse ++ [l]) := by
    rw [← List.reverse_cons, List.isChain_reverse]
    exact hp.chain
  have halive : ∀ a ∈ p.reverse.tail, g.kills a d = false := by
    rw [List.tail_reverse]
    exact fun a ha => hp.alive a (List.mem_reverse.mp ha)
  rcases hbegin p.reverse hne hchain halive with hopen | ⟨r, hr, hopen, hused⟩
  · exact ⟨p.reverse, hopen, ⟨a, d, by rw [List.head?_reverse, ha], ⟨hd, halive⟩, huses⟩,
      (List.length_reverse).le⟩
  · exact ⟨r, hopen, hused, hr.length_le.trans (List.length_reverse).le⟩

end Search

end DefUseGraph

end Pebil

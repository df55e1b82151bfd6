import Pebil.Cfg.ConnectGraph
import Pebil.Cfg.LengauerTarjanCorrect
import Pebil.Cfg.LoopsCorrect

/-!
# Dominators and loops of a function (src/FlowGraph.C:1046–1063, src/LengauerTarjan.C:255–280)

`setImmDominatorBlocks` works on a connected graph. The places of `LengauerTarjan` are the blocks
by other names, so the dominators of the places are those of the blocks: every block that the entry
reaches gets its immediate dominator, the entry none, and the others get the entry
(`setImmDominatorBlocks_spec`).

`toLinked` is the graph that `buildLoops` then works on, and its dominators are correct.
-/

namespace Pebil

open Relation (ReflTransGen)
open Function (update)

namespace CodeGraph

/-- The edges. -/
def Succ (g : CodeGraph) : Nat → Nat → Prop := DepthFirst.Succ g.links.targetBlocks

/-- Reachable from the first block. -/
def Reachable (g : CodeGraph) (b : Nat) : Prop := ReflTransGen g.Succ 0 b

/-- What `connectGraph` leaves: mirrored edges between blocks, and flags for what the entry does
not reach. -/
structure Connected (g : CodeGraph) : Prop where
  nonempty : g.basicBlocks ≠ []
  entry : g.entry = 0
  mirrored : ∀ i j, i ∈ g.links.sourceBlocks j ↔ j ∈ g.links.targetBlocks i
  targets_lt : ∀ i j, j ∈ g.links.targetBlocks i → j < g.basicBlocks.length
  sources_lt : ∀ i j, i ∈ g.links.sourceBlocks j → i < g.basicBlocks.length
  targets_nodup : ∀ i, (g.links.targetBlocks i).Nodup
  noPath : ∀ i < g.basicBlocks.length, g.noPath i = false ↔ g.Reachable i

namespace Connected

variable {g : CodeGraph} {b : Nat}

theorem length_pos (h : g.Connected) : 0 < g.basicBlocks.length :=
  List.length_pos_iff.mpr h.nonempty

theorem lt_of_reachable (h : g.Connected) (hb : g.Reachable b) : b < g.basicBlocks.length := by
  cases hb with
  | refl => exact h.length_pos
  | tail _ hstep => exact h.targets_lt _ _ hstep

end Connected

end CodeGraph

/-! ## Blocks and places -/

namespace LengauerTarjan

variable {t : LengauerTarjan} {g : CodeGraph} {a b v w : Nat}

theorem Placed.noPath_iff (h : t.Placed g.basicBlocks.length g.noPath)
    (hb : b < g.basicBlocks.length) :
    g.noPath b = false ↔ t.basicBlockToLoc b ≤ t.reachableCount := by
  obtain ⟨hpos, hle, hloc⟩ := h.loc b hb
  obtain ⟨c, -, hloc', -, hiff⟩ := h.block _ hpos hle
  obtain rfl := Option.some.inj (hloc.symm.trans hloc')
  rw [← Bool.not_eq_true, hiff, Nat.not_lt]

/-- The block of a reachable place. -/
theorem Placed.block_reachable (h : t.Placed g.basicBlocks.length g.noPath) (hv : 0 < v)
    (hvn : v ≤ t.reachableCount) :
    ∃ b < g.basicBlocks.length, t.locToBasicBlock v = some b ∧ t.basicBlockToLoc b = v ∧
      g.noPath b = false := by
  obtain ⟨b, hb, hloc, hback, -⟩ := h.block v hv (Nat.le_trans hvn h.le)
  exact ⟨b, hb, hloc, hback, (h.noPath_iff hb).mpr (hback ▸ hvn)⟩

theorem Placed.closed (h : t.Placed g.basicBlocks.length g.noPath) (hg : g.Connected) :
    Closed t g := fun v hv hvn => by
  obtain ⟨b, hb, hloc, -, hflag⟩ := h.block_reachable hv hvn
  refine ⟨b, hloc, hflag, fun c hc => ?_⟩
  -- the target of a reachable block is reachable, so its place is not behind `reachableCount`
  have hcn := hg.targets_lt b c hc
  have hreach : g.Reachable c := ((hg.noPath b hb).mp hflag).tail hc
  exact ⟨(h.loc c hcn).1, (h.noPath_iff hcn).mp ((hg.noPath c hcn).mpr hreach)⟩

/-- The places of the reachable blocks are reached. -/
theorem Placed.reach_loc (h : t.Placed g.basicBlocks.length g.noPath) (hg : g.Connected)
    (hroot : t.rootLoc = t.basicBlockToLoc 0) (hb : g.Reachable b) :
    ReflTransGen (t.Succ g) t.rootLoc (t.basicBlockToLoc b) := by
  induction hb with
  | refl => exact hroot ▸ .refl
  | @tail a c ha hac ih =>
    exact ih.tail ⟨a, c, (h.loc a (hg.lt_of_reachable ha)).2.2, hac, rfl⟩

theorem Placed.root_le (h : t.Placed g.basicBlocks.length g.noPath) (hg : g.Connected)
    (hroot : t.rootLoc = t.basicBlockToLoc 0) : 0 < t.rootLoc ∧ t.rootLoc ≤ t.reachableCount := by
  have hflag := (hg.noPath 0 hg.length_pos).mpr .refl
  rw [hroot]
  exact ⟨(h.loc 0 hg.length_pos).1, (h.noPath_iff hg.length_pos).mp hflag⟩

theorem Placed.ready (h : t.Placed g.basicBlocks.length g.noPath) (hg : g.Connected)
    (T : DfsTree (t.Succ g) t.rootLoc) (hfull : Full t T) : Ready T where
  full := hfull
  fuel := by
    rw [fuel, h.count]
    exact Nat.lt_succ_of_le h.le
  block v hv := by
    obtain ⟨hpos, hle⟩ := (hfull.reach v).mp hv
    obtain ⟨b, -, hloc, -⟩ := h.block_reachable hpos hle
    exact ⟨b, hloc⟩
  source w b hwr hw v := by
    obtain ⟨hwpos, hwle⟩ := (hfull.reach w).mp hwr
    obtain ⟨b', -, hw', hwback, -⟩ := h.block_reachable hwpos hwle
    obtain rfl := Option.some.inj (hw.symm.trans hw')
    constructor
    · rintro ⟨hv, a, c, hloc, hc, rfl⟩
      obtain ⟨hpos, hle⟩ := (hfull.reach v).mp hv
      obtain ⟨a', -, hloc', hback, hflag⟩ := h.block_reachable hpos hle
      obtain rfl := Option.some.inj (hloc.symm.trans hloc')
      have hback' := (h.loc c (hg.targets_lt a c hc)).2.2
      obtain rfl := Option.some.inj (hw.symm.trans hback')
      exact ⟨a, (hg.mirrored a b).mpr hc, hflag, hback⟩
    · rintro ⟨a, ha, hflag, rfl⟩
      have hlt := hg.sources_lt a b ha
      have hab := (hg.mirrored a b).mp ha
      obtain ⟨hpos, -, hloc⟩ := h.loc a hlt
      exact ⟨(hfull.reach _).mpr ⟨hpos, (h.noPath_iff hlt).mp hflag⟩, a, b, hloc, hab, hwback⟩

/-! ## Telling the blocks -/

/-- The loop over the reachable blocks: each gets the block `F` says, if there is one. -/
theorem setReachable_run {s : DominatorArrays} {F : Nat → Option Nat} {l : List Nat}
    (hl : ∀ i ∈ l, ∃ b, t.locToBasicBlock (s.vertex i) = some b ∧ g.noPath b = false ∧
      t.locToBasicBlock (s.dom (s.vertex i)) = F b) (imm : Nat → Option Nat)
    (himm : ∀ b, imm b = none ∨ imm b = F b) :
    ∃ imm', l.foldlM (t.setReachable g s) imm = some imm' ∧
      (∀ b, imm b = F b → imm' b = F b) ∧
      ∀ i ∈ l, ∀ b, t.locToBasicBlock (s.vertex i) = some b → imm' b = F b := by
  induction l generalizing imm with
  | nil => exact ⟨imm, rfl, fun _ h => h, fun i hi => absurd hi List.not_mem_nil⟩
  | cons i l ih =>
    obtain ⟨b, hb, hflag, hdom⟩ := hl i List.mem_cons_self
    obtain ⟨imm₁, hstep, hset, hother⟩ : ∃ imm₁, t.setReachable g s imm i = some imm₁ ∧
        imm₁ b = F b ∧ ∀ c, c ≠ b → imm₁ c = imm c := by
      rw [setReachable, hb, Option.bind_some, hflag, hdom]
      cases hF : F b with
      | none =>
        -- the root has no dominator, and the code tells it none
        refine ⟨imm, rfl, ?_, fun _ _ => rfl⟩
        rcases himm b with hnone | hsome
        · exact hnone
        · exact hsome.trans hF
      | some d =>
        exact ⟨_, rfl, Function.update_self _ _ _, fun c hc => Function.update_of_ne hc _ _⟩
    have himm₁ : ∀ c, imm₁ c = none ∨ imm₁ c = F c := fun c => by
      by_cases hcb : c = b
      · exact .inr (hcb ▸ hset)
      · rw [hother c hcb]
        exact himm c
    obtain ⟨imm', hrun, hkeep, hall⟩ := ih (fun j hj => hl j (List.mem_cons_of_mem _ hj)) imm₁ himm₁
    refine ⟨imm', ?_, fun c hc => hkeep c ?_, fun j hj c hc => ?_⟩
    · rw [List.foldlM_cons, hstep]
      exact hrun
    · by_cases hcb : c = b
      · exact hcb ▸ hset
      · rw [hother c hcb]
        exact hc
    · rcases List.mem_cons.mp hj with rfl | hj
      · obtain rfl := Option.some.inj (hb.symm.trans hc)
        exact hkeep b hset
      · exact hall j hj c hc

/-- The loop over the other blocks: each gets the root, and the reachable ones keep theirs. -/
theorem setUnreachable_run {l : List Nat}
    (hl : ∀ i ∈ l, ∃ b, t.locToBasicBlock i = some b ∧ g.noPath b = true) (imm : Nat → Option Nat) :
    ∃ imm', l.foldlM (t.setUnreachable g) imm = some imm' ∧
      (∀ b, g.noPath b = false → imm' b = imm b) ∧
      (∀ b, imm b = t.locToBasicBlock t.rootLoc → imm' b = t.locToBasicBlock t.rootLoc) ∧
      ∀ i ∈ l, ∀ b, t.locToBasicBlock i = some b → imm' b = t.locToBasicBlock t.rootLoc := by
  induction l generalizing imm with
  | nil => exact ⟨imm, rfl, fun _ _ => rfl, fun _ h => h, fun i hi => absurd hi List.not_mem_nil⟩
  | cons i l ih =>
    obtain ⟨b, hb, hflag⟩ := hl i List.mem_cons_self
    have hstep : t.setUnreachable g imm i =
        some (update imm b (t.locToBasicBlock t.rootLoc)) := by
      rw [setUnreachable, hb, Option.bind_some, if_pos hflag]
    obtain ⟨imm', hrun, hreach, hkeep, hall⟩ :=
      ih (fun j hj => hl j (List.mem_cons_of_mem _ hj)) (update imm b (t.locToBasicBlock t.rootLoc))
    refine ⟨imm', ?_, fun c hc => ?_, fun c hc => hkeep c ?_, fun j hj c hc => ?_⟩
    · rw [List.foldlM_cons, hstep]
      exact hrun
    · -- a reachable block is not flagged
      have hcb : c ≠ b := by
        rintro rfl
        rw [hflag] at hc
        cases hc
      rw [hreach c hc, Function.update_of_ne hcb]
    · by_cases hcb : c = b
      · rw [hcb, Function.update_self]
      · rw [Function.update_of_ne hcb, hc]
    · rcases List.mem_cons.mp hj with rfl | hj
      · obtain rfl := Option.some.inj (hb.symm.trans hc)
        exact hkeep b (Function.update_self _ _ _)
      · exact hall j hj c hc

/-- The block of a place. -/
def blockOf (t : LengauerTarjan) (v : Nat) : Nat := (t.locToBasicBlock v).getD 0

theorem Placed.locToBasicBlock_reach (h : t.Placed g.basicBlocks.length g.noPath)
    (hg : g.Connected) (hroot : t.rootLoc = t.basicBlockToLoc 0)
    (hv : ReflTransGen (t.Succ g) t.rootLoc v) : t.locToBasicBlock v = some (t.blockOf v) := by
  obtain ⟨b, hb⟩ : ∃ b, t.locToBasicBlock v = some b := by
    cases hv with
    | refl => exact ⟨0, hroot ▸ (h.loc 0 hg.length_pos).2.2⟩
    | tail _ hstep =>
      obtain ⟨a, c, -, hc, rfl⟩ := hstep
      exact ⟨c, (h.loc c (hg.targets_lt a c hc)).2.2⟩
  rw [blockOf, hb]
  rfl

/-- An immediate dominator of places is one of their blocks. -/
theorem Placed.isImmDominator (h : t.Placed g.basicBlocks.length g.noPath) (hg : g.Connected)
    (hroot : t.rootLoc = t.basicBlockToLoc 0) (hb : g.Reachable b)
    (himm : IsImmDominator (t.Succ g) t.rootLoc v (t.basicBlockToLoc b)) :
    IsImmDominator g.Succ 0 (t.blockOf v) b := by
  have hback : ∀ {c}, c < g.basicBlocks.length → t.blockOf (t.basicBlockToLoc c) = c := fun hc => by
    rw [blockOf, (h.loc _ hc).2.2]
    rfl
  have hreach : ∀ {x}, ReflTransGen (t.Succ g) t.rootLoc x → 0 < x ∧ x ≤ t.reachableCount :=
    fun hx => by
      induction hx with
      | refl => exact h.root_le hg hroot
      | @tail y z _ hyz ih =>
        obtain ⟨a, hloc, -, hts⟩ := h.closed hg y ih.1 ih.2
        obtain ⟨a', c, hloc', hc, rfl⟩ := hyz
        obtain rfl := Option.some.inj (hloc.symm.trans hloc')
        exact hts c hc
  -- the two namings are inverse to each other on what is reachable
  have hres := IsImmDominator.map (e := t.blockOf) (f := t.basicBlockToLoc)
    hroot.symm (by rw [hroot, hback hg.length_pos])
    (fun x y hx hxy => ⟨x, y, (h.loc x (hg.lt_of_reachable hx)).2.2, hxy, rfl⟩)
    (fun x y _ hxy => by
      obtain ⟨a, c, hloc, hc, rfl⟩ := hxy
      rw [hback (hg.targets_lt a c hc), blockOf, hloc]
      exact hc)
    (fun x hx => hback (hg.lt_of_reachable hx))
    (fun x hx => by
      obtain ⟨hpos, hle⟩ := hreach hx
      obtain ⟨c, hc, -, hloc, -⟩ := h.block_reachable hpos hle
      rw [← hloc, hback hc])
    (h.reach_loc hg hroot hb) himm
  rwa [hback (hg.lt_of_reachable hb)] at hres

/-- The two loops tell a reachable block the block of its place's `dom`, and any other block the
root. -/
theorem Placed.tell_run (h : t.Placed g.basicBlocks.length g.noPath) (hg : g.Connected)
    {s : DominatorArrays}
    (hin : ∀ j, 0 < j → j ≤ t.reachableCount → 0 < s.vertex j ∧ s.vertex j ≤ t.reachableCount)
    (hsurj : ∀ v, 0 < v → v ≤ t.reachableCount → ∃ j, 0 < j ∧ j ≤ t.reachableCount ∧
      s.vertex j = v) :
    ∃ imm, (((List.range' 1 t.reachableCount).foldlM (t.setReachable g s) fun _ => none).bind
        fun imm => (List.range' (t.reachableCount + 1)
          (t.nodeCount - t.reachableCount)).reverse.foldlM (t.setUnreachable g) imm) = some imm ∧
      (∀ b, g.Reachable b → imm b = t.locToBasicBlock (s.dom (t.basicBlockToLoc b))) ∧
      ∀ b < g.basicBlocks.length, ¬ g.Reachable b → imm b = t.locToBasicBlock t.rootLoc := by
  have hcount := h.count
  obtain ⟨imm₁, hrun₁, -, hset⟩ := setReachable_run (t := t) (g := g) (s := s)
    (F := fun b => t.locToBasicBlock (s.dom (t.basicBlockToLoc b)))
    (l := List.range' 1 t.reachableCount) (fun i hi => by
      obtain ⟨hlow, hhigh⟩ := List.mem_range'_1.mp hi
      obtain ⟨hpos, hle⟩ := hin i hlow (by omega)
      obtain ⟨b, -, hloc, hback, hflag⟩ := h.block_reachable hpos hle
      exact ⟨b, hloc, hflag, by rw [hback]⟩) (fun _ => none) (fun _ => .inl rfl)
  obtain ⟨imm, hrun, hkeep, -, hunset⟩ := setUnreachable_run (t := t) (g := g)
    (l := (List.range' (t.reachableCount + 1) (t.nodeCount - t.reachableCount)).reverse)
    (fun i hi => by
      obtain ⟨hlow, hhigh⟩ := List.mem_range'_1.mp (List.mem_reverse.mp hi)
      obtain ⟨b, -, hloc, -, hiff⟩ := h.block i (by omega) (by omega)
      exact ⟨b, hloc, hiff.mpr (by omega)⟩) imm₁
  refine ⟨imm, by rw [hrun₁]; exact hrun, fun b hb => ?_, fun b hb hnot => ?_⟩
  · have hlt := hg.lt_of_reachable hb
    have hflag := (hg.noPath b hlt).mpr hb
    obtain ⟨hpos, -, hloc⟩ := h.loc b hlt
    obtain ⟨j, hj, hjn, hvertex⟩ := hsurj _ hpos ((h.noPath_iff hlt).mp hflag)
    rw [hkeep b hflag]
    exact hset j (List.mem_range'_1.mpr ⟨hj, by omega⟩) b (hvertex ▸ hloc)
  · obtain ⟨-, hle, hloc⟩ := h.loc b hb
    have hgt : t.reachableCount < t.basicBlockToLoc b := Nat.lt_of_not_le fun hle' =>
      hnot ((hg.noPath b hb).mp ((h.noPath_iff hb).mpr hle'))
    exact hunset _ (List.mem_reverse.mpr (List.mem_range'_1.mpr ⟨hgt, by omega⟩)) b hloc

end LengauerTarjan

namespace CodeGraph

variable {g : CodeGraph}

/-- What the blocks are told: the entry nothing, every other block that it reaches its immediate
dominator, and the rest the entry. -/
structure DominatorsSet (g : CodeGraph) (imm : Nat → Option Nat) : Prop where
  entry : imm 0 = none
  immediate : ∀ b, g.Reachable b → b ≠ 0 → ∃ d, imm b = some d ∧ IsImmDominator g.Succ 0 d b
  other : ∀ b < g.basicBlocks.length, ¬ g.Reachable b → imm b = some 0

/-- `setImmDominatorBlocks` ends and fails no assertion, whatever the memory holds. -/
theorem Connected.setImmDominatorBlocks_spec (hg : g.Connected) (tables : LengauerTarjan)
    (arrays : DominatorArrays) :
    ∃ imm, g.setImmDominatorBlocks tables arrays = some imm ∧ g.DominatorsSet imm := by
  obtain ⟨t, hnew, h, hroot⟩ :=
    LengauerTarjan.new_placed g.basicBlocks.length 0 g.noPath tables
  have hall : ∀ x, 0 < x → x ≤ t.reachableCount → ReflTransGen (t.Succ g) t.rootLoc x := by
    intro x hx hxn
    obtain ⟨b, hb, -, rfl, hflag⟩ := h.block_reachable hx hxn
    exact h.reach_loc hg hroot ((hg.noPath b hb).mp hflag)
  have hfuel : t.reachableCount < t.fuel := by
    rw [LengauerTarjan.fuel, h.count]
    exact Nat.lt_succ_of_le h.le
  obtain ⟨s, hfind, hin, hsurj, hdomroot, himm⟩ := LengauerTarjan.findDominators_spec
    (h.closed hg) (h.root_le hg hroot) hfuel hall (h.ready hg) arrays
  obtain ⟨imm, hrun, hreach, hother⟩ := h.tell_run hg hin hsurj
  have hzero : t.locToBasicBlock t.rootLoc = some 0 := by
    rw [hroot]
    exact (h.loc 0 hg.length_pos).2.2
  refine ⟨imm, ?_, ?_, fun b hb hb0 => ?_, fun b hb hnot => (hother b hb hnot).trans hzero⟩
  · rw [CodeGraph.setImmDominatorBlocks, if_neg (by simp [hg.nonempty, hg.entry]), hnew,
      Option.bind_some, LengauerTarjan.immediateDominators, hfind]
    exact hrun
  · rw [hreach 0 .refl, ← hroot, hdomroot, h.null]
  · have hlt := hg.lt_of_reachable hb
    obtain ⟨hpos, -, hloc⟩ := h.loc b hlt
    have hle := (h.noPath_iff hlt).mp ((hg.noPath b hlt).mpr hb)
    have hne : t.basicBlockToLoc b ≠ t.rootLoc := fun heq => by
      rw [heq, hzero] at hloc
      exact hb0 (Option.some.inj hloc).symm
    have hd := himm _ hpos hle hne
    -- the dominator is a reachable place, so it has a block
    have hsome := h.locToBasicBlock_reach hg hroot (hd.dominates.reach (h.reach_loc hg hroot hb))
    exact ⟨_, (hreach b hb).trans hsome, h.isImmDominator hg hroot hb hd⟩

/-! ## The graph for `buildLoops` -/

/-- A block as `buildLoops` sees it. -/
def linkedBlock (g : CodeGraph) (imm : Nat → Option Nat) (p : CodeBlock × Nat) : LinkedBlock where
  baseAddress := p.1.baseAddress.toNat
  numberOfBytes := (p.1.instructions.map fun x => x.sizeInBytes.toNat).sum
  targetBlocks := g.links.targetBlocks p.2
  sourceBlocks := g.links.sourceBlocks p.2
  immDominator := imm p.2
  endsWithCall := p.1.back.isCall

theorem getElem?_linked (imm : Nat → Option Nat) (i : Nat) :
    (g.basicBlocks.zipIdx.map (g.linkedBlock imm))[i]? =
      (g.basicBlocks[i]?).map fun b => g.linkedBlock imm (b, i) := by
  rw [List.getElem?_map, List.getElem?_zipIdx, Option.map_map, Nat.zero_add]
  rfl

/-- The graph that `buildLoops` works on. -/
def toLinked (g : CodeGraph) (hg : g.Connected) (imm : Nat → Option Nat) : LinkedGraph where
  basicBlocks := g.basicBlocks.zipIdx.map (g.linkedBlock imm)
  nonempty h := hg.nonempty (List.zipIdx_eq_nil_iff.mp (List.map_eq_nil_iff.mp h))
  targets_lt b hb j hj := by
    obtain ⟨p, -, rfl⟩ := List.mem_map.mp hb
    rw [List.length_map, List.length_zipIdx]
    exact hg.targets_lt p.2 j hj
  targets_nodup b hb := by
    obtain ⟨p, -, rfl⟩ := List.mem_map.mp hb
    exact hg.targets_nodup p.2
  sources_lt b hb i hi := by
    obtain ⟨p, -, rfl⟩ := List.mem_map.mp hb
    rw [List.length_map, List.length_zipIdx]
    exact hg.sources_lt i p.2 hi
  mirrored i j a b ha hb := by
    rw [getElem?_linked] at ha hb
    obtain ⟨a', -, rfl⟩ := Option.map_eq_some_iff.mp ha
    obtain ⟨b', -, rfl⟩ := Option.map_eq_some_iff.mp hb
    exact hg.mirrored i j

section Linked

variable (hg : g.Connected) (imm : Nat → Option Nat)

theorem mem_targets_toLinked {i j : Nat} :
    j ∈ (g.toLinked hg imm).targets i ↔ j ∈ g.links.targetBlocks i := by
  have hget : (g.toLinked hg imm).basicBlocks[i]? = _ := getElem?_linked imm i
  rw [LinkedGraph.targets, hget]
  cases hi : g.basicBlocks[i]? with
  | some b => rfl
  | none =>
    -- behind the blocks there are no edges
    refine iff_of_false List.not_mem_nil fun hj => ?_
    have hlt := hg.sources_lt i j ((hg.mirrored i j).mpr hj)
    exact absurd hlt (Nat.not_lt.mpr (List.getElem?_eq_none_iff.mp hi))

theorem succ_toLinked : (g.toLinked hg imm).Succ = g.Succ :=
  funext₂ fun _ _ => propext (mem_targets_toLinked hg imm)

theorem reachable_toLinked {b : Nat} : (g.toLinked hg imm).Reachable b ↔ g.Reachable b := by
  rw [LinkedGraph.Reachable, succ_toLinked hg imm, Reachable]

theorem immDominator_toLinked {b : Nat} (hb : b < g.basicBlocks.length) :
    (g.toLinked hg imm).immDominator b = imm b := by
  have hget : (g.toLinked hg imm).basicBlocks[b]? = _ := getElem?_linked imm b
  rw [LinkedGraph.immDominator, hget, List.getElem?_eq_getElem hb]
  rfl

theorem endsWithCall_toLinked {b : Nat} : (g.toLinked hg imm).endsWithCall b = false ↔
    ∀ block ∈ g.basicBlocks[b]?, block.back.isCall = false := by
  have hget : (g.toLinked hg imm).basicBlocks[b]? = _ := getElem?_linked imm b
  rw [LinkedGraph.endsWithCall, hget]
  cases g.basicBlocks[b]? with
  | none => exact iff_of_true rfl nofun
  | some block =>
    refine ⟨fun h block' hmem => ?_, fun h => h block rfl⟩
    obtain rfl := Option.mem_some_iff.mp hmem
    exact h

end Linked

/-- The dominators that the blocks are told are correct. -/
theorem DominatorsSet.toLinked {imm : Nat → Option Nat} (h : g.DominatorsSet imm)
    (hg : g.Connected) :
    (g.toLinked hg imm).DominatorsCorrect where
  entry := (immDominator_toLinked hg imm hg.length_pos).trans h.entry
  immediate b hb hb0 := by
    have hreach := (reachable_toLinked hg imm).mp hb
    rw [immDominator_toLinked hg imm (hg.lt_of_reachable hreach), succ_toLinked hg imm]
    exact h.immediate b hreach hb0

/-- The loops of a graph: one for each edge from a reachable block to a dominator of it, unless the
block ends with a call. A loop has its head and what reaches its tail without passing the head, and
the head dominates the reachable ones of these blocks. -/
structure LoopsFound (g : CodeGraph) {n : Nat} (loops : List (Loop n)) : Prop where
  once : (loops.map fun l => (l.tail, l.head)).Nodup
  found : ∀ t h, (t, h) ∈ loops.map (fun l => (l.tail, l.head)) ↔
    g.Reachable t ∧ g.Succ t h ∧ Dominates g.Succ 0 h t ∧
      ∀ block ∈ g.basicBlocks[t]?, block.back.isCall = false
  body : ∀ l ∈ loops, ∀ b, l.blocks.contains b = true ↔
    b = l.head ∨ PathAvoiding g.Succ l.head b l.tail
  dominated : ∀ l ∈ loops, ∀ b, l.blocks.contains b = true → g.Reachable b →
    Dominates g.Succ 0 l.head b

theorem DominatorsSet.buildLoops_spec {imm : Nat → Option Nat} (h : g.DominatorsSet imm)
    (hg : g.Connected) :
    ∃ loops, (g.toLinked hg imm).buildLoops = some loops ∧ g.LoopsFound loops := by
  obtain ⟨loops, hloops, honce, hfound, hbody⟩ := LinkedGraph.buildLoops_spec (h.toLinked hg)
  have hsucc := succ_toLinked hg imm
  have hbody' : ∀ l ∈ loops, ∀ b, l.blocks.contains b = true ↔
      b = l.head ∨ PathAvoiding g.Succ l.head b l.tail := fun l hl b => by
    rw [← hsucc]
    exact hbody l hl b
  have hedge : ∀ t c, (t, c) ∈ loops.map (fun l => (l.tail, l.head)) ↔
      g.Reachable t ∧ g.Succ t c ∧ Dominates g.Succ 0 c t ∧
        ∀ block ∈ g.basicBlocks[t]?, block.back.isCall = false := fun t c => by
    rw [← reachable_toLinked hg imm, ← endsWithCall_toLinked hg imm, ← hsucc]
    exact (hfound t c).trans ⟨fun e => ⟨e.reachable, e.edge, e.dominates, e.noCall⟩,
      fun ⟨hreach, hmem, hdom, hcall⟩ => ⟨hreach, hmem, hdom, hcall⟩⟩
  refine ⟨loops, hloops, ⟨honce, hedge, hbody', fun l hl b hb _ => ?_⟩⟩
  obtain ⟨-, -, hdom, -⟩ := (hedge _ _).mp (List.mem_map_of_mem hl)
  rcases (hbody' l hl b).mp hb with rfl | hpath
  · exact .refl _ _ _
  · exact hdom.of_pathAvoiding hpath

end CodeGraph

/-! ## From the code to the loops -/

namespace FunctionBody

variable {f : FunctionBody} {g : CodeGraph}

theorem WellFormed.connected (h : f.WellFormed g) (hne : g.basicBlocks ≠ []) : g.Connected where
  nonempty := hne
  entry := h.entry
  mirrored := h.mirrored
  targets_lt := h.targets_lt
  sources_lt := h.sources_lt
  targets_nodup := h.targets_nodup
  noPath i hi := by
    rw [CodeGraph.Reachable, CodeGraph.Succ, ← h.entry]
    exact h.noPath i hi

theorem generateCFG_connected (f : FunctionBody) :
    ∃ g, f.generateCFG = some g ∧ g.Connected := by
  obtain ⟨g, hg, hwf, hcut, -⟩ := f.generateCFG_spec
  exact ⟨g, hg, hwf.connected hcut.ne_nil⟩

end FunctionBody

end Pebil

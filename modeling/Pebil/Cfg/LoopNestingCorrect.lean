import Pebil.Cfg.LoopNesting
import Pebil.Cfg.LoopsCorrect
import Pebil.Base.BitSetAlgebra
import Pebil.Lib.LoopFamily

/-!
# When the nesting queries are right

`getOuterLoop` takes the first loop with a superset of the blocks, the loop itself included, and
`getLoopDepth` counts all of them. The queries answer what they are for exactly if no two loops
have the same head, loops with a block in common are nested, and no loop is listed before the
outermost loop around it (`nestingRight_iff`). The second holds by itself for loops that meet in a
reachable block.
-/

namespace Pebil

open LoopNesting

/-- The blocks of a loop. -/
def Loop.blockSet {n : Nat} (l : Loop n) : Finset Nat :=
  (Finset.range n).filter fun b => l.isBlockIn b = true

/-- Natural loops of the graph, in any order. -/
structure LinkedGraph.IsLoops (g : LinkedGraph) (loops : List (Loop g.size)) : Prop where
  edge : ∀ l ∈ loops, IsBackEdge g.Succ 0 l.tail l.head
  body : ∀ l ∈ loops, g.BodyComplete l
  counted : ∀ l ∈ loops, l.blocks.Represents l.blockSet
  fresh : ∀ l ∈ loops, l.depth = 0

/-! ## What `buildLoops` leaves -/

namespace Loop

variable {n : Nat} {l l' : Loop n} {b : Nat}

theorem mem_blockSet : b ∈ l.blockSet ↔ l.isBlockIn b = true := by
  rw [blockSet, Finset.mem_filter, Finset.mem_range, and_iff_right_iff_imp]
  intro h
  by_contra hge
  rw [isBlockIn, BitSet.contains_of_ge _ (Nat.le_of_not_lt hge)] at h
  cases h

theorem represents_blockSet {s : Finset Nat} (h : l.blocks.Represents s) :
    l.blocks.Represents l.blockSet := by
  have heq : l.blockSet = s := by
    ext b
    rw [mem_blockSet, isBlockIn, h.contains_iff]
  rwa [heq]

/-- The constructor counts the blocks that it inserts. -/
theorem represents_new (h t : Nat) (newBlocks : BitSet n) :
    (Loop.new h t newBlocks).blocks.Represents (Loop.new h t newBlocks).blockSet := by
  have hfold : ∀ (xs : List Nat) (s : BitSet n) (m : Finset Nat), s.Represents m →
      (∀ i ∈ xs, i < n) → ∃ m',
      (xs.foldl (fun s i => if newBlocks.contains i then s.insert i else s) s).Represents m' := by
    intro xs
    induction xs with
    | nil => exact fun s m hs _ => ⟨m, hs⟩
    | cons i xs ih =>
      intro s m hs hlt
      obtain ⟨hi, hlt⟩ := List.forall_mem_cons.mp hlt
      rw [List.foldl_cons]
      split
      · exact ih _ _ (hs.insert hi) hlt
      · exact ih _ _ hs hlt
  obtain ⟨m, hm⟩ := hfold (List.range n) _ _ BitSet.represents_new fun i => List.mem_range.mp
  exact represents_blockSet hm

end Loop

namespace LinkedGraph

variable {g : LinkedGraph}

theorem collectLoops_forall {P : Loop g.size → Prop} (hnew : ∀ h t s, P (.new h t s))
    {es : List (Nat × Nat)} {acc loops : List (Loop g.size)} (hacc : ∀ l ∈ acc, P l)
    (h : g.collectLoops es acc = some loops) : ∀ l ∈ loops, P l := by
  induction es generalizing acc with
  | nil =>
    obtain rfl := Option.some.inj h
    exact hacc
  | cons e es ih =>
    obtain ⟨tail, head⟩ := e
    rw [collectLoops] at h
    split at h
    · split at h
      · cases h
      · split at h
        · exact ih hacc h
        · exact ih (List.forall_mem_cons.mpr ⟨hnew _ _ _, hacc⟩) h
    · exact ih hacc h

/-- The loops that `buildLoops` leaves are natural loops, with their depths not yet set. -/
theorem buildLoops_isLoops (hdom : g.DominatorsCorrect) {loops : List (Loop g.size)}
    (h : g.buildLoops = some loops) : g.IsLoops loops := by
  obtain ⟨loops', hloops, -, hfound, hbody⟩ := buildLoops_spec hdom
  obtain rfl : loops' = loops := Option.some.inj (hloops.symm.trans h)
  have hmade : ∀ l ∈ loops', l.blocks.Represents l.blockSet ∧ l.depth = 0 := by
    obtain ⟨loopList, hcollect, rfl⟩ := Option.map_eq_some_iff.mp h
    have hall := collectLoops_forall
      (P := fun l : Loop g.size => l.blocks.Represents l.blockSet ∧ l.depth = 0)
      (fun h t s => ⟨Loop.represents_new h t s, rfl⟩) (List.forall_mem_nil _) hcollect
    intro l hl
    obtain ⟨⟨l', i⟩, hmem, rfl⟩ := List.mem_map.mp hl
    exact hall l' ((List.mergeSort_perm _ _).mem_iff.mp (List.fst_mem_of_mem_zipIdx hmem))
  refine ⟨fun l hl => ?_, hbody, fun l hl => (hmade l hl).1, fun l hl => (hmade l hl).2⟩
  have he := (hfound _ _).mp (List.mem_map_of_mem hl)
  exact ⟨he.reachable, he.edge, he.dominates⟩

/-! ## The loops as a family -/

namespace IsLoops

variable {loops : List (Loop g.size)} (h : g.IsLoops loops)

include h

theorem mem_blockSet (l : Ptr loops) {b : Nat} :
    b ∈ loops[l].blockSet ↔ InNaturalLoop g.Succ loops[l].tail loops[l].head b := by
  rw [Loop.mem_blockSet]
  exact h.body _ (List.getElem_mem l.isLt) b

theorem represents (i : Ptr loops) : loops[i].blocks.Represents loops[i].blockSet :=
  h.counted _ (List.getElem_mem i.isLt)

theorem isBackEdge (i : Ptr loops) : IsBackEdge g.Succ 0 loops[i].tail loops[i].head :=
  h.edge _ (List.getElem_mem i.isLt)

omit h in
/-- The loops, as natural loops of the graph. -/
def family (h : g.IsLoops loops) : LoopFamily (Ptr loops) Nat where
  body l := loops[l].blockSet
  head l := loops[l].head
  tail l := loops[l].tail
  Live := g.Reachable
  head_mem l := (h.mem_blockSet l).mpr (.inl rfl)
  tail_mem l := (h.mem_blockSet l).mpr (.tail _ _ _)
  head_live l := (h.isBackEdge l).head_reachable
  tail_live l := (h.isBackEdge l).reachable
  sameHead i j heq htail := fun b hb => by
    rw [h.mem_blockSet] at htail hb ⊢
    rw [heq] at hb
    exact IsBackEdge.subset_of_tail_mem htail hb
  headMem i j hne hmem := by
    have ei := h.isBackEdge i
    have ej := h.isBackEdge j
    have hmem := (h.mem_blockSet j).mp hmem
    refine ⟨fun b hb => ?_, fun hsub => ei.head_not_mem ej hne hmem ?_⟩
    · exact (h.mem_blockSet j).mpr (ei.subset_of_head_mem ej hne hmem ((h.mem_blockSet i).mp hb))
    · exact (h.mem_blockSet i).mp (hsub ((h.mem_blockSet j).mpr (.inl rfl)))
  meet i j b hlive hi hj := by
    rw [h.mem_blockSet] at hi hj ⊢
    rw [h.mem_blockSet]
    exact (h.isBackEdge i).head_mem_or_head_mem hi hj hlive

theorem isInnerLoopOf_iff (i j : Ptr loops) :
    loops[i].isInnerLoopOf loops[j] = true ↔ loops[i].blockSet ⊆ loops[j].blockSet := by
  have hi := h.represents i
  have hj := h.represents j
  have hall : ((List.range g.size).all fun b =>
      !(loops[i].isBlockIn b && !loops[j].isBlockIn b)) = true ↔
      loops[i].blockSet ⊆ loops[j].blockSet := by
    rw [List.all_eq_true]
    constructor
    · intro hall b hb
      have hb' := hall b (List.mem_range.mpr (hi.lt b hb))
      rw [Loop.mem_blockSet] at hb ⊢
      rwa [hb, Bool.true_and, Bool.not_not] at hb'
    · intro hsub b _
      cases hb : loops[i].isBlockIn b with
      | false => rfl
      | true =>
        rw [Loop.mem_blockSet.mp (hsub (Loop.mem_blockSet.mpr hb))]
        rfl
  rw [Loop.isInnerLoopOf, Loop.getNumberOfBlocks, Loop.getNumberOfBlocks, hi.cardinality,
    hj.cardinality]
  split
  next hgt =>
    -- more blocks than the other
    refine iff_of_false Bool.false_ne_true fun hsub => ?_
    have hle := Finset.card_le_card hsub
    omega
  next => exact hall

theorem getNumberOfBlocks_eq (i : Ptr loops) :
    loops[i].getNumberOfBlocks = (h.family.body i).card := (h.represents i).cardinality

/-! ## The queries -/

theorem isBlockIn_iff (i : Ptr loops) (b : Nat) :
    loops[i].isBlockIn b = true ↔ b ∈ h.family.body i := Loop.mem_blockSet.symm

omit h in
/-- What is kept is the smallest of the loops that have been seen around the block. -/
structure Kept (h : g.IsLoops loops) (b : Nat) (seen : List (Ptr loops))
    (kept : Option (Ptr loops)) : Prop where
  some : ∀ m, kept = some m → b ∈ h.family.body m ∧
    ∀ i ∈ seen, b ∈ h.family.body i → (h.family.body m).card ≤ (h.family.body i).card
  none : kept = none → ∀ i ∈ seen, b ∉ h.family.body i

theorem Kept.round {b : Nat} {seen : List (Ptr loops)} {kept : Option (Ptr loops)}
    (hk : h.Kept b seen kept) (i : Ptr loops) :
    h.Kept b (i :: seen) (innermostRound loops b kept i) := by
  have hcard : ∀ j, (loops.get j).getNumberOfBlocks = (h.family.body j).card :=
    h.getNumberOfBlocks_eq
  unfold innermostRound
  rw [hcard]
  split
  next hin =>
    have hin := (h.isBlockIn_iff i b).mp hin
    cases kept with
    | none =>
      refine ⟨fun m hm => ?_, nofun⟩
      obtain rfl := Option.some.inj hm
      refine ⟨hin, List.forall_mem_cons.mpr ⟨fun _ => Nat.le_refl _, fun j hj hb => ?_⟩⟩
      exact absurd hb (hk.none rfl j hj)
    | some l =>
      obtain ⟨hl, hleast⟩ := hk.some l rfl
      dsimp only
      rw [hcard]
      split
      next hlt =>
        refine ⟨fun m hm => ?_, nofun⟩
        obtain rfl := Option.some.inj hm
        refine ⟨hin, List.forall_mem_cons.mpr ⟨fun _ => Nat.le_refl _, fun j hj hb => ?_⟩⟩
        exact Nat.le_trans (Nat.le_of_lt hlt) (hleast j hj hb)
      next hge =>
        refine ⟨fun m hm => ?_, nofun⟩
        obtain rfl := Option.some.inj hm
        exact ⟨hl, List.forall_mem_cons.mpr ⟨fun _ => Nat.le_of_not_lt hge, hleast⟩⟩
  next hout =>
    have hout : b ∉ h.family.body i := fun hb => hout ((h.isBlockIn_iff i b).mpr hb)
    refine ⟨fun m hm => ?_, fun hm => ?_⟩
    · obtain ⟨hmem, hleast⟩ := hk.some m hm
      exact ⟨hmem, List.forall_mem_cons.mpr ⟨fun hb => absurd hb hout, hleast⟩⟩
    · exact List.forall_mem_cons.mpr ⟨hout, hk.none hm⟩

theorem Kept.foldl {b : Nat} (xs : List (Ptr loops)) {seen : List (Ptr loops)}
    {kept : Option (Ptr loops)} (hk : h.Kept b seen kept) :
    h.Kept b (xs.reverse ++ seen) (xs.foldl (innermostRound loops b) kept) := by
  induction xs generalizing seen kept with
  | nil => exact hk
  | cons i xs ih =>
    rw [List.reverse_cons, List.append_assoc]
    exact ih (hk.round h i)

theorem getInnermostLoopForBlock_kept (b : Nat) :
    h.Kept b (ptrs loops).reverse (getInnermostLoopForBlock loops b) := by
  have hnone : h.Kept b [] none := ⟨nofun, nofun⟩
  have hk := Kept.foldl h (ptrs loops) hnone
  rwa [List.append_nil] at hk

omit h in
theorem mem_ptrs (i : Ptr loops) : i ∈ ptrs loops := List.mem_finRange i

theorem innermost_of_some {b : Nat} {m : Ptr loops}
    (hm : getInnermostLoopForBlock loops b = some m) : h.family.Innermost b m := by
  obtain ⟨hmem, hleast⟩ := (h.getInnermostLoopForBlock_kept b).some m hm
  exact ⟨hmem, fun j => hleast j (List.mem_reverse.mpr (mem_ptrs j))⟩

theorem not_mem_of_none {b : Nat} (hm : getInnermostLoopForBlock loops b = none) (i : Ptr loops) :
    b ∉ h.family.body i :=
  (h.getInnermostLoopForBlock_kept b).none hm i (List.mem_reverse.mpr (mem_ptrs i))

/-- The first loop with a superset of the blocks. -/
theorem getOuterLoop_isFirst (i : Ptr loops) : h.family.IsFirst i (getOuterLoop loops i) := by
  unfold getOuterLoop
  have hself : loops[i].isInnerLoopOf loops[i] = true := (h.isInnerLoopOf_iff i i).mpr subset_rfl
  cases hfind : (ptrs loops).find? fun j => loops[i].isInnerLoopOf loops[j] with
  | none => exact absurd hself (List.find?_eq_none.mp hfind i (mem_ptrs i))
  | some o =>
    obtain ⟨ho, k, hk, hat, hbefore⟩ := List.find?_eq_some_iff_getElem.mp hfind
    refine ⟨(h.isInnerLoopOf_iff i o).mp ho, fun j hj => ?_⟩
    have hko : o.val = k := by
      rw [← hat]
      simp [ptrs]
    by_contra hlt
    have hjk : j.val < k := hko ▸ Fin.lt_def.mp (lt_of_not_ge hlt)
    have hno := hbefore j.val hjk
    have hjat : ∀ _ : j.val < (ptrs loops).length, (ptrs loops)[j.val] = j := fun _ => by
      simp [ptrs]
    rw [hjat (hjk.trans hk), (h.isInnerLoopOf_iff i j).mpr hj] at hno
    cases hno

/-- The walk outwards ends after the first loop with a superset of the blocks. -/
theorem outermost_returns (i : Ptr loops) :
    Returns (outermostRound loops) i (getOuterLoop loops i) := by
  have hidem : getOuterLoop loops (getOuterLoop loops i) = getOuterLoop loops i :=
    (h.getOuterLoop_isFirst i).idem (h.getOuterLoop_isFirst _)
  refine returns_of_loop (n := 2) ?_
  have hlast : outermostRound loops (getOuterLoop loops i) = .inr (getOuterLoop loops i) := by
    rw [outermostRound, hidem]
    exact if_neg fun hne => hne rfl
  by_cases hi : i = getOuterLoop loops i
  · rw [← hi] at hlast ⊢
    exact loop_inr hlast _
  · have hfirst : outermostRound loops i = .inl (getOuterLoop loops i) := if_pos hi
    rw [loop_inl hfirst]
    exact loop_inr hlast _

/-! ## Depths -/

/-- A depth that is kept is the number of loops with a superset of the blocks. -/
def Cached (depths : Depths loops) : Prop :=
  ∀ l, depths l = 0 ∨ depths l = (h.family.supers l).card

/-- The depth of a block, by its innermost loop. -/
def depthAt (b : Nat) : Nat :=
  match getInnermostLoopForBlock loops b with
  | none => 0
  | some m => (h.family.supers m).card

theorem count_fold (l : Ptr loops) (xs : List (Ptr loops)) (depth : Nat) :
    xs.foldl (fun depth i =>
      if l ≠ i then if loops[l].isInnerLoopOf loops[i] then depth + 1 else depth else depth) depth =
    depth + (xs.filter fun i => l ≠ i ∧ h.family.body l ⊆ h.family.body i).length := by
  induction xs generalizing depth with
  | nil => rfl
  | cons i xs ih =>
    rw [List.foldl_cons, ih]
    by_cases hli : l = i
    · simp [hli]
    · by_cases hsub : h.family.body l ⊆ h.family.body i
      · rw [if_pos hli, if_pos ((h.isInnerLoopOf_iff l i).mpr hsub),
          List.filter_cons_of_pos (by simp [hli, hsub]), List.length_cons]
        omega
      · rw [if_pos hli, if_neg fun hin => hsub ((h.isInnerLoopOf_iff l i).mp hin),
          List.filter_cons_of_neg (by simp [hsub])]

/-- The loop itself and the others with a superset of its blocks. -/
theorem card_supers_eq (l : Ptr loops) : (h.family.supers l).card =
    1 + ((ptrs loops).filter fun i => l ≠ i ∧ h.family.body l ⊆ h.family.body i).length := by
  have hnodup : ((ptrs loops).filter fun i =>
      decide (l ≠ i ∧ h.family.body l ⊆ h.family.body i)).Nodup :=
    (List.nodup_finRange _).filter _
  have heq : h.family.supers l = insert l ((ptrs loops).filter fun i =>
      decide (l ≠ i ∧ h.family.body l ⊆ h.family.body i)).toFinset := by
    ext i
    rw [LoopFamily.mem_supers, Finset.mem_insert, List.mem_toFinset, List.mem_filter,
      decide_eq_true_iff]
    constructor
    · intro hsub
      by_cases hil : i = l
      · exact .inl hil
      · exact .inr ⟨mem_ptrs i, Ne.symm hil, hsub⟩
    · rintro (rfl | hi)
      · exact subset_rfl
      · exact hi.2.2
  rw [heq, Finset.card_insert_of_notMem, List.toFinset_card_of_nodup hnodup, Nat.add_comm]
  simp

theorem getDepthOfLoop_spec (l : Ptr loops) {depths : Depths loops} (hc : h.Cached depths) :
    (getDepthOfLoop loops l depths).1 = (h.family.supers l).card ∧
      h.Cached (getDepthOfLoop loops l depths).2 := by
  unfold getDepthOfLoop
  split
  next hne => exact ⟨(hc l).resolve_left hne, hc⟩
  next =>
    have hcount := (h.count_fold l (ptrs loops) 1).trans (h.card_supers_eq l).symm
    refine ⟨hcount, fun i => ?_⟩
    dsimp only
    by_cases hil : i = l
    · subst hil
      rw [Function.update_self]
      exact .inr hcount
    · rw [Function.update_of_ne hil]
      exact hc i

theorem getLoopDepth_spec (b : Nat) {depths : Depths loops} (hc : h.Cached depths) :
    (getLoopDepth loops b depths).1 = h.depthAt b ∧ h.Cached (getLoopDepth loops b depths).2 := by
  unfold getLoopDepth depthAt
  cases getInnermostLoopForBlock loops b with
  | none => exact ⟨rfl, hc⟩
  | some m => exact h.getDepthOfLoop_spec m hc

/-- The loops that the search takes. -/
def Takes (i j : Ptr loops) : Prop :=
  h.family.body i ⊆ h.family.body j ∧
    h.depthAt (h.family.head i) = h.depthAt (h.family.head j) + 1

theorem parentSearch_spec (i : Ptr loops) (xs : List (Ptr loops)) {depths : Depths loops}
    (hc : h.Cached depths) :
    (h.Takes i (parentSearch loops i xs depths).1 ∨
      (parentSearch loops i xs depths).1 = i ∧ ∀ j ∈ xs, ¬h.Takes i j) ∧
    h.Cached (parentSearch loops i xs depths).2 := by
  induction xs generalizing depths with
  | nil => exact ⟨.inr ⟨rfl, nofun⟩, hc⟩
  | cons j xs ih =>
    have hskip : ∀ {depths : Depths loops}, h.Cached depths → ¬h.Takes i j →
        (h.Takes i (parentSearch loops i xs depths).1 ∨
          (parentSearch loops i xs depths).1 = i ∧ ∀ k ∈ j :: xs, ¬h.Takes i k) ∧
        h.Cached (parentSearch loops i xs depths).2 := fun hc hnot =>
      ⟨(ih hc).1.imp_right fun hself => ⟨hself.1, List.forall_mem_cons.mpr ⟨hnot, hself.2⟩⟩,
        (ih hc).2⟩
    rw [parentSearch]
    split
    next hin =>
      have hsub := (h.isInnerLoopOf_iff i j).mp hin
      obtain ⟨hd, hc'⟩ := h.getLoopDepth_spec loops[i].head hc
      obtain ⟨hd', hc''⟩ := h.getLoopDepth_spec loops[j].head hc'
      dsimp only
      split
      next heq => exact ⟨.inl ⟨hsub, hd.symm.trans (heq.trans (congrArg (· + 1) hd'))⟩, hc''⟩
      next hne => exact hskip hc'' fun ht => hne (hd.trans (ht.2.trans (congrArg (· + 1) hd'.symm)))
    next hout => exact hskip hc fun ht => hout ((h.isInnerLoopOf_iff i j).mpr ht.1)

theorem run_cached (q : Query loops) {depths : Depths loops} (hc : h.Cached depths) :
    h.Cached (q.run loops depths) := by
  cases q with
  | depth idx => exact (h.getLoopDepth_spec idx hc).2
  | parent input => exact (h.parentSearch_spec input (ptrs loops) hc).2

theorem runs_cached (qs : List (Query loops)) {depths : Depths loops} (hc : h.Cached depths) :
    h.Cached (qs.foldl (Query.run loops) depths) := by
  induction qs generalizing depths with
  | nil => exact hc
  | cons q qs ih => exact ih (h.run_cached q hc)

end IsLoops

end LinkedGraph

/-! ## When the queries are right -/

namespace LoopNesting

variable {n : Nat} (loops : List (Loop n)) (depths : Depths loops)

/-- The loop has all blocks of the other, and more. -/
def Encloses (outer inner : Ptr loops) : Prop := loops[inner].blockSet ⊂ loops[outer].blockSet

/-- The queries answer what they are for. -/
structure NestingRight : Prop where
  /-- a loop that encloses this one, if there is one -/
  outer : ∀ l, (∃ j, Encloses loops j l) → Encloses loops (getOuterLoop loops l) l
  outer_self : ∀ l, (¬∃ j, Encloses loops j l) → getOuterLoop loops l = l
  /-- the walk outwards ends, in a loop that nothing encloses -/
  outermost : ∀ l, ∃ o, Returns (outermostRound loops) l o ∧
    loops[l].blockSet ⊆ loops[o].blockSet ∧ ∀ j, ¬Encloses loops j o
  /-- the smallest of the loops that enclose this one -/
  parent : ∀ l, (∃ j, Encloses loops j l) → Encloses loops (getParentLoop loops l depths).1 l ∧
    ∀ j, Encloses loops j l →
      loops[(getParentLoop loops l depths).1].blockSet.card ≤ loops[j].blockSet.card
  parent_self : ∀ l, (¬∃ j, Encloses loops j l) → (getParentLoop loops l depths).1 = l
  /-- the number of block sets around the block -/
  depth : ∀ b, (getLoopDepth loops b depths).1 =
    ((Finset.univ.filter fun l : Ptr loops => b ∈ loops[l].blockSet).image
      fun l : Ptr loops => loops[l].blockSet).card
  deeper : ∀ i j, Encloses loops j i → ∀ b ∈ loops[i].blockSet, ∀ c ∈ loops[j].blockSet,
    (∀ l, c ∈ loops[l].blockSet → ¬Encloses loops j l) →
    (getLoopDepth loops c depths).1 < (getLoopDepth loops b depths).1

/-- The loops on which they do. -/
structure WellNested : Prop where
  heads : ∀ i j : Ptr loops, loops[i].head = loops[j].head → i = j
  nested : ∀ (i j : Ptr loops) (b : Nat), b ∈ loops[i].blockSet → b ∈ loops[j].blockSet →
    loops[i].blockSet ⊆ loops[j].blockSet ∨ loops[j].blockSet ⊆ loops[i].blockSet
  outermostFirst : ∀ i j : Ptr loops, loops[i].blockSet ⊆ loops[j].blockSet →
    (∀ a, ¬Encloses loops a j) → j ≤ i

/-- The depths as `buildLoops` leaves them, after any queries. -/
def depthsAfter (qs : List (Query loops)) : Depths loops :=
  qs.foldl (Query.run loops) fun l => loops[l].depth

/-! ### Kept depths do not matter -/

/-- The depth of a loop as it is computed when none is kept. -/
def computedDepth (l : Ptr loops) : Nat := (getDepthOfLoop loops l fun _ => 0).1

/-- The depths that are kept are those that were computed. -/
def Fresh (depths : Depths loops) : Prop := ∀ l, depths l = 0 ∨ depths l = computedDepth loops l

/-- The depth of a block by the computed depth of its innermost loop. -/
def depthOfBlock (idx : Nat) : Nat :=
  match getInnermostLoopForBlock loops idx with
  | none => 0
  | some l => computedDepth loops l

/-- The loop that `getParentLoop` finds with whatever depths are kept. -/
def parentOf (input : Ptr loops) : Ptr loops :=
  ((ptrs loops).find? fun i => loops[input].isInnerLoopOf loops[i] &&
    depthOfBlock loops loops[input].head = depthOfBlock loops loops[i].head + 1).getD input

variable {loops depths}

theorem Fresh.getDepthOfLoop (h : Fresh loops depths) (l : Ptr loops) :
    (getDepthOfLoop loops l depths).1 = computedDepth loops l ∧
      Fresh loops (getDepthOfLoop loops l depths).2 := by
  unfold LoopNesting.getDepthOfLoop
  split
  · rename_i hkept
    exact ⟨(h l).resolve_left hkept, h⟩
  · refine ⟨rfl, fun i => ?_⟩
    dsimp only
    by_cases hi : i = l
    · subst hi
      exact .inr (Function.update_self ..)
    · rw [Function.update_of_ne hi]
      exact h i

theorem Fresh.getLoopDepth (h : Fresh loops depths) (idx : Nat) :
    (getLoopDepth loops idx depths).1 = depthOfBlock loops idx ∧
      Fresh loops (getLoopDepth loops idx depths).2 := by
  unfold LoopNesting.getLoopDepth depthOfBlock
  cases getInnermostLoopForBlock loops idx with
  | none => exact ⟨rfl, h⟩
  | some l => exact h.getDepthOfLoop l

/-- `getParentLoop` with the depths that earlier queries have left. -/
theorem Fresh.getParentLoop (h : Fresh loops depths) (input : Ptr loops) :
    (getParentLoop loops input depths).1 = parentOf loops input ∧
      Fresh loops (getParentLoop loops input depths).2 := by
  unfold LoopNesting.getParentLoop parentOf
  generalize ptrs loops = l
  induction l generalizing depths with
  | nil => exact ⟨rfl, h⟩
  | cons i l ih =>
    rw [parentSearch, List.find?_cons]
    cases loops[input].isInnerLoopOf loops[i] with
    | false => simpa using ih h
    | true =>
      obtain ⟨hdepth, h'⟩ := h.getLoopDepth (loops.get input).head
      obtain ⟨houter, h''⟩ := h'.getLoopDepth (loops.get i).head
      simp only [if_true, hdepth, houter, Bool.true_and]
      split
      · rename_i heq
        have heq' : depthOfBlock loops loops[input].head =
          depthOfBlock loops loops[i].head + 1 := heq
        rw [decide_eq_true heq']
        exact ⟨rfl, h''⟩
      · rename_i hne
        have hne' : ¬depthOfBlock loops loops[input].head =
          depthOfBlock loops loops[i].head + 1 := hne
        rw [decide_eq_false hne']
        exact ih h''

/-- A parent has a smaller depth. -/
theorem depth_parentOf {input : Ptr loops} (h : input ≠ parentOf loops input) :
    depthOfBlock loops loops[parentOf loops input].head <
      depthOfBlock loops loops[input].head := by
  obtain ⟨i, rfl, hdepth⟩ : ∃ i, parentOf loops input = i ∧
      depthOfBlock loops loops[input].head = depthOfBlock loops loops[i].head + 1 := by
    cases hfind : (ptrs loops).find? fun i => loops[input].isInnerLoopOf loops[i] &&
        depthOfBlock loops loops[input].head = depthOfBlock loops loops[i].head + 1 with
    | none => exact absurd (by rw [parentOf, hfind]; rfl) h
    | some i =>
      have hi := List.find?_some hfind
      rw [Bool.and_eq_true, decide_eq_true_eq] at hi
      exact ⟨i, by rw [parentOf, hfind]; rfl, hi.2⟩
  omega

end LoopNesting

namespace LinkedGraph

variable {g : LinkedGraph} {loops : List (Loop g.size)}

namespace IsLoops

variable (h : g.IsLoops loops) {depths : Depths loops}

include h

theorem depthsAfter_cached (qs : List (Query loops)) : h.Cached (depthsAfter loops qs) :=
  h.runs_cached qs fun l => .inl (h.fresh _ (List.getElem_mem l.isLt))

/-- Right answers are possible for well nested loops only. -/
theorem wellNested_of_right (hc : h.Cached depths) (hright : NestingRight loops depths) :
    WellNested loops := by
  have hdepth : h.family.DepthRight := by
    intro b i hi
    have hb := hright.depth b
    rw [(h.getLoopDepth_spec b hc).1, depthAt] at hb
    split at hb
    next hnone => exact absurd hi (h.not_mem_of_none hnone i)
    next m hm => exact ⟨m, h.innermost_of_some hm, hb⟩
  have hlaminar : h.family.LaminarHeads := by
    refine hdepth.laminarHeads (fun l => (getParentLoop loops l depths).1) h.depthAt (fun l => ⟨hright.parent l, hright.parent_self l⟩) fun l hl => ?_
    exact ((h.parentSearch_spec l (ptrs loops) hc).1.resolve_right fun hself => hl hself.1).2
  refine ⟨hlaminar.heads, hlaminar.nested, ?_⟩
  refine (hlaminar.outermostFirst h.getOuterLoop_isFirst).mpr fun l => ?_
  obtain ⟨o, ho, -, hout⟩ := hright.outermost l
  rw [ho.unique (h.outermost_returns l)] at hout
  exact hout

/-- On well nested loops the answers are right. -/
theorem right_of_wellNested (hc : h.Cached depths) (hwell : WellNested loops) :
    NestingRight loops depths := by
  have L : h.family.LaminarHeads := ⟨hwell.heads, hwell.nested⟩
  have hout := (L.outermostFirst h.getOuterLoop_isFirst).mp hwell.outermostFirst
  have hfirst := h.getOuterLoop_isFirst
  have hdepth : ∀ b, (getLoopDepth loops b depths).1 =
      ((h.family.around b).image h.family.body).card := by
    intro b
    rw [(h.getLoopDepth_spec b hc).1, depthAt]
    split
    next hnone =>
      have hempty : h.family.around b = ∅ := by
        refine Finset.eq_empty_of_forall_notMem fun i hi => ?_
        exact h.not_mem_of_none hnone i (LoopFamily.mem_around.mp hi)
      rw [hempty]
      rfl
    next m hm => exact L.card_supers (h.innermost_of_some hm)
  have hhead : ∀ l, h.depthAt (h.family.head l) = (h.family.supers l).card := fun l => by
    rw [← (h.getLoopDepth_spec _ hc).1, hdepth, L.card_supers (L.innermost_head l)]
  have hparent : ∀ l, h.family.IsParent l (getParentLoop loops l depths).1 := by
    intro l
    refine L.isParent ?_
    simp only [← hhead]
    exact (h.parentSearch_spec l (ptrs loops) hc).1.imp_right fun hself =>
      ⟨fun j hj heq => hself.2 j (mem_ptrs j) ⟨hj, heq⟩, hself.1⟩
  refine ⟨fun l ⟨j, hj⟩ => ?_, fun l hnone => ?_, fun l => ?_, fun l => (hparent l).outwards,
    fun l => (hparent l).outermost, hdepth, fun i j hij b hb c hc' honly => ?_⟩
  · -- the first loop with a superset is the outermost one, and this loop is not
    refine Finset.ssubset_iff_subset_ne.mpr ⟨(hfirst l).subset, fun heq => ?_⟩
    have hj : loops[l].blockSet ⊂ loops[j].blockSet := hj
    rw [heq] at hj
    exact hout l j hj
  · by_contra hne
    exact hnone ⟨_, Finset.ssubset_iff_subset_ne.mpr
      ⟨(hfirst l).subset, fun heq => hne (L.body_injective heq).symm⟩⟩
  · exact ⟨_, h.outermost_returns l, (hfirst l).subset, hout l⟩
  · rw [hdepth, hdepth, Finset.card_image_of_injective _ fun _ _ => L.body_injective,
      Finset.card_image_of_injective _ fun _ _ => L.body_injective]
    exact L.card_around_lt hij hb hc' honly

end IsLoops

/-- **Nesting queries.** After any queries, they are right exactly if the loops are well nested. -/
theorem nestingRight_iff (h : g.IsLoops loops) (qs : List (Query loops)) :
    NestingRight loops (depthsAfter loops qs) ↔ WellNested loops :=
  ⟨h.wellNested_of_right (h.depthsAfter_cached qs), h.right_of_wellNested (h.depthsAfter_cached qs)⟩

/-- `0 → 2 ⇄ 1`, and 1 jumps to itself: the head 2 of the outer loop has the higher address. -/
def outerHeadLast : LinkedGraph where
  basicBlocks := [
    { baseAddress := 0x1000, numberOfBytes := 16, targetBlocks := [2], sourceBlocks := []
      immDominator := none, endsWithCall := false },
    { baseAddress := 0x1010, numberOfBytes := 16, targetBlocks := [1, 2], sourceBlocks := [1, 2]
      immDominator := some 2, endsWithCall := false },
    { baseAddress := 0x1020, numberOfBytes := 16, targetBlocks := [1], sourceBlocks := [0, 1]
      immDominator := some 0, endsWithCall := false }]
  nonempty := by decide
  targets_lt := by decide
  targets_nodup := by decide
  sources_lt := by decide
  mirrored := by
    intro i j a b hi hj
    have hi' : i < 3 := (List.getElem?_eq_some_iff.mp hi).1
    have hj' : j < 3 := (List.getElem?_eq_some_iff.mp hj).1
    interval_cases i <;> obtain rfl := Option.some.inj hi <;>
      interval_cases j <;> obtain rfl := Option.some.inj hj <;> decide

theorem outerHeadLast_succ {a b : Nat} (h : outerHeadLast.Succ a b) :
    (a = 0 ∧ b = 2) ∨ (a = 1 ∧ b = 1) ∨ (a = 1 ∧ b = 2) ∨ (a = 2 ∧ b = 1) := by
  have ha : a < 3 := lt_size_of_mem_targets h
  have hb : b < 3 := targets_lt_size h
  revert h
  show b ∈ outerHeadLast.targets a → _
  interval_cases a <;> interval_cases b <;> decide

theorem outerHeadLast_dominators : outerHeadLast.DominatorsCorrect where
  entry := rfl
  immediate := by
    intro b hb hne
    have hedge : outerHeadLast.Succ 0 2 := List.mem_singleton_self 2
    have hedge' : outerHeadLast.Succ 2 1 := List.mem_singleton_self 1
    have hroot : ∀ c, Dominates outerHeadLast.Succ 0 0 c := fun c h => h.1 rfl
    have hlt : b < 3 := Reachable.lt_size hb
    have hb' : b = 1 ∨ b = 2 := by omega
    rcases hb' with rfl | rfl
    · refine ⟨2, rfl, by decide, fun h => ?_, fun a ha hne' => ?_⟩
      · -- nothing but block 2 follows the entry
        rcases h.head_cases with h0 | ⟨c, hc, h⟩
        · cases h0
        · rcases outerHeadLast_succ hc with ⟨-, rfl⟩ | ⟨h0, -⟩ | ⟨h0, -⟩ | ⟨h0, -⟩
          · exact h.1 rfl
          all_goals cases h0
      · by_cases ha0 : a = 0
        · subst ha0
          exact hroot 2
        · by_cases ha2 : a = 2
          · subst ha2
            exact .refl _ _ _
          · exact absurd (((PathAvoiding.refl (Ne.symm ha0)).snoc hedge (Ne.symm ha2)).snoc hedge'
              (Ne.symm hne')) ha
    · refine ⟨0, rfl, by decide, hroot 2, fun a ha hne' => ?_⟩
      by_cases ha0 : a = 0
      · subst ha0
        exact hroot 0
      · exact absurd ((PathAvoiding.refl (Ne.symm ha0)).snoc hedge (Ne.symm hne')) ha

/-- The loops `1 → 1` and `1 → 2` of it. -/
def outerHeadLastLoops : List (Loop outerHeadLast.size) :=
  [⟨0, 1, 1, (BitSet.new _).insert 1, 0⟩, ⟨1, 2, 1, ((BitSet.new _).insert 2).insert 1, 0⟩]

theorem outerHeadLast_buildLoops : outerHeadLast.buildLoops = some outerHeadLastLoops := by
  have hsearch : (SearchSets.depthFirstSearch outerHeadLast.targets true true
      (outerHeadLast.size + 1) 0
      { visitedSet := BitSet.new outerHeadLast.size
        completedSet := BitSet.new outerHeadLast.size, backEdges := [] }).backEdges =
      [(1, 2), (1, 1)] := by
    decide
  have hcollect : outerHeadLast.collectLoops [(1, 2), (1, 1)] [] =
      some [.new 1 1 ((BitSet.new _).insert 1), .new 2 1 (((BitSet.new _).insert 2).insert 1)] := by
    rfl
  rw [buildLoops, hsearch, hcollect, Option.map_some, List.mergeSort_of_pairwise]
  · rfl
  · simp [compareLoopEntry, outerHeadLast, Loop.new]

theorem nestingRight_iff_outerHeadLast : ¬NestingRight outerHeadLastLoops
    (depthsAfter outerHeadLastLoops [.parent ⟨0, by decide⟩, .depth 1]) := by
  rw [nestingRight_iff (buildLoops_isLoops outerHeadLast_dominators outerHeadLast_buildLoops)]
  intro hwell
  have hsub : outerHeadLastLoops[0].blockSet ⊆ outerHeadLastLoops[1].blockSet := by decide
  have hout : ∀ a, ¬Encloses outerHeadLastLoops a ⟨1, by decide⟩ := by
    unfold Encloses
    decide
  exact absurd (hwell.outermostFirst ⟨0, by decide⟩ ⟨1, by decide⟩ hsub hout) (by decide)

/-- The inner loop is listed first, and is taken for the loop around itself. -/
theorem not_nestingRight : ¬∀ (g : LinkedGraph) (loops : List (Loop g.size)), g.IsLoops loops →
    ∀ qs, NestingRight loops (depthsAfter loops qs) := by
  intro h
  have hloops := buildLoops_isLoops outerHeadLast_dominators outerHeadLast_buildLoops
  let inner : Ptr outerHeadLastLoops := ⟨0, by decide⟩
  have hinner : Encloses outerHeadLastLoops ⟨1, by decide⟩ inner := by
    unfold Encloses
    decide
  have houter := (h _ _ hloops []).outer inner ⟨_, hinner⟩
  have hself : getOuterLoop outerHeadLastLoops inner = inner := by decide
  rw [hself] at houter
  exact houter.2 subset_rfl

end LinkedGraph

end Pebil

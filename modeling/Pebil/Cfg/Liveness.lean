import Pebil.Lib.Loop
import Pebil.Base.RegisterSet
import Pebil.Cfg.FlowGraph
import Mathlib.Data.Finset.Prod
import Mathlib.Data.Finset.Card
import Mathlib.Data.List.Perm.Basic
import Mathlib.Data.List.Sort

/-!
# `FlowGraph::computeLiveness` (src/FlowGraph.C:522–686)

The analysis numbers the instructions block by block, tabulates for every number
the used and defined registers and the successor numbers, and repeats passes over
all instructions (last to first) until a pass changes no set.

A pass is `visitAll` over the list of numbers it visits; the code's own order is
`List.range icount` reversed, and everything below holds for any order that
visits each number once. `Table` is what the initialisation builds, `LiveSets` the
four arrays the passes work on. The 32-bit counters are natural numbers: a
function has fewer than `2 ^ 31` instructions.
-/

namespace Pebil

universe u

/-! ## The tables -/

/-- `uses`, `defs` and `succs`, for the numbers below `icount`. -/
structure Table where
  icount : Nat
  uses : Nat → RegisterSet
  defs : Nat → RegisterSet
  succs : Nat → List Nat
  succs_lt : ∀ i < icount, ∀ s ∈ succs i, s < icount

/-- `std::set<uint32_t>::insert`: ascending, without duplicates. -/
def setInsert (n : Nat) (s : List Nat) : List Nat :=
  if n ∈ s then s else s.orderedInsert (· ≤ ·) n

@[simp] theorem mem_setInsert {n m : Nat} {s : List Nat} :
    m ∈ setInsert n s ↔ m = n ∨ m ∈ s := by
  unfold setInsert
  split
  · rename_i h
    constructor
    · exact .inr
    · rintro (rfl | hm)
      · exact h
      · exact hm
  · rw [List.mem_orderedInsert]

theorem mem_foldl_setInsert {f : Nat → Nat} {m : Nat} :
    ∀ {ts s : List Nat}, m ∈ ts.foldl (fun s t => setInsert (f t) s) s ↔
      m ∈ s ∨ ∃ t ∈ ts, f t = m := by
  intro ts
  induction ts with
  | nil => simp
  | cons t ts ih =>
    intro s
    rw [List.foldl_cons, ih, mem_setInsert]
    constructor
    · rintro ((rfl | hm) | ⟨t', ht', rfl⟩)
      · exact .inr ⟨t, List.mem_cons_self, rfl⟩
      · exact .inl hm
      · exact .inr ⟨t', List.mem_cons_of_mem t ht', rfl⟩
    · rintro (hm | ⟨t', ht', rfl⟩)
      · exact .inl (.inr hm)
      · rcases List.mem_cons.mp ht' with rfl | ht'
        · exact .inl (.inl rfl)
        · exact .inr ⟨t', ht', rfl⟩

namespace FlowGraph

variable {ι : Type u}

/-- The numbers the first loop gives to the leaders (FlowGraph.C:529–537). -/
def leaderIndices : Nat → List (BasicBlock ι) → List Nat
  | _, [] => []
  | currIdx, bb :: bbs => currIdx :: leaderIndices (currIdx + bb.instructions.length) bbs

/-- The successor set of each instruction of `bb`, whose leader has number
`leader`: the leaders of the target blocks after the last instruction, else the
next instruction (FlowGraph.C:565–572). -/
def blockSuccs (leaders : List Nat) (bb : BasicBlock ι) (leader : Nat) : List (List Nat) :=
  (List.range bb.instructions.length).map fun j =>
    if j = bb.instructions.length - 1 then
      bb.targetBlocks.foldl (fun s t => setInsert (leaders.getD t 0) s) []
    else setInsert (leader + j + 1) []

/-- The successor sets of all instructions, in the order of their numbers. -/
def succLists (g : FlowGraph ι) : List (List Nat) :=
  let leaders := leaderIndices 0 g.basicBlocks
  (g.basicBlocks.zip leaders).flatMap fun (bb, leader) => blockSuccs leaders bb leader

theorem getElem?_leaderIndices :
    ∀ (bbs : List (BasicBlock ι)) {c b : Nat}, b < bbs.length →
      (leaderIndices c bbs)[b]? =
        some (c + ((bbs.take b).map (·.instructions.length)).sum) := by
  intro bbs
  induction bbs with
  | nil => intro c b h; simp at h
  | cons bb bbs ih =>
    intro c b h
    cases b with
    | zero => simp [leaderIndices]
    | succ b =>
      rw [leaderIndices, List.getElem?_cons_succ, ih (by simpa using h), List.take_succ_cons,
        List.map_cons, List.sum_cons, Nat.add_assoc]

theorem length_leaderIndices :
    ∀ (bbs : List (BasicBlock ι)) {c : Nat}, (leaderIndices c bbs).length = bbs.length := by
  intro bbs
  induction bbs with
  | nil => intro c; rfl
  | cons bb bbs ih => intro c; simp [leaderIndices, ih]

variable {g : FlowGraph ι}

theorem getElem?_leaderIndices_zero {b : Nat} (h : b < g.basicBlocks.length) :
    (leaderIndices 0 g.basicBlocks)[b]? = some (g.leaderIndex b) := by
  rw [getElem?_leaderIndices _ h, Nat.zero_add, leaderIndex]

/-- The successor set tabulated for the instruction at a place. -/
theorem succLists_index {b j : Nat} {bb : BasicBlock ι} (hbb : g.basicBlocks[b]? = some bb)
    (hj : j < bb.instructions.length) :
    g.succLists[g.index ⟨b, j⟩]? =
      (blockSuccs (leaderIndices 0 g.basicBlocks) bb (g.leaderIndex b))[j]? := by
  have hlt := (List.getElem?_eq_some_iff.mp hbb).1
  have hzip : (g.basicBlocks.zip (leaderIndices 0 g.basicBlocks))[b]? =
      some (bb, g.leaderIndex b) := by
    rw [List.getElem?_zip_eq_some]
    exact ⟨hbb, getElem?_leaderIndices_zero hlt⟩
  have hlen : ∀ p : BasicBlock ι × Nat,
      (blockSuccs (leaderIndices 0 g.basicBlocks) p.1 p.2).length = p.1.instructions.length := by
    intro p
    rw [blockSuccs, List.length_map, List.length_range]
  have hpart := getElem?_flatMap_part
    (fun p : BasicBlock ι × Nat => blockSuccs (leaderIndices 0 g.basicBlocks) p.1 p.2)
    _ (j := j) hzip (by rw [hlen]; exact hj)
  have htake : ((g.basicBlocks.zip (leaderIndices 0 g.basicBlocks)).take b).map
      (fun p => p.1.instructions.length) =
      (g.basicBlocks.take b).map (·.instructions.length) := by
    show (List.take b _).map ((fun bb : BasicBlock ι => bb.instructions.length) ∘ Prod.fst) = _
    rw [← List.map_map, List.map_take, List.map_fst_zip]
    rw [length_leaderIndices]
  simp only [hlen] at hpart
  rw [htake] at hpart
  exact hpart

/-- The tabulated successors are the control-flow successors. -/
theorem mem_succLists_index {l : Location} (h : g.Valid l) (s : Nat) :
    s ∈ (g.succLists[g.index l]?).getD [] ↔ ∃ l', g.ControlFlow l l' ∧ g.index l' = s := by
  obtain ⟨b, j⟩ := l
  obtain ⟨bb, hbb, hj⟩ := h
  replace hj : j < bb.instructions.length := hj
  have hget : (blockSuccs (leaderIndices 0 g.basicBlocks) bb (g.leaderIndex b))[j]? =
      some (if j = bb.instructions.length - 1 then
        bb.targetBlocks.foldl
          (fun s t => setInsert ((leaderIndices 0 g.basicBlocks).getD t 0) s) []
      else setInsert (g.leaderIndex b + j + 1) []) := by
    rw [blockSuccs, List.getElem?_map, List.getElem?_range hj]
    rfl
  have hleader : ∀ t ∈ bb.targetBlocks,
      (leaderIndices 0 g.basicBlocks).getD t 0 = g.index ⟨t, 0⟩ := by
    intro t ht
    have hlt := g.targets_lt bb (List.mem_of_getElem? hbb) t ht
    rw [List.getD_eq_getElem?_getD, getElem?_leaderIndices_zero hlt]
    rfl
  rw [succLists_index hbb hj, hget, Option.getD_some]
  constructor
  · intro hs
    split at hs
    · rename_i hlast
      obtain hnil | ⟨t, ht, rfl⟩ := mem_foldl_setInsert.mp hs
      · exact absurd hnil List.not_mem_nil
      · subst hlast
        exact ⟨⟨t, 0⟩, .target hbb ht, (hleader t ht).symm⟩
    · obtain rfl | hnil := mem_setInsert.mp hs
      · exact ⟨⟨b, j + 1⟩, .fallThrough hbb (by omega), rfl⟩
      · exact absurd hnil List.not_mem_nil
  · rintro ⟨l', hflow, rfl⟩
    cases hflow with
    | fallThrough hbb' hlt =>
      obtain rfl : bb = _ := Option.some.inj (hbb.symm.trans hbb')
      rw [if_neg (by omega)]
      exact mem_setInsert.mpr (.inl rfl)
    | target hbb' ht =>
      obtain rfl : bb = _ := Option.some.inj (hbb.symm.trans hbb')
      rw [if_pos rfl]
      exact mem_foldl_setInsert.mpr (.inr ⟨_, ht, hleader _ ht⟩)

/-- The initialisation of the data structures (FlowGraph.C:551–575). -/
def table (use defn : ι → RegisterSet) (g : FlowGraph ι) : Table where
  icount := g.numberOfInstructions
  uses i := (((g.basicBlocks.flatMap (·.instructions))[i]?).map use).getD RegisterSet.empty
  defs i := (((g.basicBlocks.flatMap (·.instructions))[i]?).map defn).getD RegisterSet.empty
  succs i := (g.succLists[i]?).getD []
  succs_lt i hi s hs := by
    obtain ⟨l, hl, rfl⟩ := exists_index hi
    obtain ⟨l', hflow, rfl⟩ := (mem_succLists_index hl s).mp hs
    exact index_lt hflow.valid

end FlowGraph

/-! ## The passes -/

/-- The four arrays `ins`, `outs`, `ins_prime`, `outs_prime`. -/
structure LiveSets where
  ins : Nat → RegisterSet
  outs : Nat → RegisterSet
  insPrime : Nat → RegisterSet
  outsPrime : Nat → RegisterSet

/-- All sets start empty. -/
def LiveSets.init : LiveSets where
  ins _ := RegisterSet.empty
  outs _ := RegisterSet.empty
  insPrime _ := RegisterSet.empty
  outsPrime _ := RegisterSet.empty

namespace Table

variable (T : Table)

/-- The body of the inner loop for instruction `i` (FlowGraph.C:599–644). `outs`
is not cleared first: the union is added to what it holds. -/
def visit (st : LiveSets) (i : Nat) : LiveSets :=
  let outs := (T.succs i).foldl (fun o s => RegisterSet.union o (st.ins s)) (st.outs i)
  { ins := Function.update st.ins i
      (RegisterSet.union (T.uses i) (RegisterSet.diff outs (T.defs i)))
    outs := Function.update st.outs i outs
    insPrime := Function.update st.insPrime i (st.ins i)
    outsPrime := Function.update st.outsPrime i (st.outs i) }

/-- One pass, over the numbers in `order`. -/
def visitAll (order : List Nat) (st : LiveSets) : LiveSets :=
  order.foldl T.visit st

/-- The check after a pass (FlowGraph.C:647–659). -/
def setsSame (st : LiveSets) : Bool :=
  (List.range T.icount).all fun i =>
    RegisterSet.eq (st.ins i) (st.insPrime i) && RegisterSet.eq (st.outs i) (st.outsPrime i)

/-- One round of the `while (!setsSame)` loop. -/
def round (order : List Nat) (st : LiveSets) : LiveSets ⊕ LiveSets :=
  let st' := T.visitAll order st
  if T.setsSame st' then .inr st' else .inl st'

end Table

/-- `FlowGraph::computeLiveness`: the sets handed to `setLiveIns` and
`setLiveOuts`. A pass goes from the last instruction to the first. -/
def FlowGraph.computeLiveness {ι : Type u} (use defn : ι → RegisterSet) (g : FlowGraph ι)
    (fuel : Nat) : Option LiveSets :=
  loop ((g.table use defn).round (List.range g.numberOfInstructions).reverse) fuel LiveSets.init

end Pebil

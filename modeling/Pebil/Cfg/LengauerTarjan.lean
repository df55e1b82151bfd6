import Pebil.Cfg.GenerateCFG
import Pebil.Lib.Loop

/-!
# Immediate dominators (src/LengauerTarjan.C, src/FlowGraph.C:1046–1063)

`LengauerTarjan` gives the blocks places: the reachable ones are placed from 1 on, the others from
the last place down. A depth-first search numbers the places it finds. `immediateDominators` then
takes them from the last number to the second, finds the semidominator of each from what `eval`
says about its sources, and links it to its parent.

The arrays hold places and numbers, 0 for none. What they hold before they are written is an
argument (`heap`); only `semi` and `vertex` are cleared. A failed assertion, and a read through a
null pointer, gives `none`, and so does a search or a loop that has no end within `fuel` calls or
rounds.
-/

namespace Pebil

open Function (update)

/-- The tables that the constructor of `LengauerTarjan` sets up. -/
structure LengauerTarjan where
  reachableCount : Nat
  nodeCount : Nat
  rootLoc : Nat
  locToBasicBlock : Nat → Option Nat
  basicBlockToLoc : Nat → Nat

/-- The arrays that `LengauerTarjan` works on. -/
structure DominatorArrays where
  dom : Nat → Nat
  parent : Nat → Nat
  ancestor : Nat → Nat
  child : Nat → Nat
  vertex : Nat → Nat
  label : Nat → Nat
  semi : Nat → Nat
  size : Nat → Nat
  bucket : Nat → List Nat

/-! ## The forest -/

namespace DominatorArrays

/-- `COMPRESS`. -/
def compress : Nat → Nat → DominatorArrays → Option DominatorArrays
  | 0, _, _ => none
  | fuel + 1, vertexV, s =>
    if s.ancestor (s.ancestor vertexV) ≠ 0 then
      (compress fuel (s.ancestor vertexV) s).map fun s =>
        let label := if s.semi (s.label (s.ancestor vertexV)) < s.semi (s.label vertexV) then
          update s.label vertexV (s.label (s.ancestor vertexV)) else s.label
        { s with label, ancestor := update s.ancestor vertexV (s.ancestor (s.ancestor vertexV)) }
    else some s

/-- `EVAL`: the vertex found, and the arrays after compression. -/
def eval (fuel vertexV : Nat) (s : DominatorArrays) : Option (Nat × DominatorArrays) :=
  if s.ancestor vertexV = 0 then some (s.label vertexV, s)
  else (s.compress fuel vertexV).map fun s =>
    if s.semi (s.label (s.ancestor vertexV)) ≥ s.semi (s.label vertexV) then (s.label vertexV, s)
    else (s.label (s.ancestor vertexV), s)

/-- A round of the first loop of `LINK`: the arrays and `vertexS`. -/
def mergeRound (vertexW : Nat) (p : DominatorArrays × Nat) :
    (DominatorArrays × Nat) ⊕ (DominatorArrays × Nat) :=
  let s := p.1
  let vertexS := p.2
  if s.semi (s.label vertexW) < s.semi (s.label (s.child vertexS)) then
    if s.size vertexS + s.size (s.child (s.child vertexS)) ≥ 2 * s.size (s.child vertexS) then
      .inl ({ s with
        ancestor := update s.ancestor (s.child vertexS) vertexS
        child := update s.child vertexS (s.child (s.child vertexS)) }, vertexS)
    else
      .inl ({ s with
        size := update s.size (s.child vertexS) (s.size vertexS)
        ancestor := update s.ancestor vertexS (s.child vertexS) }, s.child vertexS)
  else .inr (s, vertexS)

/-- A round of the last loop of `LINK`. -/
def adoptRound (vertexV : Nat) (p : DominatorArrays × Nat) :
    (DominatorArrays × Nat) ⊕ DominatorArrays :=
  let s := p.1
  let vertexS := p.2
  if vertexS ≠ 0 then
    .inl ({ s with ancestor := update s.ancestor vertexS vertexV }, s.child vertexS)
  else .inr s

/-- What `LINK` does between its loops. -/
def setSizes (vertexV vertexW : Nat) (p : DominatorArrays × Nat) : DominatorArrays × Nat :=
  let s := p.1
  let vertexS := p.2
  let s := { s with
    label := update s.label vertexS (s.label vertexW)
    size := update s.size vertexV (s.size vertexV + s.size vertexW) }
  if s.size vertexV < 2 * s.size vertexW then
    ({ s with child := update s.child vertexV vertexS }, s.child vertexV)
  else (s, vertexS)

/-- `LINK`. -/
def link (fuel vertexV vertexW : Nat) (s : DominatorArrays) : Option DominatorArrays :=
  (loop (mergeRound vertexW) fuel (s, vertexW)).bind fun p =>
    loop (adoptRound vertexV) fuel (setSizes vertexV vertexW p)

end DominatorArrays

namespace LengauerTarjan

/-! ## The constructor -/

/-- A round of the constructor's loop over the blocks: the tables and `lastUnreachIdx`. -/
def place (isUnreachable : Nat → Bool) (p : LengauerTarjan × Nat) (i : Nat) :
    LengauerTarjan × Nat :=
  let t := p.1
  let lastUnreachIdx := p.2
  if isUnreachable i then
    ({ t with
      locToBasicBlock := update t.locToBasicBlock lastUnreachIdx (some i)
      basicBlockToLoc := update t.basicBlockToLoc i lastUnreachIdx }, lastUnreachIdx - 1)
  else
    ({ t with
      reachableCount := t.reachableCount + 1
      locToBasicBlock := update t.locToBasicBlock (t.reachableCount + 1) (some i)
      basicBlockToLoc := update t.basicBlockToLoc i (t.reachableCount + 1) }, lastUnreachIdx)

/-- The tables; none when the reachable and the other blocks do not meet. -/
def new (blockCount root : Nat) (isUnreachable : Nat → Bool) (heap : LengauerTarjan) :
    Option LengauerTarjan :=
  let start := { heap with
    reachableCount := 0
    nodeCount := blockCount
    locToBasicBlock := update heap.locToBasicBlock 0 none
    basicBlockToLoc := update heap.basicBlockToLoc blockCount 0 }
  let p := (List.range blockCount).foldl (place isUnreachable) (start, blockCount)
  if p.2 = p.1.reachableCount then some { p.1 with rootLoc := p.1.basicBlockToLoc root } else none

/-- The arrays: `semi` and `vertex` are cleared, and the lists are empty. -/
def newArrays (heap : DominatorArrays) : DominatorArrays :=
  { heap with semi := fun _ => 0, vertex := fun _ => 0, bucket := fun _ => [] }

variable (t : LengauerTarjan) (g : CodeGraph)

/-! ## The search -/

/-- `depthFirstSearch`: the arrays and `dfsNo`. -/
def depthFirstSearch : Nat → Nat → DominatorArrays × Nat → Option (DominatorArrays × Nat)
  | 0, _, _ => none
  | fuel + 1, vertexV, p =>
    let dfsNo := p.2 + 1
    let s := { p.1 with
      semi := update p.1.semi vertexV dfsNo
      vertex := update p.1.vertex dfsNo vertexV
      label := update p.1.label vertexV vertexV
      ancestor := update p.1.ancestor vertexV 0
      child := update p.1.child vertexV 0
      size := update p.1.size vertexV 1 }
    (t.locToBasicBlock vertexV).bind fun bb =>
      ((g.links.targetBlocks bb).foldlM (fun p target =>
        let vertexW := t.basicBlockToLoc target
        if p.1.semi vertexW = 0 then
          depthFirstSearch fuel vertexW
            ({ p.1 with parent := update p.1.parent vertexW vertexV }, p.2)
        else some p) (s, dfsNo)).bind fun p =>
          if g.noPath bb then none else some p

/-! ## The dominators -/

/-- The number of rounds and calls that every loop and search may take. -/
def fuel : Nat := t.nodeCount + 1

/-- The loop over the sources of `vertexW`, one source. -/
def scanSource (vertexW : Nat) (s : DominatorArrays) (source : Nat) : Option DominatorArrays :=
  if g.noPath source then some s
  else (s.eval t.fuel (t.basicBlockToLoc source)).map fun p =>
    let s := p.2
    if s.semi p.1 < s.semi vertexW then
      { s with semi := update s.semi vertexW (s.semi p.1) }
    else s

/-- One round of the loop that empties a bucket: `vertexV` is taken out of the bucket of `p`. -/
def takeOut (p : Nat) (s : DominatorArrays) (vertexV : Nat) : Option DominatorArrays :=
  let s := { s with bucket := update s.bucket p (s.bucket p).tail }
  (s.eval t.fuel vertexV).map fun r =>
    let s := r.2
    { s with dom := update s.dom vertexV (if s.semi r.1 < s.semi vertexV then r.1 else p) }

/-- A round of the main loop, for number `i`. -/
def processVertex (s : DominatorArrays) (i : Nat) : Option DominatorArrays :=
  let vertexW := s.vertex i
  (t.locToBasicBlock vertexW).bind fun bb =>
    ((g.links.sourceBlocks bb).foldlM (t.scanSource g vertexW) s).bind fun s =>
      let v := s.vertex (s.semi vertexW)
      let s := { s with bucket := update s.bucket v (vertexW :: s.bucket v) }
      (s.link t.fuel (s.parent vertexW) vertexW).bind fun s =>
        let p := s.parent vertexW
        (s.bucket p).foldlM (t.takeOut p) s

/-- A round of the loop over the numbers in ascending order. -/
def setDom (s : DominatorArrays) (i : Nat) : DominatorArrays :=
  let vertexW := s.vertex i
  if s.dom vertexW ≠ s.vertex (s.semi vertexW) then
    { s with dom := update s.dom vertexW (s.dom (s.dom vertexW)) }
  else s

/-- `setImmDominator` for the block of number `i`, unless its dominator is null. -/
def setReachable (s : DominatorArrays) (immDominator : Nat → Option Nat) (i : Nat) :
    Option (Nat → Option Nat) :=
  (t.locToBasicBlock (s.vertex i)).bind fun bb =>
    if g.noPath bb then none
    else some (match t.locToBasicBlock (s.dom (s.vertex i)) with
      | some immDom => update immDominator bb (some immDom)
      | none => immDominator)

/-- `setImmDominator` for an unreachable block. -/
def setUnreachable (immDominator : Nat → Option Nat) (i : Nat) : Option (Nat → Option Nat) :=
  (t.locToBasicBlock i).bind fun bb =>
    if g.noPath bb then some (update immDominator bb (t.locToBasicBlock t.rootLoc)) else none

/-- The loops of `immediateDominators` before it tells the blocks. -/
def findDominators (s : DominatorArrays) : Option DominatorArrays :=
  (t.depthFirstSearch g t.fuel t.rootLoc (s, 0)).bind fun p =>
    let s := { p.1 with
      size := update p.1.size 0 0, label := update p.1.label 0 0, semi := update p.1.semi 0 0 }
    ((List.range' 2 (t.reachableCount - 1)).reverse.foldlM (t.processVertex g) s).map fun s =>
      let s := (List.range' 2 (t.reachableCount - 1)).foldl setDom s
      { s with dom := update s.dom t.rootLoc 0 }

/-- `immediateDominators`: what `getImmDominator` gives for every block then. -/
def immediateDominators (s : DominatorArrays) (immDominator : Nat → Option Nat) :
    Option (Nat → Option Nat) :=
  (t.findDominators g s).bind fun s =>
    ((List.range' 1 t.reachableCount).foldlM (t.setReachable g s) immDominator).bind fun imm =>
      (List.range' (t.reachableCount + 1) (t.nodeCount - t.reachableCount)).reverse.foldlM
        (t.setUnreachable g) imm

end LengauerTarjan

/-- `FlowGraph::setImmDominatorBlocks` with no root given; the first block is to be the entry. New
blocks have no immediate dominator. -/
def CodeGraph.setImmDominatorBlocks (g : CodeGraph) (tables : LengauerTarjan)
    (arrays : DominatorArrays) : Option (Nat → Option Nat) :=
  if g.basicBlocks = [] ∨ g.entry ≠ 0 then none
  else (LengauerTarjan.new g.basicBlocks.length 0 g.noPath tables).bind fun t =>
    t.immediateDominators g (LengauerTarjan.newArrays arrays) fun _ => none

end Pebil

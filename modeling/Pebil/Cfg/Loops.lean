import Pebil.Cfg.DepthFirst
import Pebil.Lib.Loop

/-!
# Finding loops (src/FlowGraph.C:857–953, src/Loop.C:50–99, src/BasicBlock.C:901–910)

`FlowGraph::buildLoops` searches for back edges from block 0, keeps those whose head
dominates their tail, and grows the body of each backwards over the source lists with
a stack. It relies on what `connectGraph` and the dominator pass have left in the
blocks, which is all a `LinkedBlock` has.

`qsort` leaves the order of loops that compare equal open; the stable sort is one it
may leave. The function returns no value where there are back edges, and none is
modelled.
-/

namespace Pebil

/-- A basic block, as far as loops are concerned. -/
structure LinkedBlock where
  baseAddress : Nat
  numberOfBytes : Nat
  targetBlocks : List Nat
  sourceBlocks : List Nat
  immDominator : Option Nat
  endsWithCall : Bool
  deriving Repr

/-- A connected flow graph: targets and sources mirror each other, and no edge is
listed twice. Block 0 is the entry. -/
structure LinkedGraph where
  basicBlocks : List LinkedBlock
  nonempty : basicBlocks ≠ []
  targets_lt : ∀ b ∈ basicBlocks, ∀ t ∈ b.targetBlocks, t < basicBlocks.length
  targets_nodup : ∀ b ∈ basicBlocks, b.targetBlocks.Nodup
  sources_lt : ∀ b ∈ basicBlocks, ∀ t ∈ b.sourceBlocks, t < basicBlocks.length
  mirrored : ∀ (i j : Nat) (a b : LinkedBlock), basicBlocks[i]? = some a → basicBlocks[j]? = some b →
    (i ∈ b.sourceBlocks ↔ j ∈ a.targetBlocks)

/-- `Loop`. -/
structure Loop (n : Nat) where
  index : Nat
  head : Nat
  tail : Nat
  blocks : BitSet n
  depth : Nat

/-- `Invalid_UInteger_ID`. -/
def invalidUIntegerId : Nat := 0xffffffff

/-- The constructor of `Loop`: the members of `newBlocks` are inserted one by one. -/
def Loop.new {n : Nat} (h t : Nat) (newBlocks : BitSet n) : Loop n where
  index := invalidUIntegerId
  head := h
  tail := t
  blocks := (List.range n).foldl (fun s i => if newBlocks.contains i then s.insert i else s)
    (BitSet.new n)
  depth := 0

namespace LinkedGraph

variable (g : LinkedGraph)

/-- `getNumberOfBasicBlocks`. -/
def size : Nat := g.basicBlocks.length

/-- The target list of a block. -/
def targets (b : Nat) : List Nat := ((g.basicBlocks[b]?).map (·.targetBlocks)).getD []

/-- The source list of a block. -/
def sources (b : Nat) : List Nat := ((g.basicBlocks[b]?).map (·.sourceBlocks)).getD []

/-- `getImmDominator`. -/
def immDominator (b : Nat) : Option Nat := (g.basicBlocks[b]?).bind (·.immDominator)

/-- `endsWithCall`. -/
def endsWithCall (b : Nat) : Bool := ((g.basicBlocks[b]?).map (·.endsWithCall)).getD false

/-- The walk of `BasicBlock::isDominatedBy` up the immediate dominators. -/
def dominatorWalk (bb : Nat) : Nat → Nat → Bool
  | 0, _ => false
  | fuel + 1, dom =>
    if dom = bb then true
    else match g.immDominator dom with
      | none => false
      | some d => dominatorWalk bb fuel d

/-- `BasicBlock::isDominatedBy`. -/
def isDominatedBy (b bb : Nat) : Bool := g.dominatorWalk bb (g.size + 1) b

/-- Put a block into the body and on the stack, unless it is in the body. -/
def pushNew (s : List Nat × BitSet g.size) (pred : Nat) : List Nat × BitSet g.size :=
  if s.2.contains pred then s else (pred :: s.1, s.2.insert pred)

/-- One round of the loop that grows a body: pop a block, push its new sources. -/
def growRound (s : List Nat × BitSet g.size) : (List Nat × BitSet g.size) ⊕ BitSet g.size :=
  match s.1 with
  | [] => .inr s.2
  | top :: stack => .inl ((g.sources top).foldl g.pushNew (stack, s.2))

/-- The body of the loop of the back edge `tail → head`. -/
def growBody (tail head : Nat) : Option (BitSet g.size) :=
  loop g.growRound (g.size + 2) (g.pushNew ([], (BitSet.new g.size).insert head) tail)

/-- The loop over the back edges; a loop whose tail ends with a call is excluded. -/
def collectLoops : List (Nat × Nat) → List (Loop g.size) → Option (List (Loop g.size))
  | [], loopList => some loopList
  | (tail, head) :: backEdges, loopList =>
    if g.isDominatedBy tail head then
      match g.growBody tail head with
      | none => none
      | some inLoop =>
        if g.endsWithCall tail then collectLoops backEdges loopList
        else collectLoops backEdges (.new head tail inLoop :: loopList)
    else collectLoops backEdges loopList

/-- `compareLoopEntry(a, b) <= 0`. -/
def compareLoopEntry (a b : Loop g.size) : Bool :=
  let key (i : Nat) : Nat × Nat :=
    ((g.basicBlocks[i]?).map fun b => (b.baseAddress, b.numberOfBytes)).getD (0, 0)
  let (addrA, bytesA) := key a.head
  let (addrB, bytesB) := key b.head
  addrA < addrB || (addrA = addrB && bytesA ≤ bytesB)

/-- `FlowGraph::buildLoops`: the loops, sorted and numbered. -/
def buildLoops : Option (List (Loop g.size)) :=
  let s := SearchSets.depthFirstSearch g.targets true true (g.size + 1) 0
    { visitedSet := BitSet.new g.size, completedSet := BitSet.new g.size, backEdges := [] }
  (g.collectLoops s.backEdges []).map fun loopList =>
    (loopList.mergeSort g.compareLoopEntry).zipIdx.map fun p => { p.1 with index := p.2 }

end LinkedGraph

end Pebil

import Pebil.Cfg.Loops

/-!
# Queries about the nesting of loops (src/FlowGraph.C:448–520, src/Loop.C:115–126)

A loop is named by its place in the vector of loops, which is the index that `buildLoops` gives it.
The vector does not change; what does are the depths that `getLoopDepth` keeps in the loops, which
are 0 until they are asked for (`Depths`).
-/

namespace Pebil

namespace Loop

variable {n : Nat}

/-- `getNumberOfBlocks`. -/
def getNumberOfBlocks (l : Loop n) : Nat := l.blocks.cardinality

/-- `isBlockIn`. -/
def isBlockIn (l : Loop n) (idx : Nat) : Bool := l.blocks.contains idx

/-- `isInnerLoopOf`. A loop is one of itself, and of those with the same blocks. -/
def isInnerLoopOf (l loop : Loop n) : Bool :=
  if l.getNumberOfBlocks > loop.getNumberOfBlocks then false
  else (List.range n).all fun i => !(l.isBlockIn i && !loop.isBlockIn i)

end Loop

namespace LoopNesting

variable {n : Nat} (loops : List (Loop n))

/-- A pointer to one of the loops. -/
abbrev Ptr := Fin loops.length

/-- The depths that are kept in the loops. -/
abbrev Depths := Ptr loops → Nat

/-- The loops, in order. -/
def ptrs : List (Ptr loops) := List.finRange loops.length

/-- One round of `getInnermostLoopForBlock`. -/
def innermostRound (idx : Nat) (loop : Option (Ptr loops)) (i : Ptr loops) : Option (Ptr loops) :=
  if (loops.get i).isBlockIn idx then
    match loop with
    | some l => if (loops.get i).getNumberOfBlocks < (loops.get l).getNumberOfBlocks then some i else some l
    | none => some i
  else loop

/-- `getInnermostLoopForBlock`: the first with the fewest blocks. -/
def getInnermostLoopForBlock (idx : Nat) : Option (Ptr loops) :=
  (ptrs loops).foldl (innermostRound loops idx) none

/-- `getOuterLoop`. -/
def getOuterLoop (input : Ptr loops) : Ptr loops :=
  ((ptrs loops).find? fun i => (loops.get input).isInnerLoopOf (loops.get i)).getD input

/-- One round of `getOuterMostLoopForLoop`. -/
def outermostRound (input : Ptr loops) : Ptr loops ⊕ Ptr loops :=
  if input ≠ getOuterLoop loops input then .inl (getOuterLoop loops input) else .inr input

/-- `getLoopDepth` of a loop. -/
def getDepthOfLoop (loop : Ptr loops) (depths : Depths loops) : Nat × Depths loops :=
  if depths loop ≠ 0 then (depths loop, depths)
  else
    let depth := (ptrs loops).foldl
      (fun depth i =>
        if loop ≠ i then if (loops.get loop).isInnerLoopOf (loops.get i) then depth + 1 else depth
        else depth)
      1
    (depth, Function.update depths loop depth)

/-- `getLoopDepth` of a block. -/
def getLoopDepth (idx : Nat) (depths : Depths loops) : Nat × Depths loops :=
  match getInnermostLoopForBlock loops idx with
  | none => (0, depths)
  | some loop => getDepthOfLoop loops loop depths

/-- The search of `getParentLoop`, over the loops from a place on. -/
def parentSearch (input : Ptr loops) : List (Ptr loops) → Depths loops → Ptr loops × Depths loops
  | [], depths => (input, depths)
  | i :: rest, depths =>
    if (loops.get input).isInnerLoopOf (loops.get i) then
      let (depth, depths) := getLoopDepth loops (loops.get input).head depths
      let (outerDepth, depths) := getLoopDepth loops (loops.get i).head depths
      if depth = outerDepth + 1 then (i, depths) else parentSearch input rest depths
    else parentSearch input rest depths

/-- `getParentLoop`. -/
def getParentLoop (input : Ptr loops) (depths : Depths loops) : Ptr loops × Depths loops :=
  parentSearch loops input (ptrs loops) depths

/-- A query that may set depths. -/
inductive Query (loops : List (Loop n)) where
  | depth (idx : Nat)
  | parent (input : Ptr loops)

/-- What a query leaves in the loops. -/
def Query.run (depths : Depths loops) : Query loops → Depths loops
  | depth idx => (getLoopDepth loops idx depths).2
  | parent input => (getParentLoop loops input depths).2

end LoopNesting

end Pebil

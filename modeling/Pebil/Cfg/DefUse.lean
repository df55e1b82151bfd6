import Pebil.Isa.ReachingDefinition
import Pebil.Cfg.FlowGraph
import Pebil.Lib.BinaryHeap
import Pebil.Lib.Loop

/-!
# Def-use distances (src/FlowGraph.C:46–384)

For an instruction that defines something, `singleDefUse` searches for the nearest use. A path is
an instruction and the definitions that are alive there, in a priority queue under its distance.
In a loop the paths that leave it are not followed, and the ones that reach its leader count the
size of the function more. A block is entered once, whatever is alive on the path to it.

`searchStep` is one turn of the search. Freeing the lists of definitions is left out, and the
`uint32_t` distances are natural numbers.
-/

namespace Pebil

/-- What the computation reads of an instruction. -/
structure FlowInstruction extends X86Instruction where
  isLeader : Bool
  getDefs : List DefLocation
  getUses : List DefLocation

namespace FlowInstruction

variable (x : FlowInstruction)

def isIntegerOperation : Bool := x.itype == .int

def isFloatPOperation : Bool := x.itype == .float || x.itype == .simd || x.itype == .avx

/-- The instructions that are not skipped. -/
def defines : Bool := x.isIntegerOperation || x.isFloatPOperation || x.isMoveOperation

/-- The address is one of the instruction's bytes. -/
def covers (addr : BitVec 64) : Bool := x.baseAddress ≤ addr && addr < x.endAddress

end FlowInstruction

/-- `Loop`: what `getHead` and `isBlockIn` return. -/
structure DefUseLoop where
  head : Nat
  isBlockIn : Nat → Bool

/-- A flow graph as `connectGraph` leaves it. Its blocks are runs of instructions that follow each
other; a branch ends a block, and leads to the leader of one if it stays in the graph. A block
that ends with an instruction that is not skipped has the block behind it for its target, if there
is one. No two instructions have a byte in common, as the computation asserts, and none is at
address 0, which stands for no loop. -/
structure DefUseGraph extends FlowGraph FlowInstruction where
  loops : List DefUseLoop
  sized : ∀ l x, toFlowGraph.instruction? l = some x → 0 < x.sizeInBytes.toNat
  bounded : ∀ l x, toFlowGraph.instruction? l = some x →
    x.baseAddress.toNat + x.sizeInBytes.toNat < 2 ^ 64
  positive : ∀ l x, toFlowGraph.instruction? l = some x → x.baseAddress ≠ 0
  disjoint : ∀ l l' x x' addr, toFlowGraph.instruction? l = some x →
    toFlowGraph.instruction? l' = some x' → x.covers addr = true → x'.covers addr = true → l = l'
  contiguous : ∀ b j x y, toFlowGraph.instruction? ⟨b, j⟩ = some x →
    toFlowGraph.instruction? ⟨b, j + 1⟩ = some y → y.baseAddress = x.endAddress
  leader : ∀ l x, toFlowGraph.instruction? l = some x → (x.isLeader = true ↔ l.pos = 0)
  branches : ∀ b j x, toFlowGraph.instruction? ⟨b, j⟩ = some x →
    (toFlowGraph.instruction? ⟨b, j + 1⟩).isSome → x.isBranch = false
  branchTargets : ∀ l l' x y, toFlowGraph.instruction? l = some x →
    toFlowGraph.instruction? l' = some y → x.isBranch = true → y.covers x.targetAddress = true →
    l'.pos = 0 ∧ y.baseAddress = x.targetAddress
  onward : ∀ b bb x, toFlowGraph.basicBlocks[b]? = some bb →
    toFlowGraph.instruction? ⟨b, bb.instructions.length - 1⟩ = some x → x.defines = true →
    ∀ t, t ∈ bb.targetBlocks ↔
      ∃ y, toFlowGraph.instruction? ⟨t, 0⟩ = some y ∧ y.baseAddress = x.endAddress
  heads : ∀ lp ∈ loops, (toFlowGraph.instruction? ⟨lp.head, 0⟩).isSome

/-- `flowsInDefUseScope`: "outside loops, scope includes the entire function". -/
def flowsInDefUseScope (tgt : Nat) (lp : Option DefUseLoop) : Bool :=
  match lp with
  | none => true
  | some lp => lp.isBlockIn tgt

/-- `loopXDefUseDist`. -/
def loopXDefUseDist (currDist funcSize : Nat) : Nat := currDist + funcSize

/-- `trueDefUseDist`. -/
def trueDefUseDist (currDist funcSize : Nat) : Nat :=
  if currDist > funcSize then currDist - funcSize else currDist

/-- `anyDefsAreUsed`. -/
def anyDefsAreUsed (defList useList : List DefLocation) : Bool :=
  defList.any fun d => useList.any fun use => use.invalidatedBy d

/-- `removeInvalidated`; what stays is inserted in front of the new list. -/
def removeInvalidated (list1 list2 : List DefLocation) : Option (List DefLocation) :=
  let retval := (list1.filter fun def1 => !list2.any def1.invalidatedBy).reverse
  if retval.isEmpty then none
  else if retval.length = list1.length then some list1
  else some retval

/-- `struct path`. -/
structure DefUsePath where
  ins : Location
  defs : List DefLocation

/-- The variables of the search, and the two fields of the instruction that it sets. -/
structure DefUseSearch where
  paths : List (DefUsePath × Nat)
  blockTouched : List Nat
  defUseDist : Nat
  defXIter : Bool

namespace DefUseSearch

/-- `paths.insert`. -/
def insert (st : DefUseSearch) (p : DefUsePath) (dist : Nat) : DefUseSearch :=
  { st with paths := BinaryHeap.insert Prod.snd (p, dist) st.paths }

/-- What the turns leave. -/
def finish (st : DefUseSearch) : Nat × Bool :=
  (if st.paths.isEmpty then st.defUseDist else 0, st.defXIter)

end DefUseSearch

namespace DefUseGraph

variable (g : DefUseGraph)

/-- The places of a block's instructions. -/
def places (b : Nat) : List Location :=
  (List.range ((g.basicBlocks[b]?).elim 0 (·.instructions.length))).map (Location.mk b)

/-- The places of all instructions. -/
def allPlaces : List Location := (List.range g.basicBlocks.length).flatMap g.places

/-- The instruction that an address maps to; its block is the one that the address maps to. -/
def instructionAt (addr : BitVec 64) : Option Location :=
  g.allPlaces.find? fun l => (g.instruction? l).any (·.covers addr)

/-- `getBaseAddress` of a block. -/
def blockAddress (b : Nat) : BitVec 64 := ((g.instruction? ⟨b, 0⟩).map (·.baseAddress)).getD 0

/-- The address of the loop's head, 0 outside loops. -/
def loopLeader (lp : Option DefUseLoop) : BitVec 64 :=
  match lp with
  | none => 0
  | some lp => g.blockAddress lp.head

/-- Go on at the leader of a block, unless the block was touched. -/
def enterBlock (lp : Option DefUseLoop) (newdefs : List DefLocation) (currDist : Nat) (tgt : Nat)
    (st : DefUseSearch) : DefUseSearch :=
  if st.blockTouched.contains tgt then st
  else
    { st with blockTouched := tgt :: st.blockTouched }.insert ⟨⟨tgt, 0⟩, newdefs⟩
      (if g.blockAddress tgt = g.loopLeader lp then
        loopXDefUseDist (currDist + 1) g.numberOfInstructions
      else currDist + 1)

/-- "end of block that is a branch". -/
def followBranch (lp : Option DefUseLoop) (cand : FlowInstruction) (newdefs : List DefLocation)
    (currDist : Nat) (st : DefUseSearch) : DefUseSearch :=
  if cand.usesControlTarget && !cand.isCall then
    match g.instructionAt cand.targetAddress with
    | none => st
    | some l =>
      if flowsInDefUseScope l.block lp then g.enterBlock lp newdefs currDist l.block st else st
  else st

/-- "non-branching control". -/
def followFallThrough (lp : Option DefUseLoop) (cand : FlowInstruction)
    (newdefs : List DefLocation) (currDist : Nat) (st : DefUseSearch) : DefUseSearch :=
  if cand.controlFallsThrough then
    match g.instructionAt cand.endAddress with
    | none => st
    | some l =>
      if flowsInDefUseScope l.block lp then
        if (g.instruction? l).any FlowInstruction.isLeader then g.enterBlock lp newdefs currDist l.block st
        else st.insert ⟨l, newdefs⟩ (currDist + 1)
      else st
  else st

/-- A use was found: keep the distance if it is shorter. -/
def useFound (currDist : Nat) (st : DefUseSearch) : DefUseSearch :=
  let duDist := trueDefUseDist currDist g.numberOfInstructions
  if st.defUseDist = 0 ∨ st.defUseDist > duDist then { st with defUseDist := duDist } else st

/-- One turn of the search. -/
def searchStep (lp : Option DefUseLoop) (st : DefUseSearch) : DefUseSearch ⊕ (Nat × Bool) :=
  match BinaryHeap.deleteMin Prod.snd st.paths with
  | none => .inr st.finish
  | some ((p, currDist), paths) =>
    let st := { st with paths := paths }
    match g.instruction? p.ins with
    | none => .inl st
    | some cand =>
      if anyDefsAreUsed p.defs cand.getUses then
        let st := g.useFound currDist st
        if currDist > g.numberOfInstructions then .inr { st with defXIter := true }.finish
        else .inl st
      else
        match removeInvalidated p.defs cand.getDefs with
        | none => .inl st
        | some newdefs =>
          .inl (g.followFallThrough lp cand newdefs currDist
            (g.followBranch lp cand newdefs currDist st))

/-- The path that the search starts with: behind a block's last instruction, it goes on in the
block's target. -/
def firstPath (lp : Option DefUseLoop) (l : Location) : Option Location :=
  match g.basicBlocks[l.block]? with
  | none => none
  | some bb =>
    if l.pos + 1 = bb.instructions.length then
      match bb.targetBlocks with
      | [] => none
      | t :: _ => if flowsInDefUseScope t lp then some ⟨t, 0⟩ else none
    else some ⟨l.block, l.pos + 1⟩

/-- `singleDefUse`, from what the instruction's fields are before it. -/
def singleDefUse (fuel : Nat) (lp : Option DefUseLoop) (l : Location) (fields : Nat × Bool) :
    Option (Nat × Bool) :=
  let idefs := ((g.instruction? l).map (·.getDefs)).getD []
  if idefs.isEmpty then some fields
  else
    let st : DefUseSearch := ⟨[], [], fields.1, fields.2⟩
    loop (g.searchStep lp) fuel
      (match g.firstPath lp l with
        | none => st
        | some first => st.insert ⟨first, idefs⟩ 1)

/-- The instructions of a block that are not skipped. -/
def definers (b : Nat) : List Location :=
  (g.places b).filter fun l => (g.instruction? l).any FlowInstruction.defines

/-- The calls of `singleDefUse`: for the blocks of each loop, and for those in no loop. -/
def visits : List (Option DefUseLoop × Location) :=
  (g.loops.flatMap fun lp =>
    ((List.range g.basicBlocks.length).filter lp.isBlockIn).flatMap fun b =>
      (g.definers b).map (some lp, ·)) ++
  ((List.range g.basicBlocks.length).filter fun b => !g.loops.any (·.isBlockIn b)).flatMap fun b =>
    (g.definers b).map (none, ·)

/-- `FlowGraph::computeDefUseDist`: the distance of every instruction, and whether its definition
is used over the head of a loop. -/
def computeDefUseDist (fuel : Nat) : Option (Location → Nat × Bool) :=
  g.visits.foldlM
    (fun fields v => (g.singleDefUse fuel v.1 v.2 (fields v.2)).map (Function.update fields v.2))
    fun _ => (0, false)

end DefUseGraph

end Pebil

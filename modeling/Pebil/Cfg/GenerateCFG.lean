import Pebil.Isa.Instruction
import Pebil.Cfg.DepthFirst
import Mathlib.Data.List.Chain
import Mathlib.Data.List.Sort

/-!
# Building a flow graph (src/Function.C:542–628, src/FlowGraph.C:746–814)

`Function::generateCFG` collects the addresses at which blocks must begin, marks the
instructions there as leaders and cuts the body at them; `FlowGraph::connectGraph`
derives the edges from the blocks' addresses and marks what the entry does not reach.

What the jump table recovery has found is part of the body. The immediate dominators,
the raw blocks in the gaps between instructions and the anchors of the table entries,
which `generateCFG` adds behind `connectGraph`, are not modelled here.
-/

namespace Pebil

/-- An instruction of a function body: what `findJumpTableBaseAddress` returns for it, and
the addresses that `computeJumpTableTargets` reads from the table. -/
structure BodyInstruction extends X86Instruction where
  jumpTableBase : BitVec 64
  jumpTableTargets : List (BitVec 64)

namespace BodyInstruction

variable (x : BodyInstruction)

/-- `searchBaseAddress`: the address is one of the instruction's bytes. -/
def covers (addr : BitVec 64) : Bool :=
  x.baseAddress ≤ addr && addr < x.baseAddress + x.sizeInBytes

/-- The kinds of instructions a decoded body is made of. -/
inductive Decoded : Prop where
  | nonControl : x.isControl = false → Decoded
  | direct {op : OperandX86} : x.isBranch = true → x.operands 0 = some op → op.type = .jimm →
      x.usesIndirectAddress = false → Decoded
  | call : x.isCall = true → Decoded
  | ret : x.isReturn = true → Decoded
  | indirect {op : OperandX86} : x.isJumpTableBase = true → x.operands 0 = some op →
      op.type = .mem ∨ op.type = .reg → x.jumpTableBase ≠ 0 →
      x.container.inRange x.jumpTableBase = false → Decoded

/-- The instruction can transfer control to an address: the next one, the target of a direct
branch or call, or an entry of the jump table. -/
inductive CanTransfer (addr : BitVec 64) : Prop where
  | fallThrough : x.controlFallsThrough = true → addr = x.endAddress → CanTransfer addr
  | direct {op : OperandX86} : x.isBranch = true ∨ x.isFunctionCall = true →
      x.operands 0 = some op → op.type = .jimm →
      addr = x.baseAddress + op.value + x.sizeInBytes → CanTransfer addr
  | table : x.isJumpTableBase = true → addr ∈ x.jumpTableTargets → CanTransfer addr

end BodyInstruction

/-- A decoded function body: contiguous instructions in address order inside the function.
Unless the function is marked bad, a target inside the body is where an instruction begins:
`digestRecursive` marks a function of which that does not hold. -/
structure FunctionBody where
  function : TextObject
  instructions : List BodyInstruction
  badInstruction : Bool
  nonempty : instructions ≠ []
  sized : ∀ x ∈ instructions, 0 < x.sizeInBytes.toNat
  contiguous : instructions.IsChain fun x y =>
    x.baseAddress.toNat + x.sizeInBytes.toNat = y.baseAddress.toNat
  inside : ∀ x ∈ instructions, function.baseAddress.toNat ≤ x.baseAddress.toNat ∧
    x.baseAddress.toNat + x.sizeInBytes.toNat ≤
      function.baseAddress.toNat + function.sizeInBytes.toNat
  bounded : function.baseAddress.toNat + function.sizeInBytes.toNat < 2 ^ 64
  container : ∀ x ∈ instructions, x.container = function
  unanchored : ∀ x ∈ instructions, x.addressAnchor = none
  decoded : ∀ x ∈ instructions, x.Decoded
  aligned : badInstruction = false → ∀ x ∈ instructions, ∀ a, x.CanTransfer a →
    ∀ y ∈ instructions, y.covers a = true → y.baseAddress = a

/-- `CodeBlock`: it has at least a leader. -/
structure CodeBlock where
  instructions : List BodyInstruction
  nonempty : instructions ≠ []

namespace CodeBlock

variable (b : CodeBlock)

def baseAddress : BitVec 64 := (b.instructions.head b.nonempty).baseAddress

/-- `instructions.back()`. -/
def back : BodyInstruction := b.instructions.getLast b.nonempty

def getTargetAddress : BitVec 64 := b.back.targetAddress

def controlFallsThrough : Bool := b.back.controlFallsThrough

/-- `findExitInstruction`. -/
def findExitInstruction : Bool :=
  b.back.isReturn || b.instructions.any fun x =>
    x.isBranch && !x.container.inRange x.targetAddress

/-- `compareBaseAddress(a, b) <= 0`. -/
def compareBaseAddress (a b : CodeBlock) : Bool := a.baseAddress ≤ b.baseAddress

end CodeBlock

/-- The target and source lists of all blocks. -/
structure Links where
  targetBlocks : Nat → List Nat
  sourceBlocks : Nat → List Nat

namespace Links

def empty : Links where
  targetBlocks _ := []
  sourceBlocks _ := []

/-- `addTargetBlock` and `addSourceBlock` for one edge. -/
def add (l : Links) (e : Nat × Nat) : Links where
  targetBlocks := Function.update l.targetBlocks e.1 (l.targetBlocks e.1 ++ [e.2])
  sourceBlocks := Function.update l.sourceBlocks e.2 (l.sourceBlocks e.2 ++ [e.1])

end Links

/-- A connected graph: the blocks, their edges and their flags. -/
structure CodeGraph where
  basicBlocks : List CodeBlock
  links : Links
  entry : Nat
  exit : Nat → Bool
  noPath : Nat → Bool

namespace FunctionBody

variable (f : FunctionBody)

/-! ## Leaders -/

/-- The control targets of one instruction; none when an assertion fails. -/
def controlTargetAddrs (x : BodyInstruction) : Option (List (BitVec 64)) :=
  if x.isJumpTableBase then
    if x.jumpTableBase = 0 ∨ f.function.inRange x.jumpTableBase then
      if f.badInstruction then some [x.endAddress] else none
    else some (x.jumpTableTargets ++ [x.endAddress])
  else if x.usesControlTarget then some [x.targetAddress, x.endAddress]
  else if x.isReturn then some [x.endAddress]
  else some []

/-- `setLeader` for the instruction that covers an address; a target in the middle of an
instruction is an error unless the function is marked bad. Leaders are kept by their
addresses. -/
def setLeader (leaders : List (BitVec 64)) (addr : BitVec 64) : Option (List (BitVec 64)) :=
  match f.instructions.find? (·.covers addr) with
  | none => some leaders
  | some x =>
    if !f.badInstruction && x.baseAddress != addr then none
    else some (x.baseAddress :: leaders)

/-- The leaders of the body. -/
def findLeaders : Option (List (BitVec 64)) := do
  let leaderAddrs ← f.instructions.mapM f.controlTargetAddrs
  leaderAddrs.flatten.foldlM f.setLeader [(f.instructions.head f.nonempty).baseAddress]

/-! ## Blocks -/

/-- One turn of the loop that fills the blocks; the current block is the first. -/
def addInstruction (leaders : List (BitVec 64)) (blocks : List CodeBlock) (x : BodyInstruction) :
    List CodeBlock :=
  if x.baseAddress ∈ leaders then ⟨[x], by simp⟩ :: blocks
  else match blocks with
    | [] => []
    | b :: blocks => ⟨b.instructions ++ [x], by simp⟩ :: blocks

/-- The blocks in the order in which they are made. -/
def buildBlocks (leaders : List (BitVec 64)) : List CodeBlock :=
  (f.instructions.foldl (addInstruction leaders) []).reverse

/-! ## Edges -/

/-- The edge to the next block, unless that is the target too. -/
def adjacentEdges (blocks : List CodeBlock) (i : Nat) (b : CodeBlock) : List (Nat × Nat) :=
  match blocks[i + 1]? with
  | some next =>
    if b.controlFallsThrough && b.getTargetAddress != next.baseAddress then [(i, i + 1)] else []
  | none => []

/-- The edges to the blocks at the target address, if that is in the function. -/
def jumpEdges (blocks : List CodeBlock) (i : Nat) (b : CodeBlock) : List (Nat × Nat) :=
  if f.function.inRange b.getTargetAddress then
    ((List.range blocks.length).filter fun j =>
      (blocks[j]?).any (·.baseAddress == b.getTargetAddress)).map (i, ·)
  else []

/-- The edges found for one block. -/
def edgesFrom (blocks : List CodeBlock) (i : Nat) : List (Nat × Nat) :=
  match blocks[i]? with
  | some b => adjacentEdges blocks i b ++ f.jumpEdges blocks i b
  | none => []

/-- The edges of all blocks, in the order in which the loops add them. -/
def edges (blocks : List CodeBlock) : List (Nat × Nat) :=
  (List.range blocks.length).flatMap (f.edgesFrom blocks)

end FunctionBody

/-- The blocks that are left in a full set when all that the entry reaches is taken out of it;
none when an assertion fails. -/
def Links.unreachableBlocks (l : Links) (n entry : Nat) : Option (List Nat) :=
  (SearchSets.depthFirstSearch l.targetBlocks false false (n + 1) entry
    { visitedSet := BitSet.setall n, completedSet := BitSet.new n
      backEdges := [] }).visitedSet.duplicateMembers

namespace FunctionBody

variable (f : FunctionBody)

/-- `connectGraph` on sorted blocks. -/
def connectSorted (basicBlocks : List CodeBlock) (entry : Nat) : Option CodeGraph :=
  let links := (f.edges basicBlocks).foldl Links.add .empty
  (links.unreachableBlocks basicBlocks.length entry).map fun unreachableBlocks =>
    { basicBlocks := basicBlocks
      links := links
      entry := entry
      exit := fun i => (basicBlocks[i]?).any (·.findExitInstruction)
      noPath := fun i => i ∈ unreachableBlocks }

/-- `FlowGraph::connectGraph`; the first of the blocks is the entry, wherever it is sorted
to. -/
def connectGraph (blocks : List CodeBlock) : Option CodeGraph :=
  let sorted := blocks.zipIdx.mergeSort fun a b => CodeBlock.compareBaseAddress a.1 b.1
  f.connectSorted (sorted.map (·.1)) (sorted.findIdx fun p => p.2 == 0)

/-- `Function::generateCFG` up to the connected graph; none when it does not get there. -/
def generateCFG : Option CodeGraph := do
  let leaders ← f.findLeaders
  f.connectGraph (f.buildBlocks leaders)

end FunctionBody

end Pebil

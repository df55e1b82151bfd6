import Pebil.Timing.TimerFunctions
import Mathlib.Data.List.Chain
import Mathlib.Logic.Relation

/-!
# Where the timer's calls are placed (src/tools/FunctionTimer.C:152–214)

`FunctionTimer::instrument` puts a call of `function_entry` into the entry block of each
function and one of `function_exit` into each exit block, in front of the last
instruction before which no flag is live, or of the last one. The points are then sorted
by where they are; points that compare equal are in an order that `qsort` leaves open.

A path through the function's graph, from the entry block to a block where control
leaves, is an activation. Its calls are those of its blocks (`Paired`, `IsActivation`).
-/

namespace Pebil

open Relation (ReflTransGen)

/-- A basic block: which instructions have no live flags before them, where it leads, and
what `getExitBlocks` asks about it. `leaves` says that control can leave the function at
its end. -/
structure TimedBlock where
  allFlagsDeadIn : List Bool
  nonempty : allFlagsDeadIn ≠ []
  targetBlocks : List Nat
  isExit : Bool
  inRange : Bool
  leaves : Bool
  deriving Repr

/-- A function with its entry block. -/
structure TimedFunction where
  basicBlocks : List TimedBlock
  entryBlock : Nat
  entry_lt : entryBlock < basicBlocks.length

/-- A point: a call in front of an instruction. -/
structure TimerPoint where
  block : Nat
  instruction : Nat
  call : TimerFunction
  deriving DecidableEq, Repr

/-- The search for the instruction to instrument: the last one before which all flags are dead,
else the exit instruction. -/
def TimedBlock.bestInstruction (b : TimedBlock) : Nat :=
  ((List.range b.allFlagsDeadIn.length).reverse.find? fun j =>
    (b.allFlagsDeadIn[j]?).getD false).getD (b.allFlagsDeadIn.length - 1)

namespace TimedFunction

variable (f : TimedFunction)

/-- `getExitBlocks`. -/
def getExitBlocks : List Nat :=
  (List.range f.basicBlocks.length).filter fun i =>
    (f.basicBlocks[i]?).any fun b => b.isExit || !b.inRange

/-- A point in front of the best instruction of a block. -/
def pointIn (call : TimerFunction) (i : Nat) : TimerPoint where
  block := i
  instruction := ((f.basicBlocks[i]?).map (·.bestInstruction)).getD 0
  call := call

/-- The blocks that get an exit call: the last one where there is no exit block. -/
def exitCallBlocks : List Nat :=
  if f.getExitBlocks = [] then [f.basicBlocks.length - 1] else f.getExitBlocks

/-- The points of `FunctionTimer::instrument` for one function. -/
def instrument : List TimerPoint :=
  f.pointIn .functionEntry f.entryBlock :: f.exitCallBlocks.map (f.pointIn .functionExit)

end TimedFunction

/-- `compareInstBaseAddress(p, q) <= 0`, for points of one function: blocks and instructions are
numbered by address, and all locations and priorities are the same. -/
def TimerPoint.compareInstBaseAddress (p q : TimerPoint) : Bool :=
  p.block < q.block || (p.block = q.block && p.instruction ≤ q.instruction)

/-- An order in which `qsort` may leave the points. -/
structure Arranged (points sorted : List TimerPoint) : Prop where
  perm : sorted.Perm points
  ordered : sorted.Pairwise fun p q => p.compareInstBaseAddress q = true

/-- The calls that are made while a block runs. -/
def blockCalls (points : List TimerPoint) (b : Nat) : List TimerFunction :=
  (points.filter (·.block = b)).map (·.call)

/-! ## Activations -/

namespace TimedFunction

variable (f : TimedFunction)

/-- An edge of the graph. -/
def Edge (b t : Nat) : Prop := ∃ bb, f.basicBlocks[b]? = some bb ∧ t ∈ bb.targetBlocks

/-- Control can leave the function from the block. -/
def Leaves (b : Nat) : Prop := ∃ bb, f.basicBlocks[b]? = some bb ∧ bb.leaves = true

/-- A path of a whole activation. -/
structure Complete (path : List Nat) : Prop where
  first : path.head? = some f.entryBlock
  edges : path.IsChain f.Edge
  last : ∃ b, path.getLast? = some b ∧ f.Leaves b

end TimedFunction

/-- Behind its first block an activation makes one call, of `function_exit`, in its last. -/
def ExitsOnce (calls : Nat → List TimerFunction) : List Nat → Prop
  | [] => False
  | [b] => calls b = [.functionExit]
  | b :: rest => calls b = [] ∧ ExitsOnce calls rest

/-- An activation calls `function_entry` in its first block, `function_exit` in its last, and
makes no other call. -/
def Paired (calls : Nat → List TimerFunction) : List Nat → Prop
  | [] => False
  | [b] => calls b = [.functionEntry, .functionExit]
  | b :: rest => calls b = [.functionEntry] ∧ ExitsOnce calls rest

/-- A call together with the function it is made for. -/
abbrev TaggedCall := TimerFunction × Nat

/-- `calls` are made by an activation of `f`, with fewer than `depth` activations inside each
other: those of its own blocks, and behind every block but the last those of the
activations the block's call leads to. -/
def IsActivation (program : Nat → TimedFunction) (points : Nat → List TimerPoint) :
    Nat → Nat → List TaggedCall → Prop
  | 0, _, _ => False
  | depth + 1, f, calls => ∃ (steps : List (Nat × List (List TaggedCall))) (last : Nat),
      (program f).Complete (steps.map (·.1) ++ [last]) ∧
      (∀ s ∈ steps, ∀ inner ∈ s.2, ∃ g, IsActivation program points depth g inner) ∧
      calls = steps.flatMap (fun s => (blockCalls (points f) s.1).map (·, f) ++ s.2.flatten) ++
        (blockCalls (points f) last).map (·, f)

/-! ## When calls are paired -/

namespace TimedFunction

variable (f : TimedFunction)

/-- An edge that lies on the path of an activation. -/
def LiveEdge (b t : Nat) : Prop :=
  ReflTransGen f.Edge f.entryBlock b ∧ f.Edge b t ∧ ∃ l, ReflTransGen f.Edge t l ∧ f.Leaves l

/-- The functions whose calls are paired: on the way of an activation no edge leads to the
entry block and none leaves a block with an exit call; every reachable block where
control leaves the function has one; and where the entry block is such a block, the
sort puts the entry call first. -/
structure TimerSafe (points : List TimerPoint) : Prop where
  entry_fresh : ∀ b, ¬f.LiveEdge b f.entryBlock
  exit_final : ∀ b t, f.LiveEdge b t → b ∉ f.exitCallBlocks
  leaves_exit : ∀ b, ReflTransGen f.Edge f.entryBlock b → f.Leaves b → b ∈ f.exitCallBlocks
  entry_first : f.Leaves f.entryBlock →
    (blockCalls points f.entryBlock).head? = some .functionEntry

end TimedFunction

end Pebil

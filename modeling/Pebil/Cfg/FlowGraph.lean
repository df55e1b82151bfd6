import Pebil.Lib.Liveness
import Mathlib.Data.List.Basic
import Mathlib.Algebra.GroupWithZero.Nat

/-!
# Flow graphs (include/FlowGraph.h, include/BasicBlock.h)

A `FlowGraph` is its list of basic blocks; a block is named by its position, and
its instructions by position inside the block. `ControlFlow` is the control flow
between instructions: fall-through inside a block, and from the last instruction
of a block to the leader of every target block.

The blocks' byte contents, addresses and flags are not part of this view; the
instruction type is a parameter.
-/

namespace Pebil

universe u

/-- `BasicBlock`: at least a leader, and the blocks its last instruction can
transfer to. -/
structure BasicBlock (ι : Type u) where
  instructions : List ι
  targetBlocks : List Nat
  nonempty : instructions ≠ []

theorem BasicBlock.length_pos {ι : Type u} (bb : BasicBlock ι) : 0 < bb.instructions.length :=
  List.length_pos_iff.mpr bb.nonempty

/-- `FlowGraph::basicBlocks`; targets are blocks of the same graph. -/
structure FlowGraph (ι : Type u) where
  basicBlocks : List (BasicBlock ι)
  targets_lt : ∀ bb ∈ basicBlocks, ∀ t ∈ bb.targetBlocks, t < basicBlocks.length

/-- An instruction's place: its block and its position there. -/
structure Location where
  block : Nat
  pos : Nat
  deriving DecidableEq, Repr

namespace FlowGraph

variable {ι : Type u} (g : FlowGraph ι)

/-- `getBasicBlock(b)->getInstruction(j)`. -/
def instruction? (l : Location) : Option ι :=
  (g.basicBlocks[l.block]?).bind (·.instructions[l.pos]?)

/-- `getNumberOfInstructions`. -/
def numberOfInstructions : Nat :=
  (g.basicBlocks.map (·.instructions.length)).sum

/-- A place that holds an instruction. -/
def Valid (l : Location) : Prop :=
  ∃ bb, g.basicBlocks[l.block]? = some bb ∧ l.pos < bb.instructions.length

/-- Control flow between instructions. -/
inductive ControlFlow : Location → Location → Prop where
  | fallThrough {b j bb} : g.basicBlocks[b]? = some bb → j + 1 < bb.instructions.length →
      ControlFlow ⟨b, j⟩ ⟨b, j + 1⟩
  | target {b t bb} : g.basicBlocks[b]? = some bb → t ∈ bb.targetBlocks →
      ControlFlow ⟨b, bb.instructions.length - 1⟩ ⟨t, 0⟩

variable {g}

theorem valid_iff {l : Location} : g.Valid l ↔ ∃ x, g.instruction? l = some x := by
  unfold Valid instruction?
  constructor
  · rintro ⟨bb, hbb, hlt⟩
    refine ⟨bb.instructions[l.pos], ?_⟩
    rw [hbb]
    exact List.getElem?_eq_getElem hlt
  · rintro ⟨x, hx⟩
    obtain ⟨bb, hbb, hx⟩ := Option.bind_eq_some_iff.mp hx
    exact ⟨bb, hbb, (List.getElem?_eq_some_iff.mp hx).1⟩

/-- Control flow stays inside the graph. -/
theorem ControlFlow.valid {l l' : Location} (h : g.ControlFlow l l') : g.Valid l' := by
  cases h with
  | fallThrough hbb hj => exact ⟨_, hbb, hj⟩
  | target hbb ht =>
    have hlt := g.targets_lt _ (List.mem_of_getElem? hbb) _ ht
    exact ⟨g.basicBlocks[_], List.getElem?_eq_getElem hlt, BasicBlock.length_pos _⟩

/-! ## Numbering the instructions -/

/-- The number given to the leader of block `b` when instructions are numbered
block by block (FlowGraph.C:529–537). -/
def leaderIndex (g : FlowGraph ι) (b : Nat) : Nat :=
  ((g.basicBlocks.take b).map (·.instructions.length)).sum

/-- `X86Instruction::getIndex` after the numbering. -/
def index (g : FlowGraph ι) (l : Location) : Nat := g.leaderIndex l.block + l.pos

/-- Element `j` of part `b` of a concatenation. -/
theorem getElem?_flatMap_part {α β : Type*} (f : α → List β) :
    ∀ (parts : List α) {b j : Nat} {part : α}, parts[b]? = some part →
      j < (f part).length →
      (parts.flatMap f)[((parts.take b).map (fun p => (f p).length)).sum + j]? = (f part)[j]? := by
  intro parts
  induction parts with
  | nil => intro b j part h; simp at h
  | cons p ps ih =>
    intro b j part hb hj
    cases b with
    | zero =>
      obtain rfl : p = part := by simpa using hb
      simp [List.getElem?_append_left hj]
    | succ b =>
      have hb : ps[b]? = some part := by simpa using hb
      rw [List.flatMap_cons, List.take_succ_cons, List.map_cons, List.sum_cons, Nat.add_assoc,
        List.getElem?_append_right (Nat.le_add_right _ _), Nat.add_sub_cancel_left]
      exact ih hb hj

/-- The instruction numbered `index l` is the one at `l`. -/
theorem getElem?_index {l : Location} (h : g.Valid l) :
    (g.basicBlocks.flatMap (·.instructions))[g.index l]? = g.instruction? l := by
  obtain ⟨bb, hbb, hlt⟩ := h
  rw [index, leaderIndex, getElem?_flatMap_part _ _ hbb hlt, instruction?, hbb]
  rfl

/-- Every position of a concatenation lies in one of its parts. -/
theorem exists_part {α β : Type*} (f : α → List β) :
    ∀ (parts : List α) {i : Nat}, i < (parts.map (fun p => (f p).length)).sum →
      ∃ b j part, parts[b]? = some part ∧ j < (f part).length ∧
        i = ((parts.take b).map (fun p => (f p).length)).sum + j := by
  intro parts
  induction parts with
  | nil => intro i h; simp at h
  | cons p ps ih =>
    intro i h
    by_cases hi : i < (f p).length
    · exact ⟨0, i, p, by simp, hi, by simp⟩
    · rw [List.map_cons, List.sum_cons] at h
      obtain ⟨b, j, part, hb, hj, heq⟩ := @ih (i - (f p).length) (by omega)
      refine ⟨b + 1, j, part, by simpa using hb, hj, ?_⟩
      rw [List.take_succ_cons, List.map_cons, List.sum_cons]
      omega

/-- Every number is the number of some instruction. -/
theorem exists_index {i : Nat} (h : i < g.numberOfInstructions) :
    ∃ l, g.Valid l ∧ g.index l = i := by
  obtain ⟨b, j, bb, hbb, hj, hi⟩ := exists_part _ _ h
  exact ⟨⟨b, j⟩, ⟨bb, hbb, hj⟩, hi.symm⟩

theorem length_flatMap_instructions :
    (g.basicBlocks.flatMap (·.instructions)).length = g.numberOfInstructions := by
  rw [List.length_flatMap, numberOfInstructions]

theorem index_lt {l : Location} (h : g.Valid l) : g.index l < g.numberOfInstructions := by
  obtain ⟨x, hx⟩ := valid_iff.mp h
  rw [← getElem?_index h] at hx
  rw [← length_flatMap_instructions]
  exact (List.getElem?_eq_some_iff.mp hx).1

end FlowGraph

end Pebil

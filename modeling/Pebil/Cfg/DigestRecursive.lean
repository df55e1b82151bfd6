import Pebil.Isa.Instruction
import Pebil.Lib.BinarySearch
import Mathlib.Data.List.Sort

/-!
# Recursive disassembly (src/Function.C:405–540, src/Base.C:415–419, 467–481)

`Function::digestRecursive` decodes a function from its entry along fall-throughs, branch
targets and jump table entries. The addresses still to be decoded are on a stack, and the
instructions decoded so far are in a list sorted by address, in which every address is
looked up with `searchBaseAddress`: an instruction matches any of its bytes.

The decoder and the recovery of jump tables are parameters.
-/

namespace Pebil

/-- `X86InstructionType` as the number it is in the source. -/
def X86InstructionType.number : X86InstructionType → Nat
  | .unknown => 0
  | .invalid => 1
  | .condbr => 2
  | .uncondbr => 3
  | .call => 4
  | .ret => 5
  | .int => 6
  | .move => 7
  | .float => 8
  | .string => 9
  | .simd => 10
  | .avx => 11
  | .aes => 12
  | .io => 13
  | .prefetch => 14
  | .syscall => 15
  | .halt => 16
  | .hwcount => 17
  | .nop => 18
  | .trap => 19
  | .vmx => 20
  | .special => 21

/-- `UD_Iinvalid`, which is a `ud_mnemonic_code`: what the decoder gives for bytes that are
no instruction. -/
def udIinvalid : Nat := 231

/-- `MAX_X86_INSTRUCTION_LENGTH`. -/
def maxX86InstructionLength : Nat := 20

/-- `searchBaseAddress`: the key is below the instruction, behind it or in it. -/
def searchBaseAddress (key : BitVec 64) (x : X86Instruction) : Int :=
  if key < x.baseAddress then -1
  else if x.baseAddress + x.sizeInBytes ≤ key then 1
  else 0

/-- `compareBaseAddress`: the difference as an `int`. -/
def compareBaseAddress (x y : X86Instruction) : Int :=
  ((x.baseAddress - y.baseAddress).setWidth 32).toInt

/-- A function: where it is, what the decoder finds at each address, and what jump table
recovery makes of an indirect jump among the instructions decoded so far. It lies in the
address space with room for a last instruction that runs over its end, and is smaller than
2 GiB, so that `compareBaseAddress` has the right sign. -/
structure FunctionCode where
  function : TextObject
  decode : BitVec 64 → X86Instruction
  findJumpTableBaseAddress : X86Instruction → List X86Instruction → BitVec 64
  computeJumpTableTargets : X86Instruction → BitVec 64 → List (BitVec 64)
  decode_base : ∀ a, (decode a).baseAddress = a
  decode_anchor : ∀ a, (decode a).addressAnchor = none
  sized : ∀ a, 0 < (decode a).sizeInBytes.toNat
  short : ∀ a, (decode a).sizeInBytes.toNat ≤ maxX86InstructionLength
  bounded : function.baseAddress.toNat + function.sizeInBytes.toNat +
    maxX86InstructionLength < 2 ^ 64
  small : function.sizeInBytes.toNat < 2 ^ 31

/-- What `digestRecursive` works on. -/
structure DigestState where
  allInstructions : List X86Instruction
  unprocessed : List (BitVec 64)
  badInstruction : BitVec 64

namespace DigestState

variable (st : DigestState)

/-- The `bsearch` for an address. -/
def find (a : BitVec 64) : Option X86Instruction :=
  bsearch (searchBaseAddress a) st.allInstructions

def push (a : BitVec 64) : DigestState := { st with unprocessed := a :: st.unprocessed }

def pop : DigestState := { st with unprocessed := st.unprocessed.tail }

def setBadInstruction (a : BitVec 64) : DigestState := { st with badInstruction := a }

def insert (x : X86Instruction) : DigestState :=
  { st with allInstructions := insertSorted compareBaseAddress x st.allInstructions }

section Fields

variable {st} {a : BitVec 64} {x : X86Instruction}

@[simp] theorem push_allInstructions : (st.push a).allInstructions = st.allInstructions := rfl
@[simp] theorem push_unprocessed : (st.push a).unprocessed = a :: st.unprocessed := rfl
@[simp] theorem push_badInstruction : (st.push a).badInstruction = st.badInstruction := rfl
@[simp] theorem pop_allInstructions : st.pop.allInstructions = st.allInstructions := rfl
@[simp] theorem pop_unprocessed : st.pop.unprocessed = st.unprocessed.tail := rfl
@[simp] theorem pop_badInstruction : st.pop.badInstruction = st.badInstruction := rfl
@[simp] theorem setBadInstruction_allInstructions :
    (st.setBadInstruction a).allInstructions = st.allInstructions := rfl
@[simp] theorem setBadInstruction_unprocessed :
    (st.setBadInstruction a).unprocessed = st.unprocessed := rfl
@[simp] theorem setBadInstruction_badInstruction :
    (st.setBadInstruction a).badInstruction = a := rfl
@[simp] theorem insert_unprocessed : (st.insert x).unprocessed = st.unprocessed := rfl
@[simp] theorem insert_badInstruction : (st.insert x).badInstruction = st.badInstruction := rfl

end Fields

/-- An invalid instruction is to be bad; the type of the instruction is compared with a
mnemonic. -/
def checkType (x : X86Instruction) : DigestState :=
  if x.itype.number = udIinvalid then st.setBadInstruction x.baseAddress else st

/-- The check of the address behind an instruction, and what `fallThroughAddr` is after it. -/
def checkFallThrough (x : X86Instruction) : DigestState × BitVec 64 :=
  let fallThroughAddr := x.endAddress
  match st.find fallThroughAddr with
  | none =>
    if x.controlFallsThrough then (st.push fallThroughAddr, fallThroughAddr) else (st, 0)
  | some tgtInstruction =>
    (if tgtInstruction.baseAddress ≠ fallThroughAddr then st.setBadInstruction fallThroughAddr
      else st, fallThroughAddr)

/-- The check of an address that an instruction transfers control to. -/
def checkTarget (function : TextObject) (fallThroughAddr : BitVec 64)
    (controlTargetAddr : BitVec 64) : DigestState :=
  match st.find controlTargetAddr with
  | none =>
    if function.inRange controlTargetAddr ∧ controlTargetAddr ≠ fallThroughAddr then
      st.push controlTargetAddr
    else st
  | some tgtInstruction =>
    if tgtInstruction.baseAddress ≠ controlTargetAddr then
      st.setBadInstruction controlTargetAddr
    else st

end DigestState

/-- How `digestRecursive` ends: with a failed assertion, with NULL, or with a list. -/
inductive Digested where
  | fails
  | undecodable
  | decoded (instructions : List X86Instruction)

namespace FunctionCode

variable (f : FunctionCode)

/-- There is no jump table for an indirect jump, or it is in the function. -/
def tableLost (st : DigestState) (x : X86Instruction) : Bool :=
  let jumpTableBase := f.findJumpTableBaseAddress x st.allInstructions
  f.function.inRange jumpTableBase || jumpTableBase == 0

/-- `controlTargetAddrs` of an instruction. -/
def controlTargetAddrs (st : DigestState) (x : X86Instruction) : List (BitVec 64) :=
  if x.isJumpTableBase then
    if f.tableLost st x then []
    else f.computeJumpTableTargets x (f.findJumpTableBaseAddress x st.allInstructions)
  else if x.usesControlTarget then [x.targetAddress]
  else []

/-- An indirect jump whose table is lost is bad. -/
def checkTable (st : DigestState) (x : X86Instruction) : DigestState :=
  if x.isJumpTableBase && f.tableLost st x then st.setBadInstruction x.baseAddress else st

/-- What a round does with the instruction that it has decoded. -/
def process (st : DigestState) (x : X86Instruction) : DigestState :=
  let (st, fallThroughAddr) := ((st.checkType x).insert x).checkFallThrough x
  (f.controlTargetAddrs st x).foldl
    (fun st a => st.checkTarget f.function fallThroughAddr a) (f.checkTable st x)

/-- A round of the search; left with none where an assertion fails. -/
def searchStep (st : DigestState) : DigestState ⊕ Option DigestState :=
  match st.unprocessed with
  | [] => .inr (some st)
  | currentAddress :: _ =>
    if st.badInstruction ≠ 0 then .inr (some st)
    else
      match st.find currentAddress with
      | some tgtInstruction =>
        if tgtInstruction.baseAddress = currentAddress then .inl st.pop else .inr none
      | none =>
        if f.function.inRange currentAddress then
          .inl (f.process st.pop (f.decode currentAddress))
        else .inl st.pop

/-- The entry is on the stack. -/
def start : DigestState := ⟨[], [f.function.baseAddress], 0⟩

/-- The instructions that overlap the next one mark the function as bad. -/
def markOverlaps (badInstruction : BitVec 64) : List X86Instruction → BitVec 64
  | x :: y :: rest =>
    markOverlaps (if y.baseAddress < x.baseAddress + x.sizeInBytes then y.baseAddress
      else badInstruction) (y :: rest)
  | _ => badInstruction

/-- The last instruction does not go over the end of the function. -/
def reduceTail (tail : X86Instruction) : X86Instruction :=
  let currByte :=
    (tail.baseAddress + tail.sizeInBytes - f.function.baseAddress).setWidth 32
  let sizeInBytes := f.function.sizeInBytes.setWidth 32
  if sizeInBytes < currByte then
    { tail with sizeInBytes := tail.sizeInBytes - (currByte - sizeInBytes).setWidth 64 }
  else tail

/-- What follows the search. Without instructions the bound `size() - 1` of the loop wraps,
and the first access of the list fails an assertion. -/
def finish (st : DigestState) : Digested :=
  let allInstructions := st.allInstructions.mergeSort fun x y => compareBaseAddress x y ≤ 0
  match allInstructions.getLast? with
  | none => .fails
  | some tail =>
    if markOverlaps st.badInstruction allInstructions ≠ 0 then .undecodable
    else .decoded (allInstructions.dropLast ++ [f.reduceTail tail])

/-- The result of the search as the result of the function. -/
def conclude : Option DigestState → Digested
  | none => .fails
  | some st => f.finish st

/-- `digestRecursive` with at most `fuel` rounds of the search. -/
def digestRecursive (fuel : Nat) : Option Digested :=
  (loop f.searchStep fuel f.start).map f.conclude

end FunctionCode

end Pebil

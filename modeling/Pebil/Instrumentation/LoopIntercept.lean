import Pebil.Base.Word
import Pebil.Cfg.LoopNestingCorrect
import Pebil.Instrumentation.DataReserve
import Pebil.Lib.ByteMemory

/-!
# The sites of intercepted loops (src/tools/LoopIntercept.C:165–361)

The user lists the loops to intercept by the hash codes of their heads. `instrument` numbers the
entries of the list, later ones of one hash in place of earlier ones, then picks the loops out of
the exposed blocks, skips those that it cannot handle, reserves a table of one word for each loop
that is left, and writes the hash of each to the table at its number.

What is left out is the printing, and the instrumentation of the entries and exits of a loop, which
takes the number of the loop as a constant.
-/

namespace Pebil

open LoopNesting

namespace LoopIntercept

/-- A block as far as loops are picked out: its hash code and address, the blocks that control is
transferred to, and whether it ends with an indirect branch. -/
structure InterceptBlock where
  hashCode : BitVec 64
  baseAddress : BitVec 64
  targetBlocks : List Nat
  endsWithIndirectBranch : Bool

/-- The flow graph of a function with its loops. -/
structure InterceptGraph where
  basicBlocks : List InterceptBlock
  loops : List (Loop basicBlocks.length)

/-- A block that may be instrumented. -/
structure ExposedBlock where
  flowGraph : InterceptGraph
  index : Nat

/-- A loop of some function. -/
structure FoundLoop where
  flowGraph : InterceptGraph
  loop : Ptr flowGraph.loops

namespace InterceptGraph

variable (g : InterceptGraph)

/-- `getHashCode().getValue()` of a block. -/
def hashOf (b : Nat) : BitVec 64 := ((g.basicBlocks[b]?).map (·.hashCode)).getD 0

/-- The hash code of the head of a loop. -/
def headHash (l : Ptr g.loops) : BitVec 64 := g.hashOf g.loops[l].head

/-- `isBlockInLoop`. -/
def isBlockInLoop (idx : Nat) : Bool := g.loops.any (·.isBlockIn idx)

/-- `hasSharedHeader`. -/
def hasSharedHeader (l other : Ptr g.loops) : Bool :=
  (g.basicBlocks[g.loops[l].head]?).map (·.baseAddress) =
    (g.basicBlocks[g.loops[other].head]?).map (·.baseAddress)

/-- `isIdenticalLoop` of two loops of one function. -/
def isIdenticalLoop (l other : Ptr g.loops) : Bool :=
  g.loops[l].getNumberOfBlocks = g.loops[other].getNumberOfBlocks &&
    (List.range g.basicBlocks.length).all fun i =>
      g.loops[l].isBlockIn i = g.loops[other].isBlockIn i

/-- `getAllBlocks`. -/
def getAllBlocks (l : Ptr g.loops) : List InterceptBlock :=
  (g.basicBlocks.zipIdx.filter fun b => g.loops[l].isBlockIn b.2).map Prod.fst

/-- From the innermost loop outwards to one whose head has the hash, or to the outermost. None is
never: `climb_isSome`. -/
def climb (hash : BitVec 64) : Nat → Ptr g.loops → Option (Ptr g.loops)
  | 0, _ => none
  | fuel + 1, innerMost =>
    if hash ≠ g.headHash innerMost ∧ innerMost ≠ parentOf g.loops innerMost then
      climb hash fuel (parentOf g.loops innerMost)
    else some innerMost

/-- A bound for the steps outwards. -/
def height (l : Ptr g.loops) : Nat := depthOfBlock g.loops g.loops[l].head + 1

/-- The hash codes of the listed loops around `parent` that the target is outside of. -/
def exitedParents (listed : BitVec 64 → Bool) (target : Nat) : Nat → Ptr g.loops → List (BitVec 64)
  | 0, _ => []
  | fuel + 1, parent =>
    if parent ≠ parentOf g.loops parent then
      let parent := parentOf g.loops parent
      let phash := g.headHash parent
      if !g.loops[parent].isBlockIn target && listed phash then
        phash :: exitedParents listed target fuel parent
      else exitedParents listed target fuel parent
    else []

/-- The first exit of the loop that leaves a listed loop around it as well, by the hash codes of
all loops that it leaves. -/
def sharedExit (listed : BitVec 64 → Bool) (innerMost : Ptr g.loops) : Option (List (BitVec 64)) :=
  ((g.getAllBlocks innerMost).flatMap (·.targetBlocks)).findSome? fun target =>
    if g.loops[innerMost].isBlockIn target then none
    else match g.exitedParents listed target (g.height innerMost) innerMost with
      | [] => none
      | phashes => some phashes

/-- The hash codes that are rejected when the loop is looked at; with none it is found. -/
def rejects (listed : BitVec 64 → Bool) (hash : BitVec 64) (innerMost : Ptr g.loops) :
    List (BitVec 64) :=
  if (ptrs g.loops).any fun other =>
      g.hasSharedHeader innerMost other && !g.isIdenticalLoop innerMost other then [hash]
  else match g.sharedExit listed innerMost with
    | some phashes => hash :: phashes
    | none => if (g.getAllBlocks innerMost).any (·.endsWithIndirectBranch) then [hash] else []

end InterceptGraph

/-- `loopsFound` and `loopsRejected`. -/
structure Selection where
  loopsFound : List (BitVec 64 × FoundLoop)
  loopsRejected : List (BitVec 64)

/-- `loops[getLoopHash(i)] = numLoops++`: the numbers of the entries of the list. -/
def numberLoops (loopList : List (BitVec 64)) : BitVec 64 → Option Nat :=
  loopList.zipIdx.foldl (fun loops e => Function.update loops e.1 (some e.2)) fun _ => none

section Select

variable (loopList : List (BitVec 64))

/-- `loops.count(hash) > 0`. -/
def isListed (hash : BitVec 64) : Bool := (numberLoops loopList hash).isSome

/-- One exposed block. None is a failed assertion: the block is in a loop, and its hash is listed,
but it is the head of none of the loops it is in. -/
def selectRound (s : Selection) (bb : ExposedBlock) : Option Selection :=
  let g := bb.flowGraph
  let hash := g.hashOf bb.index
  if g.isBlockInLoop bb.index && isListed loopList hash then do
    let innerMost ← getInnermostLoopForBlock g.loops bb.index
    let innerMost ← g.climb hash (g.height innerMost) innerMost
    if hash ≠ g.headHash innerMost then none
    else if hash ∈ s.loopsFound.map Prod.fst ∨ hash ∈ s.loopsRejected then some s
    else match g.rejects (isListed loopList) hash innerMost with
      | [] => some { s with loopsFound := s.loopsFound ++ [(hash, ⟨g, innerMost⟩)] }
      | rejected => some { s with loopsRejected := s.loopsRejected ++ rejected }
  else some s

/-- The loops that are picked out, with their hash codes. -/
def selectLoops (exposed : List ExposedBlock) : Option (List (BitVec 64 × FoundLoop)) :=
  (exposed.foldlM (selectRound loopList) ⟨[], []⟩).map (·.loopsFound)

/-- `loopsFound` is a `std::map`: its keys, in their order. -/
def siteHashes (exposed : List ExposedBlock) : Option (List (BitVec 64)) :=
  (selectLoops loopList exposed).map fun found =>
    (found.map Prod.fst).insertionSort fun a b => a.toNat ≤ b.toNat

end Select

/-- The address of a word of the table. -/
def siteAddress (base loopHashes : BitVec 64) (site : Nat) : BitVec 64 :=
  base + loopHashes + BitVec.ofNat 64 (site * 8)

/-- The writes to the table. -/
def writeSites (loopList : List (BitVec 64)) (base loopHashes : BitVec 64)
    (hashes : List (BitVec 64)) (st : InstrumentationData) : Option InstrumentationData :=
  hashes.foldlM (fun st hash => do
    let site ← numberLoops loopList hash
    st.initializeReservedData base (siteAddress base loopHashes site)
      (ByteMemory.littleEndian 8 hash.toNat)) st

/-- What `instrument` starts from: the list, the exposed blocks, and the data section, in which
there is room for the table and whose addresses do not wrap. -/
structure Setting where
  loopList : List (BitVec 64)
  exposed : List ExposedBlock
  base : BitVec 64
  data : InstrumentationData
  ranges : List (BitVec 64 × BitVec 64)
  mem : Nat → BitVec 8
  run : InstrumentationData.Run InstrumentationData.ReserveOk base data ranges mem
  room : ∀ hashes, siteHashes loopList exposed = some hashes →
    data.usableDataOffset.toNat + 8 * hashes.length < 2 ^ 32 ∧
      data.ReserveOk (BitVec.ofNat 64 (hashes.length * 8))
  noWrap : base.toNat + 2 ^ 33 ≤ 2 ^ 64

/-- `instrument` with the loops of these hash codes leaves the data section in this state: the
number of loops is the count that is published, and the table is at `loopHashes`. -/
def Setting.Instruments (s : Setting) (hashes : List (BitVec 64)) (loopHashes : BitVec 64)
    (data : InstrumentationData) : Prop :=
  siteHashes s.loopList s.exposed = some hashes ∧
    ∃ reserved, s.data.Reserves (BitVec.ofNat 64 (hashes.length * 8)) loopHashes reserved ∧
      writeSites s.loopList s.base loopHashes hashes reserved = some data

/-- What the table is to be: `loopCount` is the number of loops. -/
structure Setting.SiteTable (s : Setting) (hashes : List (BitVec 64)) (loopHashes : BitVec 64)
    (data : InstrumentationData) : Prop where
  below : ∀ hash ∈ hashes, ∃ site, numberLoops s.loopList hash = some site ∧ site < hashes.length
  distinct : ∀ hash ∈ hashes, ∀ hash' ∈ hashes,
    numberLoops s.loopList hash = numberLoops s.loopList hash' → hash = hash'
  holds : ∀ hash ∈ hashes, ∀ site ∈ numberLoops s.loopList hash, ∀ i < 8,
    data.bytes[loopHashes.toNat + site * 8 + i]? = (ByteMemory.littleEndian 8 hash.toNat)[i]?
  inside : ∀ hash ∈ hashes, ∀ site ∈ numberLoops s.loopList hash,
    s.base.toNat + loopHashes.toNat ≤ (siteAddress s.base loopHashes site).toNat ∧
      (siteAddress s.base loopHashes site).toNat + 8 ≤
        s.base.toNat + loopHashes.toNat + hashes.length * 8

/-- `instrument` comes to its end with such a table. -/
def Setting.TableRight (s : Setting) : Prop :=
  ∃ hashes loopHashes data, s.Instruments hashes loopHashes data ∧
    s.SiteTable hashes loopHashes data

/-- Every listed hash in a loop is that of the head of one, and the loops that are picked out stand
at the front of the list, each once and not again behind. -/
def Setting.ListedFirst (s : Setting) : Prop :=
  ∃ hashes, siteHashes s.loopList s.exposed = some hashes ∧
    ∃ front back, s.loopList = front ++ back ∧ front.Nodup ∧
      (∀ hash ∈ front, hash ∈ hashes) ∧ ∀ hash ∈ back, hash ∉ hashes

end LoopIntercept

end Pebil

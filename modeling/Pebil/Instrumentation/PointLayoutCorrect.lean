import Pebil.Instrumentation.PointCover
import Pebil.Instrumentation.SwapInstructions

/-!
# When the rooms of the points are right (src/ElfFileInst.C:1165–1217, src/BasicBlock.C:244–307, 1158–1210)

`LaidOut` says what is expected of the rooms that `computeInstrumentationOffsets` gives to the
points of a bloated function: they are apart, each is made of the nops that `bloat` has put
there for its point, the points of an instruction are in the order of their priorities, and
code of the right size can be swapped into them one after the other. This is so if behind a
replacement there is at most one nop (`laidOut_bloat`).
-/

namespace Pebil

variable {ℓ : Type*}

/-- A point that is to have room. -/
def FunctionPoint.takesRoom (p : FunctionPoint) : Bool := p.instLocation != .replace

namespace InstrumentationRoom

def start (r : InstrumentationRoom) : Nat := r.address.toNat

def stop (r : InstrumentationRoom) : Nat := r.address.toNat + r.point.numberOfBytes

def Apart (r r' : InstrumentationRoom) : Prop := r.stop ≤ r'.start ∨ r'.stop ≤ r.start

/-- From one boundary to another the block has nops for the point. -/
def Covered (out : List (PlacedBlock ℓ)) (r : InstrumentationRoom) : Prop :=
  ∃ (baseAddress : BitVec 64) (instructions : List (BlockInstruction ℓ))
    (front : List (BlockCode ℓ)) (own : List Nop) (back : List (BlockCode ℓ)),
    out[r.point.block]? = some (.basic baseAddress instructions) ∧
    instructions.map (·.code) = front ++ (own.map .inr ++ back) ∧
    r.start = baseAddress.toNat + codeExtent front ∧
    (own.map Nop.length).sum = r.point.numberOfBytes ∧ ∀ nop ∈ own, nop.point = r.point.expansion

end InstrumentationRoom

/-- The bytes of an instruction or a nop. -/
def BlockCode.insnBytes : BlockCode ℓ → List (BitVec 8)
  | .inl x => x.insnBytes
  | .inr nop => emitNop nop.length

/-- A block as `swapInstructions` sees it. -/
def PlacedBlock.region : PlacedBlock ℓ → CodeRegion
  | .basic baseAddress instructions => .basic baseAddress
      (instructions.map fun c => ⟨BlockCode.insnBytes c.code, c.index, c.baseAddress⟩)
  | .raw baseAddress rawBytes => .raw baseAddress rawBytes

def CodeRegion.bytes : CodeRegion → List (BitVec 8)
  | .basic _ instructions => instructions.flatMap (·.insnBytes)
  | .raw _ rawBytes => rawBytes

/-- Code is swapped into some rooms, in any order: exactly their bytes become others. -/
def Swappable (baseAddress : BitVec 64) (regions : List CodeRegion)
    (rooms : List InstrumentationRoom) : Prop :=
  ∀ swaps : List (InstrumentationRoom × List (List (BitVec 8))),
    (swaps.map Prod.fst).Subperm rooms →
    (∀ e ∈ swaps, e.2.flatten.length = e.1.point.numberOfBytes ∧ ∀ p ∈ e.2, 0 < p.length) →
    ∃ regions', swapAll (swaps.map fun e => (e.1.address, e.2)) regions = some regions' ∧
      regions'.map (fun r => r.bytes.length) = regions.map (fun r => r.bytes.length) ∧
      regions'.flatMap CodeRegion.bytes = swaps.foldl (fun bytes e =>
        Pieces.patch bytes (e.1.start - baseAddress.toNat) e.2.flatten)
          (regions.flatMap CodeRegion.bytes)

/-- The rooms of the points of a function. -/
structure LaidOut (f : InstrumentedFunction ℓ) (out : List (PlacedBlock ℓ))
    (rooms : List InstrumentationRoom) : Prop where
  points : (rooms.map (·.point)).Perm f.instPoints
  apart : (rooms.filter (·.point.takesRoom)).Pairwise InstrumentationRoom.Apart
  covered : ∀ r ∈ rooms, r.point.takesRoom = true → r.Covered out
  priorities : ∀ r ∈ rooms, ∀ r' ∈ rooms, r.point.takesRoom = true →
    r.point.sameObject r'.point = true → r.point.instLocation = r'.point.instLocation →
    r.point.priority < r'.point.priority → r.stop ≤ r'.start
  swappable : Swappable f.baseAddress (out.map PlacedBlock.region)
    (rooms.filter (·.point.takesRoom))

namespace InstrumentedFunction

variable {f : InstrumentedFunction ℓ} {u : Disassembler} {codes : List (BlockCodes ℓ)}
  {p : FunctionPoint} {g group : List FunctionPoint} {r : FunctionPoint × Nat}

variable (f) in
/-- No instruction is replaced twice, which `computeInstrumentationOffsets` refuses. -/
def ReplacedOnce : Prop :=
  ∀ p ∈ f.instPoints,
    (f.instPoints.filter fun q => q.instLocation == .replace && p.sameObject q).length < 2

variable (f) in
/-- The points of the same instruction, for all instructions. -/
def groups : List (List FunctionPoint) := Runs.runs FunctionPoint.source f.sorted

/-- The rooms of the points on one instruction, as distances from the start of the function. -/
def groupStack (codes : List (BlockCodes ℓ)) : List FunctionPoint → List (FunctionPoint × Nat)
  | [] => []
  | p :: points => objectStack (startOf codes p) (sizeOf codes p) (p :: points)

/-! ## The points of one instruction -/

theorem mem_sorted_of_group (hg : g ∈ f.groups) (hp : p ∈ g) : p ∈ f.sorted := by
  have hflatten : f.groups.flatten = f.sorted := Runs.flatten_runs _ _
  rw [← hflatten]
  exact List.mem_flatten.mpr ⟨g, hg, hp⟩

theorem group_eq (hg : g ∈ f.groups) (hp : p ∈ g) :
    g = f.sorted.filter fun q => decide (q.source = p.source) :=
  Runs.eq_filter_of_mem f.sorted_source hg hp

theorem filter_prior (hg : g ∈ f.groups) (hp : p ∈ g) :
    g.filter (·.instLocation == .prior) = f.priors p.block p.index := by
  conv => lhs; rw [group_eq hg hp]
  unfold priors blockPoints
  rw [List.filter_filter, List.filter_filter]
  refine List.filter_congr fun q _ => ?_
  rw [Bool.eq_iff_iff]
  simp only [Bool.and_eq_true, decide_eq_true_eq, beq_iff_eq, FunctionPoint.source_eq_iff]
  tauto

theorem filter_after (hg : g ∈ f.groups) (hp : p ∈ g) :
    g.filter (·.instLocation == .after) = f.afters p.block (p.index + 1) := by
  conv => lhs; rw [group_eq hg hp]
  unfold afters blockPoints
  rw [List.filter_filter, List.filter_filter]
  refine List.filter_congr fun q _ => ?_
  rw [Bool.eq_iff_iff]
  simp only [Bool.and_eq_true, decide_eq_true_eq, beq_iff_eq, FunctionPoint.source_eq_iff,
    Nat.add_right_cancel_iff]
  tauto

theorem length_filter_replace (honce : f.ReplacedOnce) (hg : g ∈ f.groups) (hp : p ∈ g) :
    (g.filter (·.instLocation == .replace)).length < 2 := by
  have hmem : p ∈ f.instPoints := f.sorted_perm.mem_iff.mp (mem_sorted_of_group hg hp)
  have hlength := honce p hmem
  rw [← (f.sorted_perm.filter _).length_eq] at hlength
  conv at hlength => lhs; rw [← List.filter_filter]
  have hsame : f.sorted.filter (fun q => p.sameObject q) = g := by
    rw [group_eq hg hp, FunctionPoint.sameObject_eq]
    exact List.filter_congr fun q _ => by rw [decide_eq_decide, eq_comm]
  rwa [hsame] at hlength

/-- The points of a stack of rooms that take room are those before and those behind. -/
theorem mem_groupStack (hg : p :: group ∈ f.groups) (hr : r ∈ groupStack codes (p :: group))
    (hroom : r.1.takesRoom = true) :
    r ∈ stack (f.lo codes p) (f.priors p.block p.index) ∨
      r ∈ stack (startOf codes p + sizeOf codes p) (f.afters p.block (p.index + 1)) := by
  rw [groupStack, objectStack] at hr
  rw [filter_prior hg List.mem_cons_self, filter_after hg List.mem_cons_self] at hr
  rcases List.mem_append.mp hr with hr | hr
  · exact List.mem_append.mp hr
  · -- a replacement takes no room
    obtain ⟨q, hq, rfl⟩ := List.mem_map.mp hr
    rw [List.mem_filter, beq_iff_eq] at hq
    simp [FunctionPoint.takesRoom, hq.2] at hroom

/-- Some points are the prior ones, those behind and the replacements. -/
theorem perm_filter_instLocation (g : List FunctionPoint) :
    (g.filter (·.instLocation == .prior) ++ g.filter (·.instLocation == .after) ++
      g.filter (·.instLocation == .replace)).Perm g := by
  induction g with
  | nil => exact .refl _
  | cons q g ih =>
    cases hloc : q.instLocation with
    | prior => simpa [hloc] using ih
    | after =>
      rw [List.append_assoc] at ih ⊢
      have hmiddle : (g.filter (·.instLocation == .prior) ++ q ::
          (g.filter (·.instLocation == .after) ++ g.filter (·.instLocation == .replace))).Perm
        (q :: (g.filter (·.instLocation == .prior) ++
          (g.filter (·.instLocation == .after) ++ g.filter (·.instLocation == .replace)))) :=
        List.perm_middle
      simpa [hloc] using hmiddle.trans (ih.cons q)
    | replace =>
      have hmiddle : (g.filter (·.instLocation == .prior) ++
          g.filter (·.instLocation == .after) ++ q :: g.filter (·.instLocation == .replace)).Perm
        (q :: (g.filter (·.instLocation == .prior) ++ g.filter (·.instLocation == .after) ++
          g.filter (·.instLocation == .replace))) := List.perm_middle
      simpa [hloc] using hmiddle.trans (ih.cons q)

theorem map_fst_groupStack (g : List FunctionPoint) :
    ((groupStack codes g).map Prod.fst).Perm g := by
  cases g with
  | nil => exact .refl _
  | cons p points =>
    have hperm := perm_filter_instLocation (p :: points)
    rw [groupStack, objectStack, List.map_append, List.map_append, map_fst_stack, map_fst_stack,
      List.map_map]
    refine .trans (.of_eq ?_) hperm
    congr 1
    exact List.map_id _

theorem source_eq_of_group (hg : g ∈ f.groups) {q : FunctionPoint} (hp : p ∈ g) (hq : q ∈ g) :
    p.source = q.source := Runs.key_eq_of_mem hg hp hq

theorem fst_mem_of_groupStack (hr : r ∈ groupStack codes g) : r.1 ∈ g :=
  (map_fst_groupStack g).mem_iff.mp (List.mem_map_of_mem hr)

/-! ## The order of the rooms -/

/-- What holds of two points with room if the first is in front of the second: its room ends
before, and it is not of lower priority. -/
def InFront (r r' : FunctionPoint × Nat) : Prop :=
  r.1.takesRoom = true → r'.1.takesRoom = true → r.2 + r.1.numberOfBytes ≤ r'.2 ∧
    (r.1.sameObject r'.1 = true → r.1.instLocation = r'.1.instLocation →
      r.1.priority ≤ r'.1.priority)

theorem sameObject_iff {q : FunctionPoint} : p.sameObject q = true ↔ p.source = q.source := by
  rw [FunctionPoint.sameObject_eq, decide_eq_true_iff]

/-- The order of the points gives that of the priorities. -/
theorem priority_le {q : FunctionPoint} (h : p.Before q) (hsame : p.source = q.source)
    (hloc : p.instLocation = q.instLocation) : p.priority ≤ q.priority := by
  rcases h with hlt | ⟨-, hcode | ⟨-, hle⟩⟩
  · exact absurd hsame hlt.ne
  · rw [hloc] at hcode
    omega
  · exact hle

/-- Points one behind the other, in their order. -/
theorem pairwise_stack_inFront {points : List FunctionPoint} (s : Nat)
    (h : points.Pairwise FunctionPoint.Before) : (stack s points).Pairwise InFront := by
  have hbefore : (stack s points).Pairwise fun r r' => r.1.Before r'.1 := by
    rw [← List.pairwise_map (f := Prod.fst), map_fst_stack]
    exact h
  exact ((pairwise_stack s points).and hbefore).imp fun ⟨hend, hbefore⟩ _ _ =>
    ⟨hend, fun hsame hloc => priority_le hbefore (sameObject_iff.mp hsame) hloc⟩

theorem priors_before (k i : Nat) : (f.priors k i).Pairwise FunctionPoint.Before :=
  List.Pairwise.filter _ (blockPoints_before k)

theorem afters_before (k i : Nat) : (f.afters k i).Pairwise FunctionPoint.Before :=
  List.Pairwise.filter _ (blockPoints_before k)

theorem instLocation_of_priors {k i : Nat} (hp : p ∈ f.priors k i) : p.instLocation = .prior := by
  unfold priors at hp
  rw [List.mem_filter, Bool.and_eq_true, beq_iff_eq] at hp
  exact hp.2.1

theorem instLocation_of_afters {k i : Nat} (hp : p ∈ f.afters k i) : p.instLocation = .after := by
  unfold afters at hp
  rw [List.mem_filter, Bool.and_eq_true, beq_iff_eq] at hp
  exact hp.2.1

namespace Bloated

variable (h : Bloated f u codes)

include h

/-- The rooms of an instruction are between its bounds. -/
theorem bounds_of_mem (hg : p :: group ∈ f.groups) (hr : r ∈ groupStack codes (p :: group))
    (hroom : r.1.takesRoom = true) :
    f.lo codes p ≤ r.2 ∧ r.2 + r.1.numberOfBytes ≤ f.hi codes p := by
  have hon := on_of_mem_sorted (mem_sorted_of_group hg List.mem_cons_self)
  obtain ⟨l, hl, -, -, hle, hlo, -⟩ := h.lo_hi_eq hon
  have hprior : f.lo codes p + pointBytes (f.priors p.block p.index) = startOf codes p := by
    unfold lo
    omega
  rcases mem_groupStack hg hr hroom with hr | hr
  · have hbounds := bounds_of_mem_stack hr
    unfold hi
    omega
  · have hbounds := bounds_of_mem_stack hr
    unfold hi
    omega

/-- The rooms of one instruction. -/
theorem pairwise_groupStack (hg : p :: group ∈ f.groups) :
    (groupStack codes (p :: group)).Pairwise InFront := by
  have hon := on_of_mem_sorted (mem_sorted_of_group hg List.mem_cons_self)
  obtain ⟨l, hl, -, -, hle, hlo, -⟩ := h.lo_hi_eq hon
  rw [groupStack, objectStack, filter_prior hg List.mem_cons_self,
    filter_after hg List.mem_cons_self, List.append_assoc]
  refine List.pairwise_append.mpr ⟨pairwise_stack_inFront _ (priors_before _ _), ?_, ?_⟩
  · refine List.pairwise_append.mpr ⟨pairwise_stack_inFront _ (afters_before _ _), ?_, ?_⟩
    · refine List.pairwise_map.mpr (List.pairwise_of_forall_mem_list ?_)
      intro q hq q' _ hroom
      rw [List.mem_filter, beq_iff_eq] at hq
      simp [FunctionPoint.takesRoom, hq.2] at hroom
    · intro r _ r' hr' _ hroom
      obtain ⟨q, hq, rfl⟩ := List.mem_map.mp hr'
      rw [List.mem_filter, beq_iff_eq] at hq
      simp [FunctionPoint.takesRoom, hq.2] at hroom
  · intro r hr r' hr' _ hroom
    rcases List.mem_append.mp hr' with hr' | hr'
    · have hprior : r.1 ∈ f.priors p.block p.index := by
        rw [← map_fst_stack (f.priors p.block p.index)
          (startOf codes p - pointBytes (f.priors p.block p.index))]
        exact List.mem_map_of_mem hr
      have hafter : r'.1 ∈ f.afters p.block (p.index + 1) := by
        rw [← map_fst_stack (f.afters p.block (p.index + 1))
          (startOf codes p + sizeOf codes p)]
        exact List.mem_map_of_mem hr'
      have hbounds := bounds_of_mem_stack hr
      have hbounds' := bounds_of_mem_stack hr'
      refine ⟨by omega, fun _ hloc => ?_⟩
      rw [instLocation_of_priors hprior, instLocation_of_afters hafter] at hloc
      cases hloc
    · obtain ⟨q, hq, rfl⟩ := List.mem_map.mp hr'
      rw [List.mem_filter, beq_iff_eq] at hq
      simp [FunctionPoint.takesRoom, hq.2] at hroom

/-- The rooms of all points. -/
theorem pairwise_rooms : (f.groups.map (groupStack codes)).flatten.Pairwise InFront := by
  rw [List.pairwise_flatten]
  constructor
  · intro rooms hrooms
    obtain ⟨g, hg, rfl⟩ := List.mem_map.mp hrooms
    cases g with
    | nil => exact .nil
    | cons p group => exact h.pairwise_groupStack hg
  · rw [List.pairwise_map]
    refine List.Pairwise.imp_of_mem ?_ (Runs.pairwise_runs f.sorted_source)
    intro g g' hg hg' hlt r hr r' hr' hroom hroom'
    have hmem := fst_mem_of_groupStack hr
    have hmem' := fst_mem_of_groupStack hr'
    cases g with
    | nil => cases hr
    | cons p group =>
      cases g' with
      | nil => cases hr'
      | cons p' group' =>
        have hon := on_of_mem_sorted (mem_sorted_of_group hg List.mem_cons_self)
        have hon' := on_of_mem_sorted (mem_sorted_of_group hg' List.mem_cons_self)
        have hspan := h.hi_le_lo hon hon' (hlt p List.mem_cons_self p' List.mem_cons_self)
        have hend := (h.bounds_of_mem hg hr hroom).2
        have hstart := (h.bounds_of_mem hg' hr' hroom').1
        refine ⟨by omega, fun hsame _ => ?_⟩
        exact absurd (sameObject_iff.mp hsame) (hlt r.1 hmem r'.1 hmem').ne

/-! ## What the rooms are made of -/

/-- A room of a point is made of its nops. -/
theorem exists_room (hg : p :: group ∈ f.groups) (hr : r ∈ groupStack codes (p :: group))
    (hroom : r.1.takesRoom = true) : ∃ (l : List (BlockCode ℓ)) (front back : List (BlockCode ℓ)),
      codes[r.1.block]? = some (.inl l) ∧
      l = front ++ ((r.1.expansion.nops.reverse).map .inr ++ back) ∧
      r.2 = blockStart codes r.1.block + codeExtent front := by
  have hon := on_of_mem_sorted (mem_sorted_of_group hg List.mem_cons_self)
  obtain ⟨l, hl, -, hslots, -, hlo, hend⟩ := h.lo_hi_eq hon
  have hsource := source_eq_of_group hg (fst_mem_of_groupStack hr) List.mem_cons_self
  rw [(FunctionPoint.source_eq_iff.mp hsource).1]
  -- the nops of a point among those of a gap
  have hgap : ∀ i front back, Slots.slot i l = nopsOf front ++ nopsOf (r.1 :: back) →
      ∃ before behind, l = before ++ ((r.1.expansion.nops.reverse).map .inr ++ behind) ∧
        codeExtent before = gapStart l i + pointBytes front := by
    intro i front back hslot
    obtain ⟨rest, hrest⟩ := Slots.exists_eq_before l i
    refine ⟨Slots.before i l ++ (nopsOf front).map .inr, (nopsOf back).map .inr ++ rest, ?_, ?_⟩
    · conv => lhs; rw [hrest, hslot]
      simp [nopsOf]
    · rw [codeExtent_append, codeExtent_nops, sum_nopsOf, gapStart]
  rcases mem_groupStack hg hr hroom with hr | hr
  · obtain ⟨front, back, hpriors, hr2⟩ := exists_of_mem_stack hr
    have hslot := hslots p.index
    rw [hpriors, ← List.append_assoc, nopsOf_append] at hslot
    obtain ⟨before, behind, heq, hextent⟩ := hgap _ _ back hslot
    rw [pointBytes_append] at hextent
    exact ⟨l, before, behind, hl, heq, by omega⟩
  · obtain ⟨front, back, hafters, hr2⟩ := exists_of_mem_stack hr
    have hslot := hslots (p.index + 1)
    rw [hafters, List.append_assoc, List.cons_append, nopsOf_append] at hslot
    obtain ⟨before, behind, heq, hextent⟩ := hgap _ _ _ hslot
    exact ⟨l, before, behind, hl, heq, by omega⟩

end Bloated

/-! ## The loop over the points -/

theorem mapM_eq_some {α β : Type} {F : α → Option β} {G : α → β} {l : List α}
    (h : ∀ a ∈ l, F a = some (G a)) : l.mapM F = some (l.map G) := by
  induction l with
  | nil => rfl
  | cons a l ih =>
    obtain ⟨ha, hl⟩ := List.forall_mem_cons.mp h
    rw [List.mapM_cons, ha, ih hl]
    rfl

theorem computeInstrumentationOffsets_eq (h : Bloated f u codes) (honce : f.ReplacedOnce) :
    computeInstrumentationOffsets (layBlocks f.baseAddress 0 codes) f.sorted =
      some ((f.groups.map (groupStack codes)).flatten.map (roomAt f.baseAddress)) := by
  have hgroups : f.sorted.splitBy FunctionPoint.sameObject = f.groups := by
    rw [groups, Runs.runs, FunctionPoint.sameObject_eq]
  have hall : ∀ g ∈ f.groups, objectRooms (layBlocks f.baseAddress 0 codes) g =
      some ((groupStack codes g).map (roomAt f.baseAddress)) := by
    intro g hg
    cases g with
    | nil => rfl
    | cons p group =>
      have hon := on_of_mem_sorted (mem_sorted_of_group hg List.mem_cons_self)
      obtain ⟨l, x, hl, hx, -⟩ := h.exists_item hon
      obtain ⟨l', hl', -, -, hle, -, -⟩ := h.lo_hi_eq hon
      obtain ⟨index, hobject⟩ := getSourceObject_layBlocks f.baseAddress hl hx
      have hbound := h.hi_le_bound hon
      have hsmall := f.small
      rw [← startOf_eq hl] at hobject
      have hsize : BlockCode.sizeInBytes (.inl x : BlockCode ℓ) = sizeOf codes p :=
        (sizeOf_eq hl hx).symm
      unfold hi at hbound
      refine objectRooms_eq hobject rfl hsize ?_ (by omega) ?_
        (length_filter_replace honce hg List.mem_cons_self)
      · rwa [filter_prior hg List.mem_cons_self]
      · rw [filter_after hg List.mem_cons_self]
        omega
  unfold computeInstrumentationOffsets
  rw [hgroups, mapM_eq_some hall]
  simp only [Option.bind_eq_bind, Option.bind_some]
  rw [List.map_flatten, List.map_map]
  rfl

end InstrumentedFunction

end Pebil

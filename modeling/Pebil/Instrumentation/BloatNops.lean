import Pebil.Instrumentation.Bloat

/-!
# Where `bloat` puts its nops (src/BasicBlock.C:256–291)

The nops that a point asks for belong into a slot of the block: the one in front of its
instruction, the one behind it, or, for a replacement, none. `slot_expanded` and
`ordered_of_slot_sum` say when all slots get what belongs into them: a point behind an
instruction must not be followed by one before the same instruction, as its index does not
count the nops of the latter, and behind a replacement there must be at most one nop, as with
more the dummy index is within the block.
-/

namespace Pebil

/-- The slot that the nops of a point belong to. -/
def ExpansionPoint.slot (p : ExpansionPoint) : Option Nat :=
  match p.instLocation with
  | .prior => some p.index
  | .after => some (p.index + 1)
  | .replace => none

/-- The nops that belong into a slot: those of its points, in their order. -/
def wantedNops (instPoints : List ExpansionPoint) (g : Nat) : List Nop :=
  (instPoints.filter fun p => p.slot = some g).flatMap fun p => p.nops.reverse

/-- The number of nops for the points that are to have some. -/
def nopCount (instPoints : List ExpansionPoint) : Nat :=
  ((instPoints.filter fun p => p.slot.isSome).map fun p => p.nops.length).sum

/-- Behind a point with bytes for a replacement there is at most one nop. -/
def ReplaceLast (instPoints : List ExpansionPoint) : Prop :=
  ∀ p behind, p :: behind <:+ instPoints → p.instLocation = .replace → 0 < p.numberOfBytes →
    nopCount behind ≤ 1

/-- No point before an instruction follows one behind it. -/
def PriorFirst (instPoints : List ExpansionPoint) : Prop :=
  instPoints.Pairwise fun p q => p.instLocation = .after → 0 < p.numberOfBytes →
    q.index = p.index → q.instLocation = .prior → q.numberOfBytes = 0

theorem nopLengths_sum (n : Nat) : (nopLengths n).sum = n := by
  unfold nopLengths maxNopLength
  rw [List.sum_append, List.sum_replicate]
  split
  · simp
    omega
  · simp
    omega

namespace ExpansionPoint

variable {p : ExpansionPoint}

/-- The nops of a point have its bytes. -/
theorem sum_nops (p : ExpansionPoint) : (p.nops.map Nop.length).sum = p.numberOfBytes := by
  unfold nops
  rw [List.map_map]
  exact (congrArg List.sum (List.map_id _)).trans (nopLengths_sum _)

theorem point_of_mem_nops {nop : Nop} (h : nop ∈ p.nops) : nop.point = p := by
  obtain ⟨length, -, rfl⟩ := List.mem_map.mp h
  rfl

theorem nops_ne_nil (h : 0 < p.numberOfBytes) : p.nops ≠ [] := by
  intro hnil
  have hsum := p.sum_nops
  rw [hnil, List.map_nil, List.sum_nil] at hsum
  omega

theorem nops_eq_nil (h : p.numberOfBytes = 0) : p.nops = [] := by
  rw [nops, h]
  rfl

end ExpansionPoint

theorem ReplaceLast.tail {p : ExpansionPoint} {behind : List ExpansionPoint}
    (h : ReplaceLast (p :: behind)) : ReplaceLast behind :=
  fun q rest hsuffix => h q rest (hsuffix.trans (List.suffix_cons p behind))

theorem replaceLast_cons {p : ExpansionPoint} {behind : List ExpansionPoint} :
    ReplaceLast (p :: behind) ↔ (p.instLocation = .replace → 0 < p.numberOfBytes →
      nopCount behind ≤ 1) ∧ ReplaceLast behind := by
  refine ⟨fun h => ⟨h p behind (List.suffix_refl _), h.tail⟩, fun ⟨hp, h⟩ q rest hsuffix => ?_⟩
  rcases List.suffix_cons_iff.mp hsuffix with heq | hsuffix
  · obtain ⟨rfl, rfl⟩ := List.cons.inj heq
    exact hp
  · exact h q rest hsuffix

section Expand

variable {ℓ : Type*} {instructions : List (ProgramInstruction ℓ)} {p q : ExpansionPoint}
  {instPoints : List ExpansionPoint} {l : List (BlockCode ℓ)} {n i : Nat}

variable (instructions) in
/-- The block with the nops of some points, as `bloat` inserts them. -/
def expanded (instPoints : List ExpansionPoint) : List (BlockCode ℓ) :=
  expandAll instructions.length instPoints (instructions.map .inl)

variable (instructions) in
/-- The block with the nops in the slots that they belong to. -/
def wanted (instPoints : List ExpansionPoint) : List (BlockCode ℓ) :=
  instPoints.foldr (fun p l =>
    match p.slot with
    | some g => Slots.fillSlot g p.nops l
    | none => l) (instructions.map .inl)

theorem expanded_cons : expanded instructions (p :: instPoints) =
    expand p (p.expansionIndex instructions.length) (expanded instructions instPoints) := rfl

theorem items_expand : Slots.items (expand p i l) = Slots.items l := by
  unfold expand
  split
  · exact Slots.items_insertAllAt
  · rfl

theorem items_expanded : Slots.items (expanded instructions instPoints) = instructions := by
  induction instPoints with
  | nil => exact Slots.items_map_inl _
  | cons p instPoints ih => rw [expanded_cons, items_expand, ih]

theorem length_le_expanded : instructions.length ≤ (expanded instructions instPoints).length := by
  have h := Slots.items_length_le (expanded instructions instPoints)
  rwa [items_expanded] at h

variable (instPoints) in
/-- The index of a point that is to have nops is within the block. -/
theorem expand_of_slot {g : Nat} (hp : p.slot = some g) (hindex : p.index < instructions.length) :
    p.expansionIndex instructions.length = g ∧
      g ≤ (expanded instructions instPoints).length ∧
      expanded instructions (p :: instPoints) =
        Slots.insertAllAt g p.nops (expanded instructions instPoints) := by
  have hlength : instructions.length ≤ (expanded instructions instPoints).length :=
    length_le_expanded
  have hg : p.expansionIndex instructions.length = g ∧ g ≤ p.index + 1 := by
    unfold ExpansionPoint.slot at hp
    unfold ExpansionPoint.expansionIndex
    cases hloc : p.instLocation <;> simp only [hloc] at hp ⊢
    · obtain rfl := Option.some.inj hp
      omega
    · obtain rfl := Option.some.inj hp
      omega
    · cases hp
  refine ⟨hg.1, by omega, ?_⟩
  rw [expanded_cons, hg.1, expand, if_pos (by omega)]

variable (instructions instPoints) in
/-- A replacement gets nops exactly if the block is long enough for its dummy index. -/
theorem expand_of_replace (hp : p.slot = none) :
    p.instLocation = .replace ∧
    expanded instructions (p :: instPoints) =
      if instructions.length + 1 < (expanded instructions instPoints).length then
        Slots.insertAllAt (instructions.length + 2) p.nops
          (expanded instructions instPoints)
      else expanded instructions instPoints := by
  have hloc : p.instLocation = .replace := by
    unfold ExpansionPoint.slot at hp
    cases hloc : p.instLocation <;> simp only [hloc] at hp ⊢ <;> cases hp
  refine ⟨hloc, ?_⟩
  rw [expanded_cons, ExpansionPoint.expansionIndex, hloc, expand]
  simp only
  refine if_congr ?_ rfl rfl
  omega

/-! ## The block as it should be -/

theorem wanted_cons : wanted instructions (p :: instPoints) =
    match p.slot with
    | some g => Slots.fillSlot g p.nops (wanted instructions instPoints)
    | none => wanted instructions instPoints := rfl

theorem items_wanted : Slots.items (wanted instructions instPoints) = instructions := by
  induction instPoints with
  | nil => exact Slots.items_map_inl _
  | cons p instPoints ih =>
    rw [wanted_cons]
    split
    · rw [Slots.items_fillSlot, ih]
    · exact ih

variable (instPoints) in
theorem slot_le {g : Nat} (hp : p.slot = some g) (hindex : p.index < instructions.length) :
    g ≤ (Slots.items (wanted instructions instPoints)).length := by
  rw [items_wanted]
  unfold ExpansionPoint.slot at hp
  cases hloc : p.instLocation <;> simp only [hloc] at hp
  · obtain rfl := Option.some.inj hp
    omega
  · obtain rfl := Option.some.inj hp
    omega
  · cases hp

theorem slot_wanted (hindex : ∀ p ∈ instPoints, p.index < instructions.length) (g : Nat) :
    Slots.slot g (wanted instructions instPoints) = wantedNops instPoints g := by
  induction instPoints with
  | nil => exact Slots.slot_map_inl _
  | cons p instPoints ih =>
    obtain ⟨hp, hrest⟩ := List.forall_mem_cons.mp hindex
    rw [wanted_cons]
    unfold wantedNops at ih ⊢
    cases hslot : p.slot with
    | none => simp [hslot, ih hrest]
    | some g' =>
      simp only
      rw [Slots.slot_fillSlot (slot_le instPoints hslot hp), ih hrest]
      by_cases heq : g = g'
      · simp [hslot, heq]
      · rw [if_neg heq, List.filter_cons_of_neg]
        simp [hslot, Ne.symm heq]

/-! ## From the order of the points to the nops -/

theorem length_insert_nops (h : expanded instructions (p :: instPoints) =
    Slots.insertAllAt i p.nops (expanded instructions instPoints)) :
    (expanded instructions (p :: instPoints)).length =
      (expanded instructions instPoints).length + p.nops.length := by
  rw [h, Slots.length_insertAllAt]

/-- As long as replacements are last, the block has the nops that were asked for. -/
theorem length_expanded (hindex : ∀ p ∈ instPoints, p.index < instructions.length)
    (h : ReplaceLast instPoints) :
    (expanded instructions instPoints).length = instructions.length + nopCount instPoints := by
  induction instPoints with
  | nil => simp [expanded, expandAll, nopCount]
  | cons p instPoints ih =>
    obtain ⟨hp, hrest⟩ := List.forall_mem_cons.mp hindex
    obtain ⟨hlast, htail⟩ := replaceLast_cons.mp h
    have hlength := ih hrest htail
    cases hslot : p.slot with
    | some g =>
      obtain ⟨-, -, heq⟩ := expand_of_slot instPoints hslot hp
      rw [length_insert_nops heq, hlength]
      simp [nopCount, hslot]
      omega
    | none =>
      obtain ⟨hloc, heq⟩ := expand_of_replace instructions instPoints hslot
      have hcount : nopCount (p :: instPoints) = nopCount instPoints := by
        simp [nopCount, hslot]
      rw [heq, hcount, hlength]
      split
      · rename_i hlong
        rcases Nat.eq_zero_or_pos p.numberOfBytes with hzero | hpos
        · rw [ExpansionPoint.nops_eq_nil hzero, Slots.insertAllAt, List.foldl_nil, hlength]
        · have := hlast hloc hpos
          omega
      · exact hlength

/-- Points in order put their nops where they belong, and leave the block in front of the
first of their slots as it is. -/
theorem expanded_eq_wanted (hindex : ∀ p ∈ instPoints, p.index < instructions.length)
    (hsorted : instPoints.Pairwise fun p q => p.index ≤ q.index)
    (hreplace : ReplaceLast instPoints) (hprior : PriorFirst instPoints) :
    expanded instructions instPoints = wanted instructions instPoints ∧
      ∀ i ≤ instructions.length, (∀ p ∈ instPoints, 0 < p.numberOfBytes → ∀ g, p.slot = some g →
        i ≤ g) → (expanded instructions instPoints).take i = (instructions.take i).map .inl := by
  induction instPoints with
  | nil => exact ⟨rfl, fun i _ _ => List.map_take.symm⟩
  | cons p instPoints ih =>
    obtain ⟨hp, hrest⟩ := List.forall_mem_cons.mp hindex
    obtain ⟨hle, hsorted⟩ := List.pairwise_cons.mp hsorted
    obtain ⟨hlast, htail⟩ := replaceLast_cons.mp hreplace
    obtain ⟨hfirst, hprior⟩ := List.pairwise_cons.mp hprior
    obtain ⟨heq, htake⟩ := ih hrest hsorted htail hprior
    have hlength := length_expanded hrest htail
    cases hslot : p.slot with
    | some g =>
      obtain ⟨-, hg, hinsert⟩ := expand_of_slot instPoints hslot hp
      rcases Nat.eq_zero_or_pos p.numberOfBytes with hzero | hpos
      · -- nothing is inserted
        rw [hinsert, wanted_cons, hslot, ExpansionPoint.nops_eq_nil hzero]
        refine ⟨heq, fun i hi hbehind => htake i hi fun q hq => ?_⟩
        exact hbehind q (List.mem_cons_of_mem p hq)
      · have hgi : g ≤ instructions.length := by
          have := slot_le instPoints hslot hp
          rwa [items_wanted] at this
        -- the slots of the points behind are not before this one
        have hbehind : ∀ q ∈ instPoints, 0 < q.numberOfBytes → ∀ g', q.slot = some g' →
            g ≤ g' := by
          intro q hq hqpos g' hg'
          have hpq := hle q hq
          have hnot := hfirst q hq
          unfold ExpansionPoint.slot at hslot hg'
          cases hlocp : p.instLocation <;> cases hlocq : q.instLocation <;>
            simp only [hlocp, hlocq, Option.some.injEq, reduceCtorEq] at hslot hg'
          · omega
          · omega
          · have : q.index ≠ p.index := fun hsame => by
              have := hnot hlocp hpos hsame hlocq
              omega
            omega
          · omega
        have htakeg := htake g hgi hbehind
        refine ⟨?_, fun i hi hall => ?_⟩
        · rw [hinsert, wanted_cons, hslot, Slots.insertAllAt_eq_fillSlot htakeg hg, heq]
        · have hig := hall p List.mem_cons_self hpos g hslot
          rw [hinsert, Slots.take_insertAllAt hig hg]
          exact htake i hi fun q hq => hall q (List.mem_cons_of_mem p hq)
    | none =>
      obtain ⟨hloc, hinsert⟩ := expand_of_replace instructions instPoints hslot
      have hsame : expanded instructions (p :: instPoints) = expanded instructions instPoints := by
        rw [hinsert]
        split
        · rcases Nat.eq_zero_or_pos p.numberOfBytes with hzero | hpos
          · rw [ExpansionPoint.nops_eq_nil hzero]
            rfl
          · have := hlast hloc hpos
            omega
        · rfl
      rw [hsame, wanted_cons, hslot]
      refine ⟨heq, fun i hi hall => htake i hi fun q hq => ?_⟩
      exact hall q (List.mem_cons_of_mem p hq)

/-! ## From the nops to the order of the points -/

/-- A point before an instruction that has bytes leaves a nop at its index. -/
theorem exists_nop (hindex : ∀ p ∈ instPoints, p.index < instructions.length)
    (hle : ∀ p ∈ instPoints, i ≤ p.index) (hq : q ∈ instPoints) (hqi : q.index = i)
    (hprior : q.instLocation = .prior) (hpos : 0 < q.numberOfBytes) :
    ∃ len, (expanded instructions instPoints)[i]? = some (.inr len) := by
  induction instPoints with
  | nil => cases hq
  | cons p instPoints ih =>
    obtain ⟨hp, hrest⟩ := List.forall_mem_cons.mp hindex
    obtain ⟨hip, hle⟩ := List.forall_mem_cons.mp hle
    have hlength : instructions.length ≤ (expanded instructions instPoints).length :=
      length_le_expanded
    rcases List.mem_cons.mp hq with rfl | hq
    · have hslot : q.slot = some i := by rw [ExpansionPoint.slot, hprior, hqi]
      obtain ⟨-, hg, hinsert⟩ := expand_of_slot instPoints hslot hp
      rw [hinsert]
      exact Slots.getElem?_insertAllAt hg (ExpansionPoint.nops_ne_nil hpos)
    · have hsame := ih hrest hle hq
      -- what is inserted at `i` is a nop too, and nothing is inserted before it
      cases hslot : p.slot with
      | some g =>
        obtain ⟨hidx, hg, hinsert⟩ := expand_of_slot instPoints hslot hp
        rw [hinsert]
        have hig : i ≤ g := by
          unfold ExpansionPoint.expansionIndex at hidx
          unfold ExpansionPoint.slot at hslot
          cases hloc : p.instLocation <;> simp only [hloc, reduceCtorEq] at hidx hslot <;> omega
        rcases Nat.lt_or_eq_of_le hig with hlt | rfl
        · rw [Slots.getElem?_insertAllAt_of_lt hlt hg]
          exact hsame
        · rcases Nat.eq_zero_or_pos p.numberOfBytes with hzero | hppos
          · rw [ExpansionPoint.nops_eq_nil hzero]
            exact hsame
          · exact Slots.getElem?_insertAllAt hg (ExpansionPoint.nops_ne_nil hppos)
      | none =>
        obtain ⟨-, hinsert⟩ := expand_of_replace instructions instPoints hslot
        rw [hinsert]
        split
        · rename_i hlong
          rw [Slots.getElem?_insertAllAt_of_lt (by omega) (by omega)]
          exact hsame
        · exact hsame

/-- The nops of a block: its bytes of nops, and how far behind they are. -/
def nopBytes (l : List (BlockCode ℓ)) : Nat := Slots.total Nop.length l

def nopWeight (l : List (BlockCode ℓ)) : Nat := Slots.weight Nop.length 0 l

/-- The nops that are wanted have no more bytes than all points ask for. -/
theorem nopBytes_wanted_le (hindex : ∀ p ∈ instPoints, p.index < instructions.length) :
    nopBytes (wanted instructions instPoints) ≤
      (instPoints.map fun p => p.numberOfBytes).sum := by
  unfold nopBytes
  induction instPoints with
  | nil =>
    have hnone : ∀ l : List (ProgramInstruction ℓ),
        Slots.total Nop.length (l.map (.inl : _ → BlockCode ℓ)) = 0 := by
      intro l
      induction l with
      | nil => rfl
      | cons x l ih => exact ih
    exact (hnone _).le
  | cons p instPoints ih =>
    obtain ⟨hp, hrest⟩ := List.forall_mem_cons.mp hindex
    have ih := ih hrest
    rw [wanted_cons, List.map_cons, List.sum_cons]
    cases hslot : p.slot with
    | some g =>
      simp only
      rw [Slots.total_fillSlot (slot_le instPoints hslot hp), p.sum_nops]
      omega
    | none =>
      simp only
      omega

/-- The block never has fewer bytes of nops than it should. With as many, no replacement has
got nops, and then none of the nops is too far behind; if all of them are as far behind as
they should be, points are in order. -/
theorem weight_expanded_le (hindex : ∀ p ∈ instPoints, p.index < instructions.length)
    (hsorted : instPoints.Pairwise fun p q => p.index ≤ q.index) :
    nopBytes (wanted instructions instPoints) ≤ nopBytes (expanded instructions instPoints) ∧
      (nopBytes (expanded instructions instPoints) = nopBytes (wanted instructions instPoints) →
        ReplaceLast instPoints ∧
        nopWeight (expanded instructions instPoints) ≤ nopWeight (wanted instructions instPoints) ∧
        (nopWeight (expanded instructions instPoints) =
          nopWeight (wanted instructions instPoints) → PriorFirst instPoints)) := by
  induction instPoints with
  | nil =>
    refine ⟨Nat.le_refl _, fun _ => ⟨?_, Nat.le_refl _, fun _ => .nil⟩⟩
    intro p behind hsuffix
    simp at hsuffix
  | cons p instPoints ih =>
    obtain ⟨hp, hrest⟩ := List.forall_mem_cons.mp hindex
    obtain ⟨hle, hsorted⟩ := List.pairwise_cons.mp hsorted
    obtain ⟨htotal, hequal⟩ := ih hrest hsorted
    have hsum := p.sum_nops
    unfold nopBytes nopWeight at *
    cases hslot : p.slot with
    | some g =>
      obtain ⟨hidx, hg, hinsert⟩ := expand_of_slot instPoints hslot hp
      have hgw := slot_le instPoints hslot hp
      have hnotReplace : p.instLocation ≠ .replace := by
        intro hloc
        simp [ExpansionPoint.slot, hloc] at hslot
      have hcount := Slots.items_length_le ((expanded instructions instPoints).take g)
      have hmin := List.length_take_le g (expanded instructions instPoints)
      rw [hinsert, wanted_cons, hslot]
      simp only
      rw [Slots.total_insertAllAt, Slots.total_fillSlot hgw, Slots.weight_insertAllAt hg,
        Slots.weight_fillSlot hgw, hsum]
      refine ⟨by omega, fun heq => ?_⟩
      obtain ⟨hlast, hweight, hfirst⟩ := hequal (by omega)
      have hmul : (Slots.items ((expanded instructions instPoints).take g)).length *
          p.numberOfBytes ≤ g * p.numberOfBytes := Nat.mul_le_mul_right _ (by omega)
      refine ⟨replaceLast_cons.mpr ⟨fun hloc => absurd hloc hnotReplace, hlast⟩, by omega,
        fun hweq => List.pairwise_cons.mpr ⟨?_, hfirst (by omega)⟩⟩
      intro q hq hloc hpos hsame hqprior
      by_contra hqpos
      -- in front of index `g` there are only instructions, but the nop of `q` is there
      have hlength := Nat.eq_of_mul_eq_mul_right hpos (by omega : (Slots.items
        ((expanded instructions instPoints).take g)).length * p.numberOfBytes =
          g * p.numberOfBytes)
      have htake := Slots.take_eq_of_items hg hlength
      obtain ⟨len, hnop⟩ := exists_nop hrest hle hq hsame hqprior (by omega)
      have hg' : g = p.index + 1 := by
        rw [ExpansionPoint.slot, hloc] at hslot
        exact (Option.some.inj hslot).symm
      have hget : ((expanded instructions instPoints).take g)[p.index]? = some (.inr len) := by
        rw [List.getElem?_take, if_pos (by omega), hnop]
      rw [htake, List.getElem?_map] at hget
      cases hitem : (Slots.items ((expanded instructions instPoints).take g))[p.index]? <;>
        simp [hitem] at hget
    | none =>
      obtain ⟨hloc, hinsert⟩ := expand_of_replace instructions instPoints hslot
      have hnotAfter : p.instLocation ≠ .after := by
        rw [hloc]
        exact nofun
      have hprior : PriorFirst instPoints → PriorFirst (p :: instPoints) := fun h =>
        List.pairwise_cons.mpr ⟨fun q _ hafter => absurd hafter hnotAfter, h⟩
      rw [hinsert, wanted_cons, hslot]
      simp only
      split
      · rename_i hlong
        rw [Slots.total_insertAllAt, hsum]
        refine ⟨by omega, fun heq => ?_⟩
        obtain ⟨hlast, hweight, hfirst⟩ := hequal (by omega)
        have hzero : p.numberOfBytes = 0 := by omega
        rw [ExpansionPoint.nops_eq_nil hzero]
        refine ⟨replaceLast_cons.mpr ⟨fun _ hpos => absurd hpos (by omega), hlast⟩, hweight, ?_⟩
        exact fun hweq => hprior (hfirst hweq)
      · rename_i hshort
        refine ⟨htotal, fun heq => ?_⟩
        obtain ⟨hlast, hweight, hfirst⟩ := hequal heq
        have hlength := length_expanded hrest hlast
        refine ⟨replaceLast_cons.mpr ⟨fun _ _ => by omega, hlast⟩, hweight, ?_⟩
        exact fun hweq => hprior (hfirst hweq)

/-- With the replacements last and the points in order, every slot has the nops that belong
into it. -/
theorem slot_expanded (hindex : ∀ p ∈ instPoints, p.index < instructions.length)
    (hsorted : instPoints.Pairwise fun p q => p.index ≤ q.index)
    (hlast : ReplaceLast instPoints) (hfirst : PriorFirst instPoints) (g : Nat) :
    Slots.slot g (expanded instructions instPoints) = wantedNops instPoints g := by
  rw [(expanded_eq_wanted hindex hsorted hlast hfirst).1, slot_wanted hindex]

/-- If every slot has as many bytes of nops as belong into it, then the replacements are last
and the points in order. -/
theorem ordered_of_slot_sum (hindex : ∀ p ∈ instPoints, p.index < instructions.length)
    (hsorted : instPoints.Pairwise fun p q => p.index ≤ q.index)
    (h : ∀ g, ((Slots.slot g (expanded instructions instPoints)).map Nop.length).sum =
      ((wantedNops instPoints g).map Nop.length).sum) : ReplaceLast instPoints ∧ PriorFirst instPoints := by
  have htotal : nopBytes (expanded instructions instPoints) =
      nopBytes (wanted instructions instPoints) := by
    unfold nopBytes
    rw [Slots.total_eq_sum, Slots.total_eq_sum, items_expanded, items_wanted]
    simp only [h, slot_wanted hindex]
  have hweight : nopWeight (expanded instructions instPoints) =
      nopWeight (wanted instructions instPoints) := by
    unfold nopWeight
    rw [Slots.weight_eq_sum, Slots.weight_eq_sum, items_expanded, items_wanted]
    simp only [h, slot_wanted hindex]
  obtain ⟨hlast, -, hfirst⟩ := (weight_expanded_le hindex hsorted).2 htotal
  exact ⟨hlast, hfirst hweight⟩

end Expand

end Pebil

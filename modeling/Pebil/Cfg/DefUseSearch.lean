import Pebil.Cfg.DefUsePaths

/-!
# What the search for uses finds

`Tracks` relates the variables of `singleDefUse` to the paths of the `PathSearch`: the queue holds
the pending ones, and a block is touched when a path has entered it. A turn pops a path and pushes
what follows it (`searchStep_spec`), so that the paths keep their invariant.
-/

namespace Pebil

open PathSearch

/-- The instructions that control leaves for a target in the function. -/
theorem FlowInstruction.isBranch_eq (x : FlowInstruction) :
    (x.usesControlTarget && !x.isCall) = x.isBranch := by
  unfold X86Instruction.usesControlTarget X86Instruction.isCall X86Instruction.isBranch
    X86Instruction.isConditionalBranch X86Instruction.isUnconditionalBranch
    X86Instruction.isFunctionCall X86Instruction.isSystemCall
  cases x.itype <;> rfl

section Lists

variable {list1 list2 useList : List DefLocation} {d : DefLocation}

theorem anyDefsAreUsed_iff : anyDefsAreUsed list1 useList = true ↔
    ∃ d ∈ list1, anyDefsAreUsed [d] useList = true := by
  simp [anyDefsAreUsed]

theorem removeInvalidated_eq_none : removeInvalidated list1 list2 = none ↔
    ∀ d ∈ list1, list2.any d.invalidatedBy = true := by
  unfold removeInvalidated
  dsimp only
  split
  next h => simpa using h
  next h =>
    refine iff_of_false (by split <;> exact nofun) ?_
    simpa using h

/-- What is left are the definitions that are not invalidated. -/
theorem mem_removeInvalidated {newdefs : List DefLocation}
    (h : removeInvalidated list1 list2 = some newdefs) :
    d ∈ newdefs ↔ d ∈ list1 ∧ list2.any d.invalidatedBy = false := by
  have hmem : d ∈ (list1.filter fun def1 => !list2.any def1.invalidatedBy).reverse ↔
      d ∈ list1 ∧ list2.any d.invalidatedBy = false := by
    rw [List.mem_reverse, List.mem_filter, Bool.not_eq_true']
  unfold removeInvalidated at h
  dsimp only at h
  split at h
  next => cases h
  next =>
    split at h
    next hlen =>
      -- nothing was invalidated
      rw [List.length_reverse] at hlen
      rw [← Option.some.inj h, ← hmem, List.mem_reverse, List.filter_eq_self.mpr]
      exact List.length_filter_eq_length_iff.mp hlen
    next => rw [← Option.some.inj h, hmem]

theorem removeInvalidated_ne_nil {newdefs : List DefLocation}
    (h : removeInvalidated list1 list2 = some newdefs) : ∃ d, d ∈ newdefs := by
  by_contra hnot
  have hnone : removeInvalidated list1 list2 = none := by
    refine removeInvalidated_eq_none.mpr fun d hd => ?_
    by_contra hkept
    exact hnot ⟨d, (mem_removeInvalidated h).mpr ⟨hd, Bool.eq_false_iff.mpr hkept⟩⟩
  rw [hnone] at h
  cases h

end Lists

namespace DefUseGraph

variable {g : DefUseGraph} {lp : Option DefUseLoop} {l root a b : Location}
  {h : g.firstPath lp l = some root} {r : List Location} {d : DefLocation}

/-! ## Paths as the search keeps them -/

/-- The definitions that are alive at the end of a path. -/
def aliveDefs (g : DefUseGraph) (l : Location) : List Location → List DefLocation
  | [] => []
  | [_] => g.defsAt l
  | _ :: a :: r => (removeInvalidated (aliveDefs g l (a :: r)) (g.defsAt a)).getD []

theorem kills_eq : g.kills a d = (g.defsAt a).any d.invalidatedBy := by
  unfold kills defsAt
  cases g.instruction? a <;> rfl

/-- Alive are the definitions that no instruction before the last one kills. -/
theorem mem_aliveDefs : d ∈ g.aliveDefs l (a :: r) ↔ (g.search lp l root h).Survives r d := by
  induction r generalizing a with
  | nil => exact ⟨fun hd => ⟨hd, nofun⟩, fun hd => hd.1⟩
  | cons b r ih =>
    rw [survives_cons, ← ih (a := b), aliveDefs]
    show _ ↔ g.kills b d = false ∧ _
    rw [kills_eq]
    cases hnew : removeInvalidated (g.aliveDefs l (b :: r)) (g.defsAt b) with
    | none =>
      refine iff_of_false List.not_mem_nil fun hd => ?_
      have hkilled := removeInvalidated_eq_none.mp hnew d hd.2
      rw [hd.1] at hkilled
      cases hkilled
    | some newdefs => rw [Option.getD_some, mem_removeInvalidated hnew, and_comm]

/-- What the search tests at the end of a path. -/
theorem used_iff {x : FlowInstruction} (hx : g.instruction? a = some x) :
    anyDefsAreUsed (g.aliveDefs l (a :: r)) x.getUses = true ↔
      (g.search lp l root h).Used (a :: r) := by
  have huses : ∀ d, g.uses a d = anyDefsAreUsed [d] x.getUses := fun d => by
    rw [uses, hx, Option.any_some]
  rw [anyDefsAreUsed_iff]
  constructor
  · rintro ⟨d, hd, hused⟩
    exact ⟨a, d, rfl, mem_aliveDefs.mp hd, (huses d).trans hused⟩
  · rintro ⟨a', d, ha, hd, hused⟩
    obtain rfl := Option.some.inj ha
    exact ⟨d, mem_aliveDefs.mpr hd, (huses d).symm.trans hused⟩

/-- A path as it is queued. -/
def queued (S : PathSearch Location DefLocation) (g : DefUseGraph) (l : Location)
    (r : List Location) : DefUsePath × Nat :=
  (⟨r.headD ⟨0, 0⟩, g.aliveDefs l r⟩, S.cost r)

/-- The variables of the search are those of the paths. -/
structure Tracks (S : PathSearch Location DefLocation) (g : DefUseGraph) (l : Location)
    (st : DefUseSearch) (c : Frontier Location) : Prop where
  queue : st.paths.Perm (c.pending.map (queued S g l))
  ordered : BinaryHeap.Ordered Prod.snd st.paths
  touched : ∀ b, b ∈ st.blockTouched ↔ ∃ q ≠ [], ⟨b, 0⟩ :: q ∈ c.entries

/-! ## Pushing -/

/-- What pushing the instructions `cs` of `ls` does to the variables. -/
structure Pushes (S : PathSearch Location DefLocation) (newdefs : List DefLocation) (currDist : Nat)
    (ls cs : List Location) (st st' : DefUseSearch) : Prop where
  queue : st'.paths.Perm (cs.map (fun a => (⟨a, newdefs⟩, currDist + 1 + S.penalty a)) ++ st.paths)
  ordered : BinaryHeap.Ordered Prod.snd st.paths → BinaryHeap.Ordered Prod.snd st'.paths
  touched : ∀ b, b ∈ st'.blockTouched ↔ b ∈ st.blockTouched ∨ ⟨b, 0⟩ ∈ cs
  dist : st'.defUseDist = st.defUseDist
  nodup : cs.Nodup
  sub : ∀ a ∈ cs, a ∈ ls ∧ (a.pos = 0 → a.block ∉ st.blockTouched)
  complete : ∀ a ∈ ls, a ∈ cs ∨ a.pos = 0 ∧ a.block ∈ st.blockTouched

namespace Pushes

variable {S : PathSearch Location DefLocation} {newdefs : List DefLocation} {currDist : Nat}
  {ls ls' cs cs' : List Location} {st st' st'' : DefUseSearch}

theorem nil : Pushes S newdefs currDist [] [] st st where
  queue := .refl _
  ordered := id
  touched b := by simp
  dist := rfl
  nodup := .nil
  sub := nofun
  complete := nofun

theorem insert (ha : a.pos ≠ 0) (hpen : S.penalty a = 0) :
    Pushes S newdefs currDist [a] [a] st (st.insert ⟨a, newdefs⟩ (currDist + 1)) where
  queue := by
    rw [List.map_singleton, hpen]
    exact BinaryHeap.insert_perm _ _
  ordered := BinaryHeap.insert_ordered
  touched b := by
    refine (or_iff_left fun hb => ha ?_).symm
    rw [← List.mem_singleton.mp hb]
  dist := rfl
  nodup := List.nodup_singleton a
  sub a' ha' := ⟨ha', fun h => absurd (List.mem_singleton.mp ha' ▸ h) ha⟩
  complete a' ha' := .inl ha'

/-- Leaders that were pushed first are not pushed again. -/
theorem trans (hp : Pushes S newdefs currDist ls cs st st')
    (hp' : Pushes S newdefs currDist ls' cs' st' st'') (hlead : ∀ a ∈ ls, a.pos = 0) :
    Pushes S newdefs currDist (ls ++ ls') (cs' ++ cs) st st'' where
  queue := by
    rw [List.map_append, List.append_assoc]
    exact hp'.queue.trans (hp.queue.append_left _)
  ordered hst := hp'.ordered (hp.ordered hst)
  touched b := by
    rw [hp'.touched, hp.touched, List.mem_append]
    tauto
  dist := hp'.dist.trans hp.dist
  nodup := by
    refine List.nodup_append.mpr ⟨hp'.nodup, hp.nodup, ?_⟩
    rintro ⟨b, j⟩ ha' _ ha rfl
    obtain rfl : j = 0 := hlead _ (hp.sub _ ha).1
    exact (hp'.sub _ ha').2 rfl ((hp.touched b).mpr (.inr ha))
  sub a ha := by
    rcases List.mem_append.mp ha with ha | ha
    · obtain ⟨hmem, htouched⟩ := hp'.sub a ha
      exact ⟨List.mem_append_right _ hmem, fun hpos hold =>
        htouched hpos ((hp.touched _).mpr (.inl hold))⟩
    · exact ⟨List.mem_append_left _ (hp.sub a ha).1, (hp.sub a ha).2⟩
  complete a ha := by
    rcases List.mem_append.mp ha with ha | ha
    · exact (hp.complete a ha).imp_left (List.mem_append_right _)
    · rcases hp'.complete a ha with hcs | ⟨hpos, htouched⟩
      · exact .inl (List.mem_append_left _ hcs)
      · rcases (hp.touched _).mp htouched with hold | hcs
        · exact .inr ⟨hpos, hold⟩
        · refine .inl (List.mem_append_right _ ?_)
          rw [show a = ⟨a.block, 0⟩ by rw [← hpos]]
          exact hcs

end Pushes

/-- The loops of a search are those of the graph. -/
def InLoops (g : DefUseGraph) (lp : Option DefUseLoop) : Prop := ∀ lp', lp = some lp' → lp' ∈ g.loops

/-- The loop's head is told by its address. -/
theorem blockAddress_eq_loopLeader (hlp : g.InLoops lp) (hb : g.Valid ⟨b.block, 0⟩) :
    g.blockAddress b.block = g.loopLeader lp ↔ (g.search lp l root h).head = some ⟨b.block, 0⟩ := by
  obtain ⟨x, hx⟩ := FlowGraph.valid_iff.mp hb
  have haddr : g.blockAddress b.block = x.baseAddress := by rw [blockAddress, hx]; rfl
  show _ ↔ lp.map (fun lp => Location.mk lp.head 0) = _
  rw [haddr]
  cases lp with
  | none => exact iff_of_false (g.positive _ x hx) nofun
  | some lp =>
    obtain ⟨y, hy⟩ := Option.isSome_iff_exists.mp (g.heads lp (hlp lp rfl))
    have hleader : g.loopLeader (some lp) = y.baseAddress := by
      rw [loopLeader, blockAddress, hy]
      rfl
    rw [hleader, Option.map_some, Option.some.injEq]
    constructor
    · exact fun heq => (place_unique hx hy heq).symm
    · intro heq
      rw [heq, hx] at hy
      rw [Option.some.inj hy]

variable {newdefs : List DefLocation} {currDist : Nat} {st : DefUseSearch} {x : FlowInstruction}

theorem pushes_enterBlock (hlp : g.InLoops lp) (hb : g.Valid ⟨b.block, 0⟩) :
    ∃ cs, Pushes (g.search lp l root h) newdefs currDist [⟨b.block, 0⟩] cs st
      (g.enterBlock lp newdefs currDist b.block st) := by
  unfold enterBlock
  split
  next htouched =>
    refine ⟨[], .refl _, id, fun b => by simp, rfl, .nil, nofun, fun a ha => .inr ?_⟩
    rw [List.mem_singleton.mp ha]
    exact ⟨rfl, List.contains_iff_mem.mp htouched⟩
  next hfresh =>
    have hcost : (if g.blockAddress b.block = g.loopLeader lp then
        loopXDefUseDist (currDist + 1) g.numberOfInstructions else currDist + 1) =
        currDist + 1 + (g.search lp l root h).penalty ⟨b.block, 0⟩ := by
      simp only [blockAddress_eq_loopLeader (h := h) hlp hb, penalty, loopXDefUseDist]
      split <;> rfl
    refine ⟨[⟨b.block, 0⟩], ?_, BinaryHeap.insert_ordered, fun b' => ?_, rfl,
      List.nodup_singleton _, fun a ha => ⟨ha, fun _ => ?_⟩, fun a ha => .inl ha⟩
    · rw [hcost]
      exact BinaryHeap.insert_perm _ _
    · show b' ∈ b.block :: st.blockTouched ↔ _
      rw [List.mem_cons, List.mem_singleton, Location.mk.injEq, and_iff_left rfl, or_comm]
    · rw [List.mem_singleton.mp ha]
      exact fun hold => hfresh (List.contains_iff_mem.mpr hold)

theorem pushes_followBranch (hlp : g.InLoops lp) (hx : g.instruction? a = some x) :
    ∃ cs, Pushes (g.search lp l root h) newdefs currDist
      ((if x.isBranch then ((g.instructionAt x.targetAddress).map fun t =>
        Location.mk t.block 0).toList else []).filter fun t => flowsInDefUseScope t.block lp) cs st
      (g.followBranch lp x newdefs currDist st) := by
  unfold followBranch
  rw [x.isBranch_eq]
  split
  next hbranch =>
    cases ht : g.instructionAt x.targetAddress with
    | none => exact ⟨[], .nil⟩
    | some t =>
      obtain ⟨y, hy, hcovers⟩ := instructionAt_eq_some.mp ht
      have hpos := (g.branchTargets a t x y hx hy hbranch hcovers).1
      have hvalid : g.Valid ⟨t.block, 0⟩ := FlowGraph.valid_iff.mpr ⟨y, by rw [← hpos]; exact hy⟩
      dsimp only [Option.map_some, Option.toList_some]
      split
      next hin =>
        rw [show List.filter _ [Location.mk t.block 0] = [⟨t.block, 0⟩] by simp [hin]]
        exact pushes_enterBlock hlp hvalid
      next hout =>
        rw [show List.filter _ [Location.mk t.block 0] = [] by simp [hout]]
        exact ⟨[], .nil⟩
  next => exact ⟨[], .nil⟩

theorem pushes_followFallThrough (hlp : g.InLoops lp) :
    ∃ cs, Pushes (g.search lp l root h) newdefs currDist
      ((if x.controlFallsThrough then (g.instructionAt x.endAddress).toList else []).filter
        fun t => flowsInDefUseScope t.block lp) cs st
      (g.followFallThrough lp x newdefs currDist st) := by
  unfold followFallThrough
  split
  next hfall =>
    cases ht : g.instructionAt x.endAddress with
    | none => exact ⟨[], .nil⟩
    | some t =>
      obtain ⟨y, hy, -⟩ := instructionAt_eq_some.mp ht
      have hleader := g.leader t y hy
      dsimp only [Option.toList_some]
      split
      next hin =>
        rw [show List.filter _ [t] = [t] by simp [hin], hy, Option.any_some]
        split
        next hlead =>
          have hpos := hleader.mp hlead
          have ht' : t = ⟨t.block, 0⟩ := by rw [← hpos]
          have hvalid : g.Valid ⟨t.block, 0⟩ := FlowGraph.valid_iff.mpr ⟨y, ht' ▸ hy⟩
          rw [show [t] = [⟨t.block, 0⟩] by rw [← ht']]
          exact pushes_enterBlock hlp hvalid
        next hmid =>
          have hpos : t.pos ≠ 0 := fun hpos => hmid (hleader.mpr hpos)
          refine ⟨[t], .insert hpos ?_⟩
          rw [penalty, if_neg]
          intro hhead
          exact hpos (beq_iff_eq.mp ((g.search lp l root h).head_leads t hhead))
      next hout =>
        rw [show List.filter _ [t] = [] by simp [hout]]
        exact ⟨[], .nil⟩
  next hfall => exact ⟨[], .nil⟩

/-- Behind an instruction, what follows it in the scope is pushed. -/
theorem pushes_follow (hlp : g.InLoops lp) (hx : g.instruction? a = some x) :
    ∃ cs, Pushes (g.search lp l root h) newdefs currDist (g.following lp a) cs st
      (g.followFallThrough lp x newdefs currDist (g.followBranch lp x newdefs currDist st)) := by
  obtain ⟨cs, hcs⟩ : ∃ cs, Pushes (g.search lp l root h) newdefs currDist _ cs st
    (g.followBranch lp x newdefs currDist st) := pushes_followBranch hlp hx
  obtain ⟨cs', hcs'⟩ : ∃ cs', Pushes (g.search lp l root h) newdefs currDist _ cs' _
    (g.followFallThrough lp x newdefs currDist (g.followBranch lp x newdefs currDist st)) :=
      pushes_followFallThrough hlp
  refine ⟨cs' ++ cs, ?_⟩
  rw [following, hx]
  dsimp only
  rw [List.filter_append]
  refine hcs.trans hcs' fun t ht => ?_
  have hmem := (List.mem_filter.mp ht).1
  split at hmem
  next =>
    obtain ⟨t', -, rfl⟩ := Option.map_eq_some_iff.mp (Option.mem_toList.mp hmem)
    rfl
  next => cases hmem

/-! ## A turn -/

/-- The paths of a search. -/
structure Running (g : DefUseGraph) (lp : Option DefUseLoop) (l root : Location)
    (h : g.firstPath lp l = some root) (st : DefUseSearch) (c : Frontier Location) : Prop where
  inv : (g.search lp l root h).Inv c
  tracks : Tracks (g.search lp l root h) g l st c

theorem Running.congr {c : Frontier Location} {st' : DefUseSearch}
    (hrun : Running g lp l root h st c) (hpaths : st'.paths = st.paths)
    (htouched : st'.blockTouched = st.blockTouched) : Running g lp l root h st' c where
  inv := hrun.inv
  tracks := {
    queue := hpaths ▸ hrun.tracks.queue
    ordered := hpaths ▸ hrun.tracks.ordered
    touched := htouched ▸ hrun.tracks.touched }

theorem useFound_paths (currDist : Nat) (st : DefUseSearch) :
    (g.useFound currDist st).paths = st.paths := by
  unfold useFound
  dsimp only
  split <;> rfl

theorem useFound_blockTouched (currDist : Nat) (st : DefUseSearch) :
    (g.useFound currDist st).blockTouched = st.blockTouched := by
  unfold useFound
  dsimp only
  split <;> rfl

theorem useFound_defUseDist (currDist : Nat) (st : DefUseSearch) :
    (g.useFound currDist st).defUseDist =
      if st.defUseDist = 0 ∨ st.defUseDist > trueDefUseDist currDist g.numberOfInstructions then
        trueDefUseDist currDist g.numberOfInstructions
      else st.defUseDist := by
  unfold useFound
  dsimp only
  split <;> rfl

/-- A turn of the search pops a cheapest path. If it ends in a use, the distance is kept, and the
search goes on unless the use is beyond the function's size. -/
structure Turn (g : DefUseGraph) (lp : Option DefUseLoop) (l root : Location)
    (h : g.firstPath lp l = some root) (st : DefUseSearch) (c : Frontier Location)
    (r : List Location) (rest : List (List Location)) (st' : DefUseSearch) (c' : Frontier Location) :
    Prop where
  pop : c.pending.Perm (r :: rest)
  least : ∀ q ∈ rest, (g.search lp l root h).cost r ≤ (g.search lp l root h).cost q
  popped : c'.popped = r :: c.popped
  running : Running g lp l root h st' c'
  unused : ¬(g.search lp l root h).Used r → g.searchStep lp st = .inl st' ∧
    st'.defUseDist = st.defUseDist
  used : (g.search lp l root h).Used r → c'.pending = rest ∧
    st'.defUseDist = (g.useFound ((g.search lp l root h).cost r) st).defUseDist ∧
    g.searchStep lp st = if (g.search lp l root h).cost r > g.numberOfInstructions then
      .inr { st' with defXIter := true }.finish else .inl st'

theorem searchStep_nil {c : Frontier Location} (hrun : Running g lp l root h st c)
    (hc : c.pending = []) : g.searchStep lp st = .inr st.finish := by
  have hpaths : st.paths = [] := by
    have hperm := hrun.tracks.queue
    rw [hc] at hperm
    exact List.perm_nil.mp hperm
  unfold searchStep
  rw [hpaths]
  rfl

/-- What is pushed follows the popped path. -/
theorem expands_of_pushes {c : Frontier Location} {cs : List Location} {st' : DefUseSearch}
    (hinv : (g.search lp l root h).Inv c) (hr : a :: r ∈ c.entries)
    (htouched : ∀ b, b ∈ st.blockTouched ↔ ∃ q ≠ [], ⟨b, 0⟩ :: q ∈ c.entries)
    (hunused : ¬(g.search lp l root h).Used (a :: r)) (hd : d ∈ g.aliveDefs l (a :: r))
    (hkept : g.kills a d = false)
    (hcs : Pushes (g.search lp l root h) newdefs currDist (g.following lp a) cs st st') :
    (g.search lp l root h).Expands c a r cs where
  nodup := hcs.nodup
  follows b hb := ⟨hinv.paths _ hr, hunused, (hcs.sub b hb).1, d,
    survives_cons.mpr ⟨hkept, mem_aliveDefs.mp hd⟩⟩
  fresh b hb hlead q hq hmem := by
    have hpos : b.pos = 0 := beq_iff_eq.mp hlead
    refine (hcs.sub b hb).2 hpos ((htouched _).mpr ⟨q, hq, ?_⟩)
    rwa [show Location.mk b.block 0 = b by rw [← hpos]]
  complete b hb := by
    refine (hcs.complete b hb.next).imp_right fun ⟨hpos, hold⟩ => ⟨beq_iff_eq.mpr hpos, ?_⟩
    obtain ⟨q, hq, hmem⟩ := (htouched _).mp hold
    refine ⟨q, hq, ?_⟩
    rwa [show b = Location.mk b.block 0 by rw [← hpos]]

/-- The variables stay those of the paths when a path is popped and what follows it pushed. -/
theorem tracks_of_pushes {S : PathSearch Location DefLocation} {c : Frontier Location}
    {rest : List (List Location)} {ls cs : List Location} {st' : DefUseSearch}
    (htouched : ∀ b, b ∈ st.blockTouched ↔ ∃ q ≠ [], ⟨b, 0⟩ :: q ∈ c.entries)
    (hpop : c.pending.Perm ((a :: r) :: rest)) (hrest : st.paths.Perm (rest.map (queued S g l)))
    (hordered : BinaryHeap.Ordered Prod.snd st.paths)
    (hnew : ∀ b ∈ cs, g.aliveDefs l (b :: a :: r) = newdefs)
    (hcs : Pushes S newdefs (S.cost (a :: r)) ls cs st st') :
    Tracks S g l st' ⟨cs.map (· :: a :: r) ++ rest, (a :: r) :: c.popped⟩ where
  queue := by
    rw [List.map_append, List.map_map]
    refine hcs.queue.trans ((List.Perm.of_eq ?_).append hrest)
    refine List.map_congr_left fun b hb => ?_
    rw [← hnew b hb]
    rfl
  ordered := hcs.ordered hordered
  touched b := by
    rw [hcs.touched, htouched]
    simp only [Frontier.entries, List.mem_append, hpop.mem_iff, List.mem_cons, List.mem_map]
    constructor
    · rintro (⟨q, hq, hmem⟩ | hb)
      · exact ⟨q, hq, by tauto⟩
      · exact ⟨a :: r, List.cons_ne_nil _ _, .inl (.inl ⟨_, hb, rfl⟩)⟩
    · rintro ⟨q, hq, (⟨b', hb', heq⟩ | hmem) | hmem⟩
      · obtain rfl := (List.cons.inj heq).1
        exact .inr hb'
      · exact .inl ⟨q, hq, by tauto⟩
      · exact .inl ⟨q, hq, by tauto⟩

/-- A step whose popped path ends in an instruction. -/
theorem searchStep_popped {p : DefUsePath} {paths : List (DefUsePath × Nat)}
    (hdel : BinaryHeap.deleteMin Prod.snd st.paths = some ((p, currDist), paths))
    (hx : g.instruction? p.ins = some x) :
    g.searchStep lp st =
      if anyDefsAreUsed p.defs x.getUses then
        if currDist > g.numberOfInstructions then
          .inr { g.useFound currDist { st with paths := paths } with defXIter := true }.finish
        else .inl (g.useFound currDist { st with paths := paths })
      else
        match removeInvalidated p.defs x.getDefs with
        | none => .inl { st with paths := paths }
        | some newdefs =>
          .inl (g.followFallThrough lp x newdefs currDist
            (g.followBranch lp x newdefs currDist { st with paths := paths })) := by
  unfold searchStep
  rw [hdel]
  dsimp only
  generalize g.instruction? p.ins = found at hx
  subst hx
  rfl

theorem exists_turn {c : Frontier Location} (hlp : g.InLoops lp) (hroot : g.Valid root)
    (hrun : Running g lp l root h st c) (hc : c.pending ≠ []) :
    ∃ r rest st' c', Turn g lp l root h st c r rest st' c' := by
  have hinv := hrun.inv
  have hqueue := hrun.tracks.queue
  cases hdel : BinaryHeap.deleteMin Prod.snd st.paths with
  | none =>
    rw [BinaryHeap.deleteMin_eq_none] at hdel
    rw [hdel] at hqueue
    exact absurd (List.map_eq_nil_iff.mp (List.nil_perm.mp hqueue)) hc
  | some popped =>
    obtain ⟨⟨p, currDist⟩, paths⟩ := popped
    obtain ⟨hperm, hordered, hmin⟩ := BinaryHeap.deleteMin_spec hrun.tracks.ordered hdel
    -- the popped entry is that of a pending path
    have hmem : (p, currDist) ∈ c.pending.map (queued (g.search lp l root h) g l) :=
      hqueue.mem_iff.mp (hperm.mem_iff.mp List.mem_cons_self)
    obtain ⟨r, hr, hqueued⟩ := List.mem_map.mp hmem
    have hentry : r ∈ c.entries := List.mem_append_left _ hr
    obtain ⟨a, r, rfl⟩ := List.exists_cons_of_ne_nil (hinv.paths r hentry).ne_nil
    obtain ⟨rfl, rfl⟩ := Prod.mk.inj hqueued
    have hpop := List.perm_cons_erase hr
    have hrest : paths.Perm ((c.pending.erase (a :: r)).map (queued (g.search lp l root h) g l)) :=
      (hperm.trans (hqueue.trans (hpop.map _))).cons_inv
    have hleast : ∀ q ∈ c.pending.erase (a :: r),
        (g.search lp l root h).cost (a :: r) ≤ (g.search lp l root h).cost q := fun q hq =>
      hmin _ (hqueue.mem_iff.mpr (List.mem_map_of_mem (List.mem_of_mem_erase hq)))
    obtain ⟨x, hx⟩ := FlowGraph.valid_iff.mp
      (valid_of_open hroot (hinv.paths _ hentry) a List.mem_cons_self)
    have hdefs : g.defsAt a = x.getDefs := by rw [defsAt, hx]; rfl
    have htouched : ∀ b, b ∈ ({ st with paths := paths } : DefUseSearch).blockTouched ↔
        ∃ q ≠ [], ⟨b, 0⟩ :: q ∈ c.entries := hrun.tracks.touched
    -- when nothing is pushed
    have hnil : ∀ st', Pushes (g.search lp l root h) [] ((g.search lp l root h).cost (a :: r)) [] []
        { st with paths := paths } st' → (∀ b, ¬(g.search lp l root h).Extends b a r) →
        Running g lp l root h st' ⟨c.pending.erase (a :: r), (a :: r) :: c.popped⟩ := by
      intro st' hst hno
      exact ⟨hinv.pop hpop hleast (expands_nil hno) (.refl _),
        tracks_of_pushes htouched hpop hrest hordered (fun b hb => absurd hb List.not_mem_nil) hst⟩
    have hstep : g.searchStep lp st = _ := searchStep_popped hdel hx
    dsimp only at hstep
    by_cases hused : (g.search lp l root h).Used (a :: r)
    · have hrun' := hnil _ .nil fun b hb => hb.unused hused
      refine ⟨a :: r, _, g.useFound ((g.search lp l root h).cost (a :: r)) { st with paths := paths },
        _, hpop, hleast, rfl, hrun'.congr (useFound_paths ..) (useFound_blockTouched ..),
        fun hnot => absurd hused hnot, fun _ => ⟨rfl, ?_, ?_⟩⟩
      · rw [useFound_defUseDist, useFound_defUseDist]
      · rw [hstep, if_pos ((used_iff hx).mpr hused)]
    · rw [if_neg fun hany => hused ((used_iff hx).mp hany), ← hdefs] at hstep
      cases hnew : removeInvalidated (g.aliveDefs l (a :: r)) (g.defsAt a) with
      | none =>
        rw [hnew] at hstep
        refine ⟨a :: r, _, { st with paths := paths }, _, hpop, hleast, rfl,
          hnil _ .nil fun b hb => ?_, fun _ => ⟨hstep, rfl⟩, fun hnot => absurd hnot hused⟩
        -- nothing is alive behind the instruction
        obtain ⟨d, hd⟩ := hb.survives
        obtain ⟨hkept, hd⟩ := survives_cons.mp hd
        have hkilled := removeInvalidated_eq_none.mp hnew d (mem_aliveDefs.mpr hd)
        rw [← kills_eq] at hkilled
        cases hkilled.symm.trans hkept
      | some newdefs =>
        rw [hnew] at hstep
        obtain ⟨cs, hcs⟩ : ∃ cs, Pushes (g.search lp l root h) newdefs
            ((g.search lp l root h).cost (a :: r)) _ cs { st with paths := paths } _ :=
          pushes_follow hlp hx
        obtain ⟨d, hd⟩ := removeInvalidated_ne_nil hnew
        obtain ⟨hd, hkept⟩ := (mem_removeInvalidated hnew).mp hd
        rw [← kills_eq] at hkept
        have htracks := tracks_of_pushes htouched hpop hrest hordered
          (fun b _ => by rw [aliveDefs, hnew, Option.getD_some]) hcs
        have hexpands : (g.search lp l root h).Expands c a r cs :=
          expands_of_pushes hinv hentry htouched hused hd hkept hcs
        exact ⟨a :: r, _, _, _, hpop, hleast, rfl, ⟨hinv.pop hpop hleast hexpands (.refl _), htracks⟩,
          fun _ => ⟨hstep, hcs.dist⟩, fun hnot => absurd hnot hused⟩

end DefUseGraph

end Pebil

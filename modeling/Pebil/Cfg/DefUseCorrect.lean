import Pebil.Cfg.DefUseSearch

/-!
# Def-use distances are those of paths

The search ends (`search_total`), and a distance that it leaves is that of a path to a use. It is
the distance of the nearest use when nothing depends on what `singleDefUse` forgets: which
definitions are alive on the paths to a block that was touched, and which paths are pending when a
use is found over the head of a loop (`Conclusive`). `computeDefUseDist_spec` says what that means
for the whole computation.
-/

namespace Pebil

open PathSearch

namespace DefUseGraph

variable {g : DefUseGraph} {lp : Option DefUseLoop} {l root : Location}
  {h : g.firstPath lp l = some root} {st : DefUseSearch} {c : Frontier Location}

/-! ## One search -/

/-- The distance so far, from the one that the instruction had before. -/
structure Found (S : PathSearch Location DefLocation) (old dist : Nat) (c : Frontier Location) :
    Prop where
  source : dist = old ∨ ∃ p ∈ c.popped, S.Used p ∧ dist = p.length
  le_old : 0 < old → 0 < dist ∧ dist ≤ old
  le : ∀ p ∈ c.popped, S.Used p → 0 < dist ∧ dist ≤ p.length

/-- What a search leaves. -/
structure SearchResult (S : PathSearch Location DefLocation) (conclusive : Prop) (old dist : Nat) :
    Prop where
  sound : dist = 0 ∨ dist = old ∨ ∃ r, S.Open r ∧ S.Used r ∧ r.length = dist
  source : conclusive → dist = old ∨ ∃ r, S.Counted r ∧ r.length = dist
  le_old : conclusive → 0 < old → 0 < dist ∧ dist ≤ old
  le : conclusive → ∀ r, S.Counted r → 0 < dist ∧ dist ≤ r.length

/-- The definitions alive at an instruction do not depend on the path, and if a use is found over
the head of the loop, no other path is pending. -/
def Conclusive (g : DefUseGraph) (lp : Option DefUseLoop) (l : Location) : Prop :=
  ∀ root, ∀ h : g.firstPath lp l = some root,
    (g.search lp l root h).Uniform ∧ (lp = none ∨ (g.search lp l root h).Alone)

/-- Outside loops, the search for the uses of one definition is conclusive. -/
theorem conclusive_of_single {d : DefLocation} (hd : g.defsAt l = [d]) : g.Conclusive none l :=
  fun _ _ => ⟨uniform_of_single hd, .inl rfl⟩

theorem Found.of_unused {S : PathSearch Location DefLocation} {old dist : Nat}
    {c c' : Frontier Location} {r : List Location} (hfound : Found S old dist c)
    (hpopped : c'.popped = r :: c.popped) (hr : ¬S.Used r) : Found S old dist c' := by
  have hused : ∀ p, p ∈ c'.popped ∧ S.Used p ↔ p ∈ c.popped ∧ S.Used p := by
    intro p
    rw [hpopped, List.mem_cons]
    constructor
    · rintro ⟨rfl | hp, hused⟩
      · exact absurd hused hr
      · exact ⟨hp, hused⟩
    · exact fun ⟨hp, hused⟩ => ⟨.inr hp, hused⟩
  refine ⟨hfound.source.imp_right ?_, hfound.le_old, fun p hp hpu => ?_⟩
  · rintro ⟨p, hp, hpu, heq⟩
    obtain ⟨hp', hpu'⟩ := (hused p).mpr ⟨hp, hpu⟩
    exact ⟨p, hp', hpu', heq⟩
  · exact hfound.le p ((hused p).mp ⟨hp, hpu⟩).1 hpu

/-- Keeping the shorter distance. -/
theorem Found.of_used {S : PathSearch Location DefLocation} {old dist dist' : Nat}
    {c c' : Frontier Location} {r : List Location} (hfound : Found S old dist c)
    (hpopped : c'.popped = r :: c.popped) (hr : S.Used r) (hpos : 0 < r.length)
    (hdist : dist' = if dist = 0 ∨ dist > r.length then r.length else dist) :
    Found S old dist' c' := by
  refine ⟨?_, fun hold => ?_, fun p hp hpu => ?_⟩
  · rw [hdist]
    split
    · exact .inr ⟨r, hpopped ▸ List.mem_cons_self, hr, rfl⟩
    · refine hfound.source.imp_right ?_
      rintro ⟨p, hp, hpu, heq⟩
      exact ⟨p, hpopped ▸ List.mem_cons_of_mem _ hp, hpu, heq⟩
  · have hle := hfound.le_old hold
    rw [hdist]
    split <;> omega
  · rw [hpopped] at hp
    rcases List.mem_cons.mp hp with rfl | hp
    · rw [hdist]
      split <;> omega
    · have hle := hfound.le p hp hpu
      rw [hdist]
      split <;> omega

theorem Running.paths_eq_nil (hrun : Running g lp l root h st c) (hc : c.pending = []) :
    st.paths = [] := by
  have hperm := hrun.tracks.queue
  rw [hc] at hperm
  exact List.perm_nil.mp hperm

/-- A distance that the search leaves is a distance to a use. -/
theorem Found.sound {old dist : Nat} (hrun : Running g lp l root h st c)
    (hfound : Found (g.search lp l root h) old dist c) : dist = old ∨
      ∃ r, (g.search lp l root h).Open r ∧ (g.search lp l root h).Used r ∧ r.length = dist := by
  refine hfound.source.imp_right ?_
  rintro ⟨p, hp, hpu, heq⟩
  exact ⟨p, hrun.inv.paths p (List.mem_append_right _ hp), hpu, heq.symm⟩

/-- When nothing is pending, the distance is that of the nearest use. -/
theorem Found.result {old dist : Nat} (hroot : g.Valid root) (hrun : Running g lp l root h st c)
    (hc : c.pending = []) (hfound : Found (g.search lp l root h) old dist c) :
    SearchResult (g.search lp l root h) (g.Conclusive lp l) old dist where
  sound := .inr (hfound.sound hrun)
  source hconc := by
    refine hfound.source.imp_right ?_
    rintro ⟨p, hp, hpu, heq⟩
    have hentry : p ∈ c.entries := List.mem_append_right _ hp
    have hcheap := hrun.inv.cheapest (hconc root h).1 hentry fun q hq => by
      rw [hc] at hq
      cases hq
    exact ⟨p, ⟨hrun.inv.paths p hentry, hpu, hcheap⟩, heq.symm⟩
  le_old _ := hfound.le_old
  le hconc r hr := by
    obtain ⟨e, he, hused, hle⟩ := hrun.inv.exists_used_le hc (search_sized hroot) (hconc root h).1 hr
    have hle' := hfound.le e he hused
    omega

/-- The distance of a use is the number of instructions on the path to it. -/
theorem trueDefUseDist_cost (hroot : g.Valid root) (hrun : Running g lp l root h st c)
    {r : List Location} (hr : r ∈ c.entries) (hused : (g.search lp l root h).Used r) :
    trueDefUseDist ((g.search lp l root h).cost r) g.numberOfInstructions = r.length := by
  obtain ⟨hle, hcost⟩ := hrun.inv.cost_used (search_sized hroot) hr hused
  have hextra : (g.search lp l root h).extra = g.numberOfInstructions := rfl
  have hpos := List.length_pos_iff.mpr (hrun.inv.paths r hr).ne_nil
  unfold trueDefUseDist
  split <;> omega

/-- What is left when a use beyond the function's size ends the search. -/
theorem break_result (hroot : g.Valid root) {old : Nat} {c' : Frontier Location}
    {r : List Location} {rest : List (List Location)} {st' : DefUseSearch}
    (hrun : Running g lp l root h st c) (hturn : Turn g lp l root h st c r rest st' c')
    (hfound : Found (g.search lp l root h) old st'.defUseDist c')
    (hpast : ∀ p ∈ c.popped, (g.search lp l root h).Used p →
      (g.search lp l root h).cost p ≤ g.numberOfInstructions)
    (hused : (g.search lp l root h).Used r)
    (hbeyond : (g.search lp l root h).cost r > g.numberOfInstructions) :
    SearchResult (g.search lp l root h) (g.Conclusive lp l) old
      ({ st' with defXIter := true } : DefUseSearch).finish.1 := by
  have hfinish : ({ st' with defXIter := true } : DefUseSearch).finish.1 =
      if st'.paths.isEmpty then st'.defUseDist else 0 := rfl
  rw [hfinish]
  by_cases hc' : c'.pending = []
  · rw [hturn.running.paths_eq_nil hc', if_pos List.isEmpty_nil]
    exact hfound.result hroot hturn.running hc'
  · -- paths are pending
    have hnot : ¬g.Conclusive lp l := by
      intro hconc
      have hr : r ∈ c.entries :=
        List.mem_append_left _ (hturn.pop.mem_iff.mpr List.mem_cons_self)
      rcases (hconc root h).2 with rfl | halone
      · have hle := (hrun.inv.cost_used (search_sized hroot) hr hused).1
        rw [cost_of_no_head rfl] at hbeyond
        exact absurd hle (Nat.not_le_of_lt hbeyond)
      · refine hc' ((hturn.used hused).1.trans ?_)
        exact hrun.inv.rest_eq_nil (search_sized hroot) (hconc root h).1 halone hturn.pop
          hturn.least hused hbeyond hpast
    refine ⟨?_, fun hconc => absurd hconc hnot, fun hconc => absurd hconc hnot,
      fun hconc => absurd hconc hnot⟩
    split
    · exact .inr (hfound.sound hturn.running)
    · exact .inl rfl

/-- The search ends, with the distance of a path to a use. -/
theorem search_total (hlp : g.InLoops lp) (hroot : g.Valid root) {old : Nat} {fuel : Nat}
    (hrun : Running g lp l root h st c) (hfound : Found (g.search lp l root h) old st.defUseDist c)
    (hpast : ∀ p ∈ c.popped, (g.search lp l root h).Used p →
      (g.search lp l root h).cost p ≤ g.numberOfInstructions)
    (hfuel : 2 * g.numberOfInstructions - c.popped.length < fuel) :
    ∃ res, loop (g.searchStep lp) fuel st = some res ∧
      SearchResult (g.search lp l root h) (g.Conclusive lp l) old res.1 := by
  induction fuel generalizing st c with
  | zero => omega
  | succ fuel ih =>
    by_cases hc : c.pending = []
    · refine ⟨st.finish, loop_inr (searchStep_nil hrun hc) fuel, ?_⟩
      rw [DefUseSearch.finish, hrun.paths_eq_nil hc]
      exact hfound.result hroot hrun hc
    obtain ⟨r, rest, st', c', hturn⟩ := exists_turn hlp hroot hrun hc
    have hr : r ∈ c.entries := List.mem_append_left _ (hturn.pop.mem_iff.mpr List.mem_cons_self)
    -- every place is popped at most once
    have hfuel' : 2 * g.numberOfInstructions - c'.popped.length < fuel := by
      have hplaces : ∀ q, (g.search lp l root h).Open q → ∀ a ∈ q, a ∈ g.allPlaces :=
        fun q hq a ha => mem_allPlaces.mpr (valid_of_open hroot hq a ha)
      have hle := hturn.running.inv.length_popped_le hplaces
      rw [length_allPlaces] at hle
      rw [hturn.popped, List.length_cons] at hle ⊢
      omega
    by_cases hused : (g.search lp l root h).Used r
    · obtain ⟨-, hdist, hstep⟩ := hturn.used hused
      rw [useFound_defUseDist, trueDefUseDist_cost hroot hrun hr hused] at hdist
      have hfound' := hfound.of_used hturn.popped hused
        (List.length_pos_iff.mpr (hrun.inv.paths r hr).ne_nil) hdist
      by_cases hbeyond : (g.search lp l root h).cost r > g.numberOfInstructions
      · rw [if_pos hbeyond] at hstep
        exact ⟨_, loop_inr hstep fuel,
          break_result hroot hrun hturn hfound' hpast hused hbeyond⟩
      · rw [if_neg hbeyond] at hstep
        rw [loop_inl hstep]
        refine ih hturn.running hfound' (fun p hp hpu => ?_) hfuel'
        rw [hturn.popped] at hp
        rcases List.mem_cons.mp hp with rfl | hp
        · exact Nat.le_of_not_lt hbeyond
        · exact hpast p hp hpu
    · obtain ⟨hstep, hdist⟩ := hturn.unused hused
      rw [loop_inl hstep]
      refine ih hturn.running (hdist ▸ hfound.of_unused hturn.popped hused)
        (fun p hp hpu => ?_) hfuel'
      rw [hturn.popped] at hp
      rcases List.mem_cons.mp hp with rfl | hp
      · exact absurd hpu hused
      · exact hpast p hp hpu

/-! ## One instruction -/

/-- A path that counts: it ends in the first use on it, and no path to that use costs less, where
entering the head of the loop costs as much as the function is long. -/
def CountedPath (g : DefUseGraph) (lp : Option DefUseLoop) (l : Location) (r : List Location) :
    Prop :=
  ∃ root, ∃ h : g.firstPath lp l = some root, (g.search lp l root h).Counted r

/-- What `singleDefUse` makes of the distance that the instruction had. -/
structure VisitResult (g : DefUseGraph) (lp : Option DefUseLoop) (l : Location) (old dist : Nat) :
    Prop where
  sound : dist = 0 ∨ dist = old ∨ ∃ d ∈ g.defsAt l, ∃ p, g.UsePath lp l d p ∧ p.length = dist
  source : g.Conclusive lp l → dist = old ∨ ∃ r, g.CountedPath lp l r ∧ r.length = dist
  le_old : g.Conclusive lp l → 0 < old → 0 < dist ∧ dist ≤ old
  le : g.Conclusive lp l → ∀ r, g.CountedPath lp l r → 0 < dist ∧ dist ≤ r.length

/-- Nothing is done where there is no path. -/
theorem visitResult_same {old : Nat} (hno : ∀ r, ¬g.CountedPath lp l r) :
    g.VisitResult lp l old old where
  sound := .inr (.inl rfl)
  source _ := .inl rfl
  le_old _ hold := ⟨hold, Nat.le_refl _⟩
  le _ r hr := absurd hr (hno r)

theorem running_start (hne : g.defsAt l ≠ []) (fields : Nat × Bool) :
    Running g lp l root h ((⟨[], [], fields.1, fields.2⟩ : DefUseSearch).insert ⟨root, g.defsAt l⟩ 1)
      ⟨[[root]], []⟩ := by
  obtain ⟨d, hd⟩ := List.exists_mem_of_ne_nil _ hne
  refine ⟨Inv.start (S := g.search lp l root h) hd, BinaryHeap.insert_perm _ _,
    BinaryHeap.insert_ordered nofun, fun b => ?_⟩
  refine iff_of_false List.not_mem_nil ?_
  rintro ⟨q, hq, hmem⟩
  rw [Frontier.entries, List.append_nil, List.mem_singleton] at hmem
  exact hq (List.cons.inj hmem).2

theorem singleDefUse_spec (hlp : g.InLoops lp) {x : FlowInstruction}
    (hx : g.instruction? l = some x) (hdef : x.defines = true)
    (hscope : flowsInDefUseScope l.block lp = true) {fuel : Nat}
    (hfuel : 2 * g.numberOfInstructions < fuel) (fields : Nat × Bool) :
    ∃ res, g.singleDefUse fuel lp l fields = some res ∧ g.VisitResult lp l fields.1 res.1 := by
  unfold singleDefUse
  show ∃ res, (if (g.defsAt l).isEmpty then _ else _) = some res ∧ _
  split
  next hnone =>
    refine ⟨fields, rfl, visitResult_same fun r hr => ?_⟩
    obtain ⟨root, h, hcounted⟩ := hr
    obtain ⟨a, d, -, hd, -⟩ := hcounted.used
    have hmem : d ∈ g.defsAt l := hd.1
    rw [List.isEmpty_iff.mp hnone] at hmem
    cases hmem
  next hsome =>
    have hne : g.defsAt l ≠ [] := fun hnil => hsome (List.isEmpty_iff.mpr hnil)
    cases h : g.firstPath lp l with
    | none =>
      obtain ⟨fuel, rfl⟩ : ∃ fuel', fuel = fuel' + 1 := ⟨fuel - 1, by omega⟩
      refine ⟨fields, loop_inr rfl fuel, visitResult_same fun r hr => ?_⟩
      obtain ⟨root, h', -⟩ := hr
      rw [h] at h'
      cases h'
    | some root =>
      have hfollows := (firstPath_eq_some hx hdef hscope).mp h
      have hroot : g.Valid root := by
        obtain ⟨y, hy, -⟩ := (flowsTo_iff hx hdef).mp hfollows.1
        exact FlowGraph.valid_iff.mpr ⟨y, hy⟩
      obtain ⟨res, hres, hresult⟩ := search_total hlp hroot
        (running_start (h := h) hne fields) ⟨.inl rfl, fun hold => ⟨hold, Nat.le_refl _⟩, nofun⟩
        nofun (show 2 * g.numberOfInstructions - ([] : List (List Location)).length < fuel from hfuel)
      refine ⟨res, hres, ?_, fun hconc => ?_, hresult.le_old, fun hconc r hr => ?_⟩
      · refine hresult.sound.imp_right (Or.imp_right ?_)
        rintro ⟨r, hr, hused, hlen⟩
        obtain ⟨d, hd, hp⟩ := exists_usePath hfollows hr hused
        exact ⟨d, hd, r.reverse, hp, by rw [List.length_reverse, hlen]⟩
      · refine (hresult.source hconc).imp_right ?_
        rintro ⟨r, hr, hlen⟩
        exact ⟨r, ⟨root, h, hr⟩, hlen⟩
      · obtain ⟨root', h', hr'⟩ := hr
        obtain rfl := Option.some.inj (h.symm.trans h')
        exact hresult.le hconc r hr'

/-! ## The computation -/

theorem mem_definers {b : Nat} : l ∈ g.definers b ↔
    l.block = b ∧ ∃ x, g.instruction? l = some x ∧ x.defines = true := by
  rw [definers, List.mem_filter, mem_places, Option.any_eq_true, and_assoc]
  refine and_congr_right fun _ => ⟨fun h => h.2, ?_⟩
  rintro ⟨x, hx, hdef⟩
  exact ⟨FlowGraph.valid_iff.mpr ⟨x, hx⟩, x, hx, hdef⟩

/-- Searched are the instructions that are not skipped, in each loop that they are in, and in the
whole function if they are in none. -/
structure Searched (g : DefUseGraph) (lp : Option DefUseLoop) (l : Location) : Prop where
  defines : ∃ x, g.instruction? l = some x ∧ x.defines = true
  inLoops : g.InLoops lp
  scope : flowsInDefUseScope l.block lp = true
  outside : lp = none → ∀ lp' ∈ g.loops, lp'.isBlockIn l.block = false

theorem mem_visits : (lp, l) ∈ g.visits ↔ g.Searched lp l := by
  have hblock : ∀ x, g.instruction? l = some x → l.block < g.basicBlocks.length := by
    intro x hx
    obtain ⟨bb, hbb, -⟩ := FlowGraph.valid_iff.mpr ⟨x, hx⟩
    exact (List.getElem?_eq_some_iff.mp hbb).1
  simp only [visits, List.mem_append, List.mem_flatMap, List.mem_map, List.mem_filter,
    List.mem_range, mem_definers, Prod.mk.injEq]
  constructor
  · rintro (⟨lp', hlp', b, ⟨-, hin⟩, l', ⟨rfl, hx⟩, rfl, rfl⟩ | ⟨b, ⟨-, hout⟩, l', ⟨rfl, hx⟩, rfl, rfl⟩)
    · refine ⟨hx, fun lp hlp => ?_, hin, nofun⟩
      rwa [← Option.some.inj hlp]
    · refine ⟨hx, nofun, rfl, fun _ lp' hlp' => ?_⟩
      rw [Bool.not_eq_true', List.any_eq_false] at hout
      exact Bool.eq_false_iff.mpr (hout lp' hlp')
  · rintro ⟨⟨x, hx, hdef⟩, hlp, hscope, hout⟩
    cases lp with
    | some lp =>
      exact .inl ⟨lp, hlp lp rfl, l.block, ⟨hblock x hx, hscope⟩, l, ⟨rfl, x, hx, hdef⟩, rfl, rfl⟩
    | none =>
      refine .inr ⟨l.block, ⟨hblock x hx, ?_⟩, l, ⟨rfl, x, hx, hdef⟩, rfl, rfl⟩
      rw [Bool.not_eq_true', List.any_eq_false]
      exact fun lp' hlp' => Bool.eq_false_iff.mp (hout rfl lp' hlp')

/-- What the visits so far have recorded for an instruction. -/
structure Recorded (g : DefUseGraph) (vs : List (Option DefUseLoop × Location)) (l : Location)
    (dist : Nat) : Prop where
  sound : dist = 0 ∨ ∃ lp, (lp, l) ∈ vs ∧ ∃ d ∈ g.defsAt l, ∃ p, g.UsePath lp l d p ∧ p.length = dist
  source : (∀ lp, (lp, l) ∈ vs → g.Conclusive lp l) →
    dist = 0 ∨ ∃ lp r, (lp, l) ∈ vs ∧ g.CountedPath lp l r ∧ r.length = dist
  le : (∀ lp, (lp, l) ∈ vs → g.Conclusive lp l) →
    ∀ lp r, (lp, l) ∈ vs → g.CountedPath lp l r → 0 < dist ∧ dist ≤ r.length

/-- A visit keeps what the ones before have recorded. -/
theorem Recorded.visit {vs : List (Option DefUseLoop × Location)} {dist dist' : Nat}
    (hrec : g.Recorded vs l dist) (hvisit : g.VisitResult lp l dist dist') :
    g.Recorded (vs ++ [(lp, l)]) l dist' where
  sound := by
    rcases hvisit.sound with h0 | rfl | ⟨d, hd, p, hp, hlen⟩
    · exact .inl h0
    · refine hrec.sound.imp_right ?_
      rintro ⟨lp', hmem, hpath⟩
      exact ⟨lp', List.mem_append_left _ hmem, hpath⟩
    · exact .inr ⟨lp, List.mem_append_right _ List.mem_cons_self, d, hd, p, hp, hlen⟩
  source hconc := by
    have hlast := hconc lp (List.mem_append_right _ List.mem_cons_self)
    rcases hvisit.source hlast with rfl | ⟨r, hr, hlen⟩
    · refine (hrec.source fun lp' hmem => hconc lp' (List.mem_append_left _ hmem)).imp_right ?_
      rintro ⟨lp', r, hmem, hr⟩
      exact ⟨lp', r, List.mem_append_left _ hmem, hr⟩
    · exact .inr ⟨lp, r, List.mem_append_right _ List.mem_cons_self, hr, hlen⟩
  le hconc lp' r hmem hr := by
    have hlast := hconc lp (List.mem_append_right _ List.mem_cons_self)
    rcases List.mem_append.mp hmem with hmem | hmem
    · have hle := hrec.le (fun lp' hmem => hconc lp' (List.mem_append_left _ hmem)) lp' r hmem hr
      have hle' := hvisit.le_old hlast hle.1
      omega
    · obtain ⟨rfl, -⟩ := Prod.mk.inj (List.mem_singleton.mp hmem)
      exact hvisit.le hlast r hr

theorem Recorded.other {vs : List (Option DefUseLoop × Location)} {dist : Nat} {l' : Location}
    (hrec : g.Recorded vs l dist) (hne : l ≠ l') : g.Recorded (vs ++ [(lp, l')]) l dist := by
  have hmem : ∀ lp', (lp', l) ∈ vs ++ [(lp, l')] ↔ (lp', l) ∈ vs := by
    intro lp'
    rw [List.mem_append, List.mem_singleton, Prod.mk.injEq]
    exact or_iff_left fun h => hne h.2
  obtain ⟨hsound, hsource, hle⟩ := hrec
  constructor <;> simp only [hmem] <;> assumption

/-- The visits are made, and record what they find. -/
theorem foldlM_visits {fuel : Nat} (hfuel : 2 * g.numberOfInstructions < fuel)
    (vs : List (Option DefUseLoop × Location)) (hvs : ∀ v ∈ vs, g.Searched v.1 v.2)
    (done : List (Option DefUseLoop × Location)) (fields : Location → Nat × Bool)
    (hdone : ∀ l, g.Recorded done l (fields l).1) :
    ∃ fields', vs.foldlM (fun fields v =>
        (g.singleDefUse fuel v.1 v.2 (fields v.2)).map (Function.update fields v.2)) fields =
          some fields' ∧ ∀ l, g.Recorded (done ++ vs) l (fields' l).1 := by
  induction vs generalizing done fields with
  | nil => exact ⟨fields, rfl, by simpa using hdone⟩
  | cons v vs ih =>
    obtain ⟨lp, l⟩ := v
    obtain ⟨⟨x, hx, hdef⟩, hlp, hscope, -⟩ := hvs (lp, l) List.mem_cons_self
    obtain ⟨res, hres, hvisit⟩ := singleDefUse_spec hlp hx hdef hscope hfuel (fields l)
    obtain ⟨fields', hfields', hrec⟩ := ih (fun v hv => hvs v (List.mem_cons_of_mem _ hv))
      (done ++ [(lp, l)]) (Function.update fields l res) fun l' => by
        by_cases heq : l' = l
        · subst heq
          rw [Function.update_self]
          exact (hdone l').visit hvisit
        · rw [Function.update_of_ne heq]
          exact (hdone l').other heq
    refine ⟨fields', ?_, ?_⟩
    · rw [List.foldlM_cons]
      simp only [hres, Option.map_some]
      exact hfields'
    · simpa using hrec

/-- `computeDefUseDist` ends with these fields. -/
def Computes (g : DefUseGraph) (fields : Location → Nat × Bool) : Prop :=
  ∃ N, ∀ fuel, N ≤ fuel → g.computeDefUseDist fuel = some fields

theorem singleDefUse_mono {fuel fuel' : Nat} (hle : fuel ≤ fuel') {fields res : Nat × Bool}
    (hres : g.singleDefUse fuel lp l fields = some res) :
    g.singleDefUse fuel' lp l fields = some res := by
  unfold singleDefUse at hres ⊢
  dsimp only at hres ⊢
  split at hres
  next hnone => rwa [if_pos hnone]
  next hsome =>
    rw [if_neg hsome]
    exact loop_mono hres hle

/-- More fuel changes nothing. -/
theorem computes_of_eq {fuel : Nat} {fields : Location → Nat × Bool}
    (hfields : g.computeDefUseDist fuel = some fields) : g.Computes fields := by
  refine ⟨fuel, fun fuel' hle => ?_⟩
  unfold computeDefUseDist at hfields ⊢
  generalize (fun _ => (0, false) : Location → Nat × Bool) = start at hfields ⊢
  generalize g.visits = vs at hfields ⊢
  induction vs generalizing start with
  | nil => exact hfields
  | cons v vs ih =>
    rw [List.foldlM_cons] at hfields ⊢
    obtain ⟨next, hnext, hrest⟩ := Option.bind_eq_some_iff.mp hfields
    obtain ⟨res, hres, rfl⟩ := Option.map_eq_some_iff.mp hnext
    refine Option.bind_eq_some_iff.mpr ⟨_, ?_, ih _ hrest⟩
    rw [singleDefUse_mono hle hres, Option.map_some]

/-- What the distance of the instruction at `l` has to be. It is the number of instructions on a
path from there to a use of one of its definitions, in a loop that the instruction is in. If the
searches are conclusive, it is positive exactly if there is such a path, and the least number on
the paths that count. Outside loops, that is the least of all. -/
structure DistanceRight (g : DefUseGraph) (l : Location) (dist : Nat) : Prop where
  path : 0 < dist → ∃ lp, g.Searched lp l ∧ ∃ d ∈ g.defsAt l, ∃ p, g.UsePath lp l d p ∧ p.length = dist
  pos_iff : (∀ lp, g.Searched lp l → g.Conclusive lp l) →
    (0 < dist ↔ ∃ lp, g.Searched lp l ∧ ∃ d ∈ g.defsAt l, ∃ p, g.UsePath lp l d p)
  counted : (∀ lp, g.Searched lp l → g.Conclusive lp l) → 0 < dist →
    ∃ lp r, g.Searched lp l ∧ g.CountedPath lp l r ∧ r.length = dist
  least : (∀ lp, g.Searched lp l → g.Conclusive lp l) →
    ∀ lp r, g.Searched lp l → g.CountedPath lp l r → dist ≤ r.length
  outside : g.Searched none l → g.Conclusive none l →
    ∀ d ∈ g.defsAt l, ∀ p, g.UsePath none l d p → dist ≤ p.length

/-- A path to a use begins with one that the search follows, and that is no better than one that
counts. -/
theorem exists_countedPath (hsearched : g.Searched lp l) (hconc : g.Conclusive lp l)
    {d : DefLocation} (hd : d ∈ g.defsAt l) {p : List Location} (hp : g.UsePath lp l d p) :
    ∃ r, g.CountedPath lp l r ∧ (lp = none → r.length ≤ p.length) := by
  obtain ⟨x, hx, hdef⟩ := hsearched.defines
  cases p with
  | nil =>
    obtain ⟨l', hl', -⟩ := hp.used
    cases hl'
  | cons a p =>
    have hfollows := (List.isChain_cons_cons.mp hp.chain).1
    have hfirst := (firstPath_eq_some hx hdef hsearched.scope).mpr hfollows
    obtain ⟨q, hopen, hused, hlen⟩ := exists_used (h := hfirst) hx hdef hsearched.scope hd hp
    obtain ⟨r, hr, hcost⟩ := exists_counted (hconc a hfirst).1 hopen hused
    refine ⟨r, ⟨a, hfirst, hr⟩, ?_⟩
    rintro rfl
    rw [cost_of_no_head rfl, cost_of_no_head rfl] at hcost
    exact hcost.trans hlen

theorem Recorded.distanceRight {dist : Nat} (hrec : g.Recorded g.visits l dist) :
    g.DistanceRight l dist := by
  obtain ⟨hsound, hsource, hle⟩ := hrec
  simp only [mem_visits] at hsound hsource hle
  have hpath : 0 < dist → ∃ lp, g.Searched lp l ∧ ∃ d ∈ g.defsAt l, ∃ p,
      g.UsePath lp l d p ∧ p.length = dist := fun hpos =>
    hsound.resolve_left (Nat.ne_of_gt hpos)
  refine ⟨hpath, fun hconc => ⟨fun hpos => ?_, ?_⟩, fun hconc hpos => ?_, fun hconc lp r hlp hr =>
    (hle hconc lp r hlp hr).2, fun hnone hconc d hd p hp => ?_⟩
  · obtain ⟨lp, hlp, d, hd, p, hp, -⟩ := hpath hpos
    exact ⟨lp, hlp, d, hd, p, hp⟩
  · rintro ⟨lp, hlp, d, hd, p, hp⟩
    obtain ⟨r, hr, -⟩ := exists_countedPath hlp (hconc lp hlp) hd hp
    exact (hle hconc lp r hlp hr).1
  · exact (hsource hconc).resolve_left (Nat.ne_of_gt hpos)
  · -- an instruction outside loops is searched once
    have hall : ∀ lp, g.Searched lp l → g.Conclusive lp l := by
      intro lp hlp
      cases lp with
      | none => exact hconc
      | some lp =>
        have hin := hlp.scope
        rw [flowsInDefUseScope, hnone.outside rfl lp (hlp.inLoops lp rfl)] at hin
        cases hin
    obtain ⟨r, hr, hlen⟩ := exists_countedPath hnone hconc hd hp
    exact Nat.le_trans (hle hall none r hnone hr).2 (hlen rfl)

/-- The computation ends on every graph, and the distances are right. -/
theorem computeDefUseDist_spec (g : DefUseGraph) :
    ∃ fields, g.Computes fields ∧ ∀ l, g.DistanceRight l (fields l).1 := by
  obtain ⟨fields, hfields, hrec⟩ := foldlM_visits (Nat.lt_succ_self (2 * g.numberOfInstructions))
    g.visits (fun v hv => mem_visits.mp hv) [] (fun _ => (0, false))
    fun l => ⟨.inl rfl, fun _ => .inl rfl, nofun⟩
  exact ⟨fields, computes_of_eq hfields, fun l => (hrec l).distanceRight⟩

end DefUseGraph

/-- An instruction that defines RAX and RDX, as a multiplication does. -/
def multiply : FlowInstruction where
  mnemonic := .other 0
  itype := .int
  format := .unknown
  operands _ := none
  flagsUse := 0
  flagsDef := 0
  impregUse := 0
  impregDef := 5
  container := ⟨0x1000, 6⟩
  baseAddress := 0x1000
  sizeInBytes := 3
  addressAnchor := none
  isLeader := true
  getDefs := [impliedLocation 0, impliedLocation 2]
  getUses := []

/-- An instruction that uses RAX. -/
def moveFromRax : FlowInstruction where
  mnemonic := .other 0
  itype := .move
  format := .unknown
  operands _ := none
  flagsUse := 0
  flagsDef := 0
  impregUse := 0
  impregDef := 0
  container := ⟨0x1000, 6⟩
  baseAddress := 0x1003
  sizeInBytes := 3
  addressAnchor := none
  isLeader := false
  getDefs := [⟨.reg, 0, 3, 40, 0, 0⟩]
  getUses := [⟨.reg, 0, 0, 40, 0, 0⟩]

/-- A block of the two. -/
def multiplyBlocks : FlowGraph FlowInstruction where
  basicBlocks := [⟨[multiply, moveFromRax], [], by decide⟩]
  targets_lt := by simp

theorem multiplyBlocks_instruction {l : Location} {x : FlowInstruction}
    (h : multiplyBlocks.instruction? l = some x) :
    (l = ⟨0, 0⟩ ∧ x = multiply) ∨ (l = ⟨0, 1⟩ ∧ x = moveFromRax) := by
  obtain ⟨b, j⟩ := l
  match b, j with
  | 0, 0 => exact .inl ⟨rfl, (Option.some.inj h).symm⟩
  | 0, 1 => exact .inr ⟨rfl, (Option.some.inj h).symm⟩
  | 0, j + 2 => cases h
  | b + 1, j => cases h

theorem moveFromRax_covers {addr : BitVec 64} (h : multiply.covers addr = true) :
    ¬moveFromRax.covers addr = true := by
  have hend : multiply.endAddress = 0x1003 := rfl
  simp only [FlowInstruction.covers, Bool.and_eq_true, decide_eq_true_iff, hend] at h ⊢
  rintro ⟨hle, -⟩
  exact BitVec.not_le.mpr h.2 hle

/-- The function that they make up. -/
def multiplyGraph : DefUseGraph where
  toFlowGraph := multiplyBlocks
  loops := []
  sized l x hx := by
    rcases multiplyBlocks_instruction hx with ⟨-, rfl⟩ | ⟨-, rfl⟩ <;> decide
  bounded l x hx := by
    rcases multiplyBlocks_instruction hx with ⟨-, rfl⟩ | ⟨-, rfl⟩ <;> decide
  positive l x hx := by
    rcases multiplyBlocks_instruction hx with ⟨-, rfl⟩ | ⟨-, rfl⟩ <;> decide
  disjoint l l' x x' addr hx hx' hcovers hcovers' := by
    rcases multiplyBlocks_instruction hx with ⟨rfl, rfl⟩ | ⟨rfl, rfl⟩ <;>
      rcases multiplyBlocks_instruction hx' with ⟨rfl, rfl⟩ | ⟨rfl, rfl⟩
    · rfl
    · exact absurd hcovers' (moveFromRax_covers hcovers)
    · exact absurd hcovers (moveFromRax_covers hcovers')
    · rfl
  contiguous b j x y hx hy := by
    rcases multiplyBlocks_instruction hx with ⟨hl, rfl⟩ | ⟨hl, -⟩ <;>
      rcases multiplyBlocks_instruction hy with ⟨hl', rfl⟩ | ⟨hl', rfl⟩ <;>
      simp only [Location.mk.injEq] at hl hl'
    · omega
    · rfl
    · omega
    · omega
  leader l x hx := by
    rcases multiplyBlocks_instruction hx with ⟨rfl, rfl⟩ | ⟨rfl, rfl⟩ <;> decide
  branches b j x hx hnext := by
    rcases multiplyBlocks_instruction hx with ⟨-, rfl⟩ | ⟨-, rfl⟩ <;> rfl
  branchTargets l l' x y hx hy hbranch := by
    rcases multiplyBlocks_instruction hx with ⟨-, rfl⟩ | ⟨-, rfl⟩ <;> cases hbranch
  onward b bb x hbb hx hdef t := by
    have hno : bb.targetBlocks = [] ∧ bb.instructions.length = 2 := by
      match b with
      | 0 =>
        obtain rfl := Option.some.inj hbb
        exact ⟨rfl, rfl⟩
      | b + 1 => cases hbb
    rw [hno.1]
    refine ⟨nofun, fun ⟨y, hy, hbase⟩ => ?_⟩
    rcases multiplyBlocks_instruction hy with ⟨-, rfl⟩ | ⟨hl, -⟩
    · -- behind the last instruction there is none
      rcases multiplyBlocks_instruction hx with ⟨hl, -⟩ | ⟨-, rfl⟩
      · simp [hno.2] at hl
      · exact absurd hbase (by decide)
    · simp at hl
  heads := nofun

/-- The claim that a distance is kept for each definition: positive for the definitions for which
there is a path to a use. -/
def DistancePerDefinition (g : DefUseGraph) : Prop :=
  ∀ fields, g.Computes fields → ∀ lp l, g.Searched lp l → ∀ d ∈ g.defsAt l,
    (0 < (fields l).1 ↔ ∃ lp', g.Searched lp' l ∧ ∃ p, g.UsePath lp' l d p)

/-- The multiplication gets the distance of RAX, 1; nothing uses its RDX. -/
theorem not_distancePerDefinition : ¬∀ g, DistancePerDefinition g := by
  intro h
  obtain ⟨fields, hfields, hdist⟩ : ∃ fields, multiplyGraph.computeDefUseDist 10 = some fields ∧
      (fields ⟨0, 0⟩).1 = 1 := by
    have hrun : (multiplyGraph.computeDefUseDist 10).map (fun f => (f ⟨0, 0⟩).1) = some 1 := by
      decide
    exact Option.map_eq_some_iff.mp hrun
  have hsearched : multiplyGraph.Searched none ⟨0, 0⟩ :=
    DefUseGraph.mem_visits.mp (List.mem_cons_self ..)
  have hclaim := h multiplyGraph fields (DefUseGraph.computes_of_eq hfields) none ⟨0, 0⟩ hsearched
    (impliedLocation 2) (by decide)
  rw [hdist] at hclaim
  obtain ⟨lp', -, p, hp⟩ := hclaim.mp Nat.one_pos
  obtain ⟨l', -, hused⟩ := hp.used
  obtain ⟨y, hy, hany⟩ := (Option.any_eq_true _ _).mp hused
  rcases multiplyBlocks_instruction hy with ⟨-, rfl⟩ | ⟨-, rfl⟩ <;> exact absurd hany (by decide)

end Pebil

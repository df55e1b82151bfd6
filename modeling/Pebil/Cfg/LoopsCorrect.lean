import Pebil.Cfg.Loops
import Mathlib.Data.Finset.Range
import Mathlib.Data.List.Basic
import Mathlib.Tactic.IntervalCases

/-!
# Which loops `buildLoops` finds

With correct immediate dominators the loops are exactly one for each reachable edge to
a dominator whose tail does not end with a call, and the body of each is everything that
reaches the tail without passing the head (`buildLoops_natural`), reachable from the
entry or not. The bodies hold reachable blocks only, and so are dominated by their
heads, as long as no unreachable block has an edge into a loop other than to its head
(`buildLoops_reachable_iff`).
-/

namespace Pebil

namespace LinkedGraph

open Relation (ReflTransGen)

variable {g : LinkedGraph}

/-! ## The graph -/

/-- The edges. -/
def Succ (g : LinkedGraph) : Nat → Nat → Prop := DepthFirst.Succ g.targets

/-- Reachable from the entry. -/
def Reachable (g : LinkedGraph) (b : Nat) : Prop := ReflTransGen g.Succ 0 b

/-- `d` lies on every path from the entry to `b`. -/
def Dom (g : LinkedGraph) (d b : Nat) : Prop := Dominates g.Succ 0 d b

theorem size_pos : 0 < g.size := List.length_pos_iff.mpr g.nonempty

theorem targets_eq {a : Nat} {b : LinkedBlock} (h : g.basicBlocks[a]? = some b) :
    g.targets a = b.targetBlocks := by
  rw [targets, h]
  rfl

theorem sources_eq {a : Nat} {b : LinkedBlock} (h : g.basicBlocks[a]? = some b) :
    g.sources a = b.sourceBlocks := by
  rw [sources, h]
  rfl

theorem exists_block_of_mem_targets {a t : Nat} (h : t ∈ g.targets a) :
    ∃ b, g.basicBlocks[a]? = some b ∧ t ∈ b.targetBlocks := by
  rw [targets] at h
  cases hb : g.basicBlocks[a]? with
  | none => simp [hb] at h
  | some b => exact ⟨b, rfl, by simpa [hb] using h⟩

theorem targets_lt_size {a t : Nat} (h : t ∈ g.targets a) : t < g.size := by
  obtain ⟨b, hb, ht⟩ := exists_block_of_mem_targets h
  exact g.targets_lt b (List.mem_of_getElem? hb) t ht

theorem lt_size_of_mem_targets {a t : Nat} (h : t ∈ g.targets a) : a < g.size := by
  obtain ⟨b, hb, -⟩ := exists_block_of_mem_targets h
  exact (List.getElem?_eq_some_iff.mp hb).1

theorem targets_nodup' (a : Nat) : (g.targets a).Nodup := by
  rw [targets]
  cases hb : g.basicBlocks[a]? with
  | none => exact .nil
  | some b => exact g.targets_nodup b (List.mem_of_getElem? hb)

/-- The source lists are the target lists read backwards. -/
theorem mem_sources {a b : Nat} (ha : a < g.size) (hb : b < g.size) :
    a ∈ g.sources b ↔ b ∈ g.targets a := by
  have hga : g.basicBlocks[a]? = some g.basicBlocks[a] := List.getElem?_eq_getElem ha
  have hgb : g.basicBlocks[b]? = some g.basicBlocks[b] := List.getElem?_eq_getElem hb
  rw [sources_eq hgb, targets_eq hga]
  exact g.mirrored a b _ _ hga hgb

theorem sources_lt_size {a b : Nat} (h : a ∈ g.sources b) : a < g.size := by
  rw [sources] at h
  cases hb : g.basicBlocks[b]? with
  | none => simp [hb] at h
  | some c => exact g.sources_lt c (List.mem_of_getElem? hb) a (by simpa [hb] using h)

theorem Reachable.lt_size {b : Nat} (h : g.Reachable b) : b < g.size := by
  cases h with
  | refl => exact size_pos
  | tail _ hstep => exact targets_lt_size hstep

/-! ## Dominance by the immediate dominators -/

/-- The dominator pass has done its work: the entry has no immediate dominator, every other
reachable block has its own. -/
structure DominatorsCorrect (g : LinkedGraph) : Prop where
  entry : g.immDominator 0 = none
  immediate : ∀ b, g.Reachable b → b ≠ 0 →
    ∃ d, g.immDominator b = some d ∧ IsImmDominator g.Succ 0 d b

open Classical in
/-- The dominators of a block. -/
noncomputable def dominators (g : LinkedGraph) (b : Nat) : Finset Nat :=
  (Finset.range g.size).filter fun d => g.Dom d b

open Classical in
theorem mem_dominators {b d : Nat} (hb : g.Reachable b) : d ∈ g.dominators b ↔ g.Dom d b := by
  rw [dominators, Finset.mem_filter, Finset.mem_range, and_iff_right_iff_imp]
  exact fun h => Reachable.lt_size (Dominates.reach hb h)

open Classical in
theorem card_dominators_le (b : Nat) : (g.dominators b).card ≤ g.size :=
  (Finset.card_filter_le ..).trans (Finset.card_range _).le

/-- The walk up the immediate dominators meets exactly the dominators. -/
theorem dominatorWalk_iff (hdom : g.DominatorsCorrect) {fuel b a : Nat} (hb : g.Reachable b)
    (hfuel : (g.dominators b).card ≤ fuel) :
    g.dominatorWalk a fuel b = true ↔ g.Dom a b := by
  induction fuel generalizing b with
  | zero =>
    have hmem : b ∈ g.dominators b := (mem_dominators hb).mpr (.refl _ _ _)
    exact absurd (Finset.card_pos.mpr ⟨b, hmem⟩) (by omega)
  | succ fuel ih =>
    rw [dominatorWalk]
    by_cases hba : b = a
    · subst hba
      rw [if_pos rfl]
      exact iff_of_true rfl (.refl _ _ _)
    rw [if_neg hba]
    by_cases hzero : b = 0
    · subst hzero
      rw [hdom.entry]
      exact iff_of_false Bool.false_ne_true fun h => hba h.eq_root.symm
    · obtain ⟨d, himm, hd⟩ := hdom.immediate b hb hzero
      have hdreach : g.Reachable d := Dominates.reach hb hd.dominates
      rw [himm]
      -- `d` has the same dominators but for `b`
      have hlt : (g.dominators d).card < (g.dominators b).card := by
        refine Finset.card_lt_card ⟨fun x hx => ?_, fun hsub => ?_⟩
        · exact (mem_dominators hb).mpr
            (Dominates.trans ((mem_dominators hdreach).mp hx) hd.dominates)
        · have hbd := (mem_dominators hdreach).mp (hsub ((mem_dominators hb).mpr (.refl _ _ _)))
          exact hd.ne (Dominates.antisymm hdreach hd.dominates hbd)
      show g.dominatorWalk a fuel d = true ↔ _
      rw [ih hdreach (by omega)]
      exact ⟨fun h => Dominates.trans h hd.dominates, fun h => hd.closest a h (Ne.symm hba)⟩

/-- `isDominatedBy` is dominance, on reachable blocks. -/
theorem isDominatedBy_iff (hdom : g.DominatorsCorrect) {b a : Nat} (hb : g.Reachable b) :
    g.isDominatedBy b a = true ↔ g.Dom a b := by
  exact dominatorWalk_iff hdom hb ((card_dominators_le b).trans (Nat.le_succ _))

/-! ## The body of a loop -/

/-- The members of a body that is being grown lie behind the tail without the head, and the
sources of a member are members, unless it is the head or still on the stack. -/
structure Growing (g : LinkedGraph) (tail head : Nat) (s : List Nat × BitSet g.size) : Prop where
  head_mem : s.2.contains head = true
  tail_mem : s.2.contains tail = true
  stack_mem : ∀ b ∈ s.1, s.2.contains b = true
  stack_ne : head ∉ s.1
  behind : ∀ b, s.2.contains b = true → b = head ∨ PathAvoiding g.Succ head b tail
  closed : ∀ b, s.2.contains b = true → b ∉ s.1 → b ≠ head → ∀ a ∈ g.sources b,
    s.2.contains a = true

/-- Pushing keeps the members and what is on the stack. -/
theorem pushNew_contains (s : List Nat × BitSet g.size) {a b : Nat} (ha : a < g.size) :
    (g.pushNew s a).2.contains b = true ↔ s.2.contains b = true ∨ b = a := by
  rw [pushNew]
  split
  next h =>
    refine ⟨.inl, fun hb => hb.elim id ?_⟩
    rintro rfl
    exact h
  next => simp [BitSet.contains_insert, ha]

theorem mem_pushNew (s : List Nat × BitSet g.size) {a b : Nat} :
    b ∈ (g.pushNew s a).1 ↔ b ∈ s.1 ∨ (b = a ∧ s.2.contains a = false) := by
  rw [pushNew]
  split
  next h => simp [h]
  next h => simp [h, or_comm]

/-- The number of blocks that are not members yet, and the stack's height. -/
def growMeasure (g : LinkedGraph) (s : List Nat × BitSet g.size) : Nat :=
  ((Finset.range g.size).filter fun b => s.2.contains b = false).card + s.1.length

theorem growMeasure_pushNew (s : List Nat × BitSet g.size) {a : Nat} (ha : a < g.size) :
    g.growMeasure (g.pushNew s a) ≤ g.growMeasure s := by
  by_cases h : s.2.contains a = true
  · rw [pushNew, if_pos h]
  · have hlt : ((Finset.range g.size).filter
        fun b => (s.2.insert a).contains b = false).card <
        ((Finset.range g.size).filter fun b => s.2.contains b = false).card := by
      refine Finset.card_lt_card ⟨fun b hb => ?_, fun hsub => ?_⟩
      · simp only [Finset.mem_filter, BitSet.contains_insert, Bool.or_eq_false_iff] at hb ⊢
        exact ⟨hb.1, hb.2.1⟩
      · have hmem := hsub (Finset.mem_filter.mpr
          ⟨Finset.mem_range.mpr ha, by simpa using h⟩)
        simp [BitSet.contains_insert, ha] at hmem
    rw [pushNew, if_neg h]
    simp only [growMeasure, List.length_cons]
    omega

theorem pushAll_contains {l : List Nat} (hl : ∀ a ∈ l, a < g.size)
    (s : List Nat × BitSet g.size) (b : Nat) :
    (l.foldl g.pushNew s).2.contains b = true ↔ s.2.contains b = true ∨ b ∈ l := by
  induction l generalizing s with
  | nil => simp
  | cons a l ih =>
    obtain ⟨ha, hl⟩ := List.forall_mem_cons.mp hl
    rw [List.foldl_cons, ih hl, pushNew_contains s ha, List.mem_cons, or_assoc]

theorem mem_pushAll {l : List Nat} (hl : ∀ a ∈ l, a < g.size)
    (s : List Nat × BitSet g.size) (b : Nat) :
    b ∈ (l.foldl g.pushNew s).1 ↔ b ∈ s.1 ∨ (b ∈ l ∧ s.2.contains b = false) := by
  induction l generalizing s with
  | nil => simp
  | cons a l ih =>
    obtain ⟨ha, hl⟩ := List.forall_mem_cons.mp hl
    have hmember := pushNew_contains s ha (b := b)
    rw [List.foldl_cons, ih hl, mem_pushNew, List.mem_cons]
    by_cases hba : b = a
    · subst hba
      simp [hmember, ← Bool.not_eq_true]
    · simp [hba, hmember, ← Bool.not_eq_true]

theorem growMeasure_pushAll {l : List Nat} (hl : ∀ a ∈ l, a < g.size)
    (s : List Nat × BitSet g.size) : g.growMeasure (l.foldl g.pushNew s) ≤ g.growMeasure s := by
  induction l generalizing s with
  | nil => exact Nat.le_refl _
  | cons a l ih =>
    obtain ⟨ha, hl⟩ := List.forall_mem_cons.mp hl
    exact (ih hl _).trans (growMeasure_pushNew s ha)

/-- A round pops a block and keeps the invariant. -/
theorem Growing.round {tail head top : Nat} {stack : List Nat} {inLoop : BitSet g.size}
    (h : g.Growing tail head (top :: stack, inLoop)) :
    g.Growing tail head ((g.sources top).foldl g.pushNew (stack, inLoop)) := by
  have hl : ∀ a ∈ g.sources top, a < g.size := fun a => sources_lt_size
  have htop : inLoop.contains top = true := h.stack_mem top (List.mem_cons_self ..)
  have hne : top ≠ head := fun heq => h.stack_ne (heq ▸ List.mem_cons_self ..)
  have hlt : top < g.size := by
    by_contra hge
    simp [BitSet.contains_of_ge inLoop (by omega : g.size ≤ top)] at htop
  have hpath : PathAvoiding g.Succ head top tail := (h.behind top htop).resolve_left hne
  refine ⟨?_, ?_, fun b hb => ?_, fun hb => ?_, fun b hb => ?_, fun b hb hstack hbne a ha => ?_⟩
  · exact (pushAll_contains hl _ _).mpr (.inl h.head_mem)
  · exact (pushAll_contains hl _ _).mpr (.inl h.tail_mem)
  · rw [pushAll_contains hl]
    rcases (mem_pushAll hl _ _).mp hb with hb | ⟨hb, -⟩
    · exact .inl (h.stack_mem b (List.mem_cons_of_mem _ hb))
    · exact .inr hb
  · rcases (mem_pushAll hl _ _).mp hb with hb | ⟨-, hb⟩
    · exact h.stack_ne (List.mem_cons_of_mem _ hb)
    · have hhead : inLoop.contains head = true := h.head_mem
      simp [hhead] at hb
  · rcases (pushAll_contains hl _ _).mp hb with hb | hb
    · exact h.behind b hb
    · by_cases hbh : b = head
      · exact .inl hbh
      · exact .inr (.cons hbh ((mem_sources (hl b hb) hlt).mp hb) hpath)
  · rw [pushAll_contains hl]
    rw [mem_pushAll hl, not_or, not_and] at hstack
    by_cases hbt : b = top
    · subst hbt
      exact .inr ha
    · rcases (pushAll_contains hl _ _).mp hb with hb | hb
      · refine .inl (h.closed b hb ?_ hbne a ha)
        rw [List.mem_cons, not_or]
        exact ⟨hbt, hstack.1⟩
      · have hin : inLoop.contains b = true := by simpa using hstack.2 hb
        refine .inl (h.closed b hin ?_ hbne a ha)
        rw [List.mem_cons, not_or]
        exact ⟨hbt, hstack.1⟩

/-- With an empty stack everything behind the tail is a member. -/
theorem Growing.complete {tail head b : Nat} {inLoop : BitSet g.size}
    (h : g.Growing tail head ([], inLoop)) (hb : PathAvoiding g.Succ head b tail) :
    inLoop.contains b = true := by
  obtain ⟨hbh, hpath⟩ := hb
  induction hpath using ReflTransGen.head_induction_on with
  | refl => exact h.tail_mem
  | @head a c hac hcb ih =>
    -- a source of a member other than the head
    have hmem := ih hac.2
    have hc : c < g.size := targets_lt_size hac.1
    exact h.closed c hmem List.not_mem_nil hac.2 a
      ((mem_sources (lt_size_of_mem_targets hac.1) hc).mpr hac.1)

/-- **The body of a loop** is its head and everything behind its tail. -/
theorem growBody_spec {tail head : Nat} (htail : tail < g.size) (hhead : head < g.size) :
    ∃ inLoop, g.growBody tail head = some inLoop ∧ ∀ b, inLoop.contains b = true ↔
      b = head ∨ PathAvoiding g.Succ head b tail := by
  have hmember : ∀ b, ((BitSet.new g.size).insert head).contains b = true ↔ b = head := by
    intro b
    simp [BitSet.contains_insert, BitSet.contains_new, hhead]
  have hstart : g.Growing tail head (g.pushNew ([], (BitSet.new g.size).insert head) tail) := by
    have hcontains {b : Nat} := pushNew_contains (b := b) ([], (BitSet.new g.size).insert head) htail
    have hstack {b : Nat} := mem_pushNew (a := tail) (b := b) ([], (BitSet.new g.size).insert head)
    refine ⟨?_, ?_, fun b hb => ?_, fun hb => ?_, fun b hb => ?_, fun b hb hnot hbne a _ => ?_⟩
    · exact hcontains.mpr (.inl ((hmember head).mpr rfl))
    · exact hcontains.mpr (.inr rfl)
    · exact hcontains.mpr (.inr ((hstack.mp hb).resolve_left List.not_mem_nil).1)
    · obtain ⟨rfl, hn⟩ := (hstack.mp hb).resolve_left List.not_mem_nil
      rw [(hmember head).mpr rfl] at hn
      cases hn
    · rcases hcontains.mp hb with hb | rfl
      · exact .inl ((hmember b).mp hb)
      · by_cases hbh : b = head
        · exact .inl hbh
        · exact .inr (.refl hbh)
    · -- the only member besides the head is on the stack
      rcases hcontains.mp hb with hb | rfl
      · exact absurd ((hmember b).mp hb) hbne
      · refine absurd (hstack.mpr (.inr ⟨rfl, ?_⟩)) hnot
        exact Bool.eq_false_iff.mpr fun h => hbne ((hmember b).mp h)
  refine loop_total (fun s => g.Growing tail head s) g.growMeasure _ (fun s hs => ?_) hstart ?_
  · obtain ⟨stack, inLoop⟩ := s
    cases stack with
    | nil =>
      refine .inr ⟨inLoop, rfl, fun b => ⟨hs.behind b, fun hb => ?_⟩⟩
      rcases hb with rfl | hb
      · exact hs.head_mem
      · exact hs.complete hb
    | cons top stack =>
      refine .inl ⟨_, rfl, hs.round, ?_⟩
      have hle : g.growMeasure ((g.sources top).foldl g.pushNew (stack, inLoop)) ≤
          g.growMeasure (stack, inLoop) := growMeasure_pushAll (fun _ => sources_lt_size) _
      have hpop : g.growMeasure (top :: stack, inLoop) = g.growMeasure (stack, inLoop) + 1 := by
        simp only [growMeasure, List.length_cons]
        omega
      show g.growMeasure ((g.sources top).foldl g.pushNew (stack, inLoop)) < _
      omega
  · refine Nat.lt_of_le_of_lt (growMeasure_pushNew _ htail) ?_
    have hle := Finset.card_filter_le (Finset.range g.size)
      fun b => ((BitSet.new g.size).insert head).contains b = false
    rw [Finset.card_range] at hle
    simp only [growMeasure, List.length_nil]
    omega

/-! ## The loops -/

/-- The constructor copies the set it is given. -/
theorem Loop.contains_blocks {n : Nat} (h t : Nat) (newBlocks : BitSet n) (b : Nat) :
    (Loop.new h t newBlocks).blocks.contains b = newBlocks.contains b := by
  have hcopy : ∀ (l : List Nat) (s : BitSet n),
      (l.foldl (fun s i => if newBlocks.contains i then s.insert i else s) s).contains b =
        (s.contains b || (decide (b ∈ l) && newBlocks.contains b)) := by
    intro l
    induction l with
    | nil => intro s; simp
    | cons i l ih =>
      intro s
      rw [List.foldl_cons, ih]
      by_cases hi : newBlocks.contains i = true
      · have hlt : i < n := by
          by_contra hge
          simp [BitSet.contains_of_ge newBlocks (by omega : n ≤ i)] at hi
        rw [if_pos hi, BitSet.contains_insert]
        by_cases hbi : b = i
        · subst hbi
          simp [hi, hlt]
        · simp [hbi]
      · rw [if_neg hi]
        by_cases hbi : b = i
        · subst hbi
          simp [hi]
        · simp [hbi]
  rw [Loop.new, hcopy, BitSet.contains_new, Bool.false_or]
  by_cases hb : b < n
  · simp [hb]
  · simp [hb, BitSet.contains_of_ge newBlocks (by omega : n ≤ b)]

/-- The back edge of a loop. -/
def backEdge (l : Loop g.size) : Nat × Nat := (l.tail, l.head)

/-- The body is the head and everything behind the tail. -/
def BodyComplete (g : LinkedGraph) (l : Loop g.size) : Prop :=
  ∀ b, l.blocks.contains b = true ↔ b = l.head ∨ PathAvoiding g.Succ l.head b l.tail

/-- Which back edges become loops. -/
def keeps (g : LinkedGraph) (e : Nat × Nat) : Bool :=
  g.isDominatedBy e.1 e.2 && !g.endsWithCall e.1

/-- The loop over the back edges ends, with a complete loop for each edge that is kept. -/
theorem collectLoops_spec {es : List (Nat × Nat)}
    (hes : ∀ e ∈ es, e.1 < g.size ∧ e.2 < g.size) (acc : List (Loop g.size)) :
    ∃ new, g.collectLoops es acc = some (new ++ acc) ∧
      new.map backEdge = (es.filter g.keeps).reverse ∧ ∀ l ∈ new, g.BodyComplete l := by
  induction es generalizing acc with
  | nil => exact ⟨[], rfl, rfl, nofun⟩
  | cons e es ih =>
    obtain ⟨tail, head⟩ := e
    obtain ⟨⟨htail, hhead⟩, hes⟩ := List.forall_mem_cons.mp hes
    rw [collectLoops]
    by_cases hdom : g.isDominatedBy tail head = true
    · obtain ⟨inLoop, hbody, hin⟩ := growBody_spec htail hhead
      rw [if_pos hdom, hbody]
      by_cases hcall : g.endsWithCall tail = true
      · obtain ⟨new, hnew, hmap, hall⟩ := ih hes acc
        refine ⟨new, (if_pos hcall).trans hnew, ?_, hall⟩
        rw [hmap, List.filter_cons_of_neg (by simp [keeps, hcall])]
      · obtain ⟨new, hnew, hmap, hall⟩ := ih hes (.new head tail inLoop :: acc)
        refine ⟨new ++ [.new head tail inLoop], (if_neg hcall).trans (hnew.trans ?_), ?_, ?_⟩
        · rw [List.append_assoc, List.singleton_append]
        · rw [List.map_append, hmap, List.filter_cons_of_pos (by simp [keeps, hdom, hcall]),
            List.reverse_cons]
          rfl
        · intro l hl
          rcases List.mem_append.mp hl with hl | hl
          · exact hall l hl
          · rw [List.mem_singleton.mp hl]
            intro b
            rw [Loop.contains_blocks]
            exact hin b
    · obtain ⟨new, hnew, hmap, hall⟩ := ih hes acc
      refine ⟨new, (if_neg hdom).trans hnew, ?_, hall⟩
      rw [hmap, List.filter_cons_of_neg (by simp [keeps, hdom])]

/-- What the search leaves in its list: reachable edges, and all those to a dominator. -/
theorem backEdges_spec :
    let s := SearchSets.depthFirstSearch g.targets true true (g.size + 1) 0
      { visitedSet := BitSet.new g.size, completedSet := BitSet.new g.size, backEdges := [] }
    s.backEdges.Nodup ∧ (∀ t h, (t, h) ∈ s.backEdges → g.Reachable t ∧ h ∈ g.targets t) ∧
      ∀ t h, g.Reachable t → h ∈ g.targets t → g.Dom h t → (t, h) ∈ s.backEdges := by
  intro s
  have hrep := @SearchSets.depthFirstSearch_represents g.size g.targets true true
    (fun _ _ => targets_lt_size) (g.size + 1) 0
    { visitedSet := BitSet.new g.size, completedSet := BitSet.new g.size, backEdges := [] }
    DepthFirst.start size_pos
    ⟨fun b _ => by simp [DepthFirst.start, BitSet.contains_new],
      fun _ b _ => by simp [DepthFirst.start, BitSet.contains_new], fun _ => rfl⟩
  obtain ⟨-, hnodup, honly, hall⟩ := DepthFirst.search_start (V := Finset.range g.size)
    (Finset.mem_range.mpr size_pos) (fun b _ t ht => Finset.mem_range.mpr (targets_lt_size ht))
    targets_nodup' (Nat.le_trans (Finset.card_range _).le (Nat.le_succ _))
  rw [hrep.backEdges rfl] at hnodup honly hall
  exact ⟨hnodup, honly, hall⟩

/-- The edges that deserve a loop: reachable, to a dominator, and not behind a call. -/
structure LoopEdge (g : LinkedGraph) (t h : Nat) : Prop where
  reachable : g.Reachable t
  edge : h ∈ g.targets t
  dominates : g.Dom h t
  noCall : g.endsWithCall t = false

/-- One loop for each such edge, with all of the blocks that reach the tail without passing
the head; the reachable ones are dominated by the head. -/
structure NaturalLoops (g : LinkedGraph) (loops : List (Loop g.size)) : Prop where
  once : (loops.map backEdge).Nodup
  found : ∀ t h, (t, h) ∈ loops.map backEdge ↔ g.LoopEdge t h
  body : ∀ l ∈ loops, g.BodyComplete l
  dominated : ∀ l ∈ loops, ∀ b, l.blocks.contains b = true → g.Reachable b → g.Dom l.head b

/-- The same with the bodies restricted to reachable blocks. -/
structure ReachableLoops (g : LinkedGraph) (loops : List (Loop g.size)) : Prop where
  once : (loops.map backEdge).Nodup
  found : ∀ t h, (t, h) ∈ loops.map backEdge ↔ g.LoopEdge t h
  body : ∀ l ∈ loops, ∀ b, l.blocks.contains b = true ↔
    b = l.head ∨ (g.Reachable b ∧ PathAvoiding g.Succ l.head b l.tail)
  dominated : ∀ l ∈ loops, ∀ b, l.blocks.contains b = true → g.Reachable b ∧ g.Dom l.head b

/-- Everything behind the tail of a loop edge is dominated by the head. -/
theorem LoopEdge.dominates_body {t h b : Nat} (he : g.LoopEdge t h)
    (hb : b = h ∨ PathAvoiding g.Succ h b t) : g.Dom h b := by
  rcases hb with rfl | hb
  · exact .refl _ _ _
  · exact he.dominates.of_pathAvoiding hb

/-- Sorting and numbering keep the loops. -/
theorem sortLoops_spec (loopList : List (Loop g.size)) :
    let loops := (loopList.mergeSort g.compareLoopEntry).zipIdx.map
      fun p => { p.1 with index := p.2 }
    (loops.map backEdge).Perm (loopList.map backEdge) ∧
      ((∀ l ∈ loopList, g.BodyComplete l) → ∀ l ∈ loops, g.BodyComplete l) := by
  intro loops
  have hends : loops.map backEdge =
      (loopList.mergeSort g.compareLoopEntry).map backEdge := by
    have hfst : (loopList.mergeSort g.compareLoopEntry).zipIdx.map Prod.fst = _ :=
      List.zipIdx_map_fst 0 _
    conv_rhs => rw [← hfst]
    rw [List.map_map, List.map_map]
    rfl
  refine ⟨?_, fun hall l hl => ?_⟩
  · rw [hends]
    exact (List.mergeSort_perm _ _).map _
  · obtain ⟨⟨l', i⟩, hmem, rfl⟩ := List.mem_map.mp hl
    have hmem : l' ∈ loopList :=
      (List.mergeSort_perm _ _).mem_iff.mp (List.fst_mem_of_mem_zipIdx hmem)
    exact hall l' hmem

/-- `buildLoops` ends, with one complete loop for each loop edge. -/
theorem buildLoops_spec (hdom : g.DominatorsCorrect) :
    ∃ loops, g.buildLoops = some loops ∧ (loops.map backEdge).Nodup ∧
      (∀ t h, (t, h) ∈ loops.map backEdge ↔ g.LoopEdge t h) ∧
      ∀ l ∈ loops, g.BodyComplete l := by
  obtain ⟨hnodup, honly, hall⟩ := backEdges_spec (g := g)
  have hlt : ∀ e ∈ (SearchSets.depthFirstSearch g.targets true true (g.size + 1) 0
      { visitedSet := BitSet.new g.size, completedSet := BitSet.new g.size,
        backEdges := [] }).backEdges, e.1 < g.size ∧ e.2 < g.size := by
    rintro ⟨t, h⟩ he
    have ht := (honly t h he).2
    exact ⟨lt_size_of_mem_targets ht, targets_lt_size ht⟩
  obtain ⟨loopList, hcollect, hmap, hbody⟩ := collectLoops_spec hlt []
  rw [List.append_nil] at hcollect
  obtain ⟨hperm, hsorted⟩ := sortLoops_spec loopList
  rw [hmap] at hperm
  have hfound : ∀ t h, (t, h) ∈ ((loopList.mergeSort g.compareLoopEntry).zipIdx.map
      fun p => { p.1 with index := p.2 }).map backEdge ↔ g.LoopEdge t h := by
    intro t h
    rw [hperm.mem_iff, List.mem_reverse, List.mem_filter, keeps, Bool.and_eq_true,
      Bool.not_eq_true']
    constructor
    · rintro ⟨he, hd, hcall⟩
      obtain ⟨hreach, hedge⟩ := honly t h he
      exact ⟨hreach, hedge, (isDominatedBy_iff hdom hreach).mp hd, hcall⟩
    · rintro ⟨hreach, hedge, hd, hcall⟩
      exact ⟨hall t h hreach hedge hd, (isDominatedBy_iff hdom hreach).mpr hd, hcall⟩
  refine ⟨_, by rw [buildLoops, hcollect]; rfl, ?_, hfound, hsorted hbody⟩
  exact hperm.nodup_iff.mpr (List.nodup_reverse.mpr (hnodup.filter _))

/-- `0 → 1 → 0`, and a block 2 that nothing leads to jumps to 1. -/
def deadLatch : LinkedGraph where
  basicBlocks := [
    { baseAddress := 0, numberOfBytes := 2, targetBlocks := [1], sourceBlocks := [1]
      immDominator := none, endsWithCall := false },
    { baseAddress := 2, numberOfBytes := 2, targetBlocks := [0], sourceBlocks := [0, 2]
      immDominator := some 0, endsWithCall := false },
    { baseAddress := 4, numberOfBytes := 2, targetBlocks := [1], sourceBlocks := []
      immDominator := none, endsWithCall := false }]
  nonempty := by decide
  targets_lt := by decide
  targets_nodup := by decide
  sources_lt := by decide
  mirrored := by
    intro i j a b hi hj
    have hi' : i < 3 := (List.getElem?_eq_some_iff.mp hi).1
    have hj' : j < 3 := (List.getElem?_eq_some_iff.mp hj).1
    interval_cases i <;> obtain rfl := Option.some.inj hi <;>
      interval_cases j <;> obtain rfl := Option.some.inj hj <;> decide

theorem deadLatch_reachable {b : Nat} : deadLatch.Reachable b ↔ b = 0 ∨ b = 1 := by
  constructor
  · intro h
    induction h with
    | refl => exact .inl rfl
    | tail _ hstep ih =>
      rcases ih with rfl | rfl
      · exact .inr (List.mem_singleton.mp hstep)
      · exact .inl (List.mem_singleton.mp hstep)
  · rintro (rfl | rfl)
    · exact .refl
    · exact .single (List.mem_singleton_self 1)

theorem deadLatch_dominators : deadLatch.DominatorsCorrect where
  entry := rfl
  immediate := by
    intro b hb hne
    obtain rfl := (deadLatch_reachable.mp hb).resolve_left hne
    refine ⟨0, rfl, by decide, fun h => h.1 rfl, fun a ha hne => ?_⟩
    by_cases ha0 : a = 0
    · subst ha0
      exact .refl _ _ _
    · -- the edge `0 → 1` avoids everything else
      exact absurd (.snoc (.refl (Ne.symm ha0)) (List.mem_singleton_self 1) (Ne.symm hne)) ha

/-- **Natural loops**: `buildLoops` ends, with exactly one loop for each reachable edge to a
dominator that is not behind a call. -/
theorem buildLoops_natural (hdom : g.DominatorsCorrect) :
    ∃ loops, g.buildLoops = some loops ∧ g.NaturalLoops loops := by
  obtain ⟨loops, hloops, honce, hfound, hbody⟩ := buildLoops_spec hdom
  refine ⟨loops, hloops, honce, hfound, hbody, fun l hl b hb _ => ?_⟩
  have he : g.LoopEdge l.tail l.head := (hfound _ _).mp (List.mem_map_of_mem hl)
  exact he.dominates_body ((hbody l hl b).mp hb)

theorem buildLoops_natural_deadLatch :
    ∃ loops, deadLatch.buildLoops = some loops ∧ deadLatch.NaturalLoops loops :=
  buildLoops_natural deadLatch_dominators

/-- **Bodies of reachable blocks.** They are those exactly if no unreachable block has an edge
to a reachable block of a loop other than its head. -/
theorem buildLoops_reachable_iff (hdom : g.DominatorsCorrect) :
    (∃ loops, g.buildLoops = some loops ∧ g.ReachableLoops loops) ↔
      ∀ t h, g.LoopEdge t h → ∀ a b, b ∈ g.targets a → ¬g.Reachable a → g.Reachable b →
        ¬PathAvoiding g.Succ h b t := by
  obtain ⟨loops, hloops, honce, hfound, hbody⟩ := buildLoops_spec hdom
  constructor
  · rintro ⟨loops', hloops', hreach⟩ t h he a b hab ha hb hpath
    obtain ⟨l, hl, hlh⟩ := List.mem_map.mp ((hreach.found t h).mpr he)
    obtain ⟨rfl, rfl⟩ := Prod.mk.inj hlh
    obtain rfl : loops = loops' := Option.some.inj (hloops.symm.trans hloops')
    -- the edge makes `a` a member
    have hhead : g.Reachable l.head := he.reachable.tail he.edge
    have hne : a ≠ l.head := fun heq => ha (heq ▸ hhead)
    have hmem := (hbody l hl a).mpr (.inr (.cons hne hab hpath))
    rcases (hreach.body l hl a).mp hmem with rfl | ⟨h, -⟩
    · exact hne rfl
    · exact ha h
  · intro hnone
    have hreach : ∀ l ∈ loops, ∀ b, b = l.head ∨ PathAvoiding g.Succ l.head b l.tail →
        g.Reachable b := by
      intro l hl b hb
      have he : g.LoopEdge l.tail l.head := (hfound _ _).mp (List.mem_map_of_mem hl)
      rcases hb with rfl | ⟨hbne, hpath⟩
      · exact he.reachable.tail he.edge
      -- back along the path from the tail, which is reachable
      induction hpath using ReflTransGen.head_induction_on with
      | refl => exact he.reachable
      | @head a c hac hcb ih =>
        by_contra ha
        exact hnone _ _ he a c hac.1 ha (ih hac.2) ⟨hac.2, hcb⟩
    refine ⟨loops, hloops, honce, hfound, fun l hl b => ?_, fun l hl b hb => ?_⟩
    · rw [hbody l hl b]
      exact or_congr_right ⟨fun h => ⟨hreach l hl b (.inr h), h⟩, And.right⟩
    · have he : g.LoopEdge l.tail l.head := (hfound _ _).mp (List.mem_map_of_mem hl)
      have hb := (hbody l hl b).mp hb
      exact ⟨hreach l hl b hb, he.dominates_body hb⟩

/-- The loop `1 → 0` has block 2 in its body. -/
theorem deadLatch_unreachable_member : deadLatch.DominatorsCorrect ∧
    ¬∃ loops, deadLatch.buildLoops = some loops ∧ deadLatch.ReachableLoops loops := by
  refine ⟨deadLatch_dominators, fun h => ?_⟩
  rw [buildLoops_reachable_iff deadLatch_dominators] at h
  have hne : (1 : Nat) ≠ 0 := by decide
  refine h 1 0 ⟨deadLatch_reachable.mpr (.inr rfl), List.mem_singleton_self 0, fun h => h.1 rfl, rfl⟩
    2 1 (List.mem_singleton_self 1) ?_ (deadLatch_reachable.mpr (.inr rfl)) (.refl hne)
  rw [deadLatch_reachable]
  decide

end LinkedGraph

end Pebil

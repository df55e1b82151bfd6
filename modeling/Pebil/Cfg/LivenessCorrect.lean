import Pebil.Cfg.Liveness

/-!
# Correctness of the liveness analysis

Every set of every pass stays below path liveness (`Sound`), sets only grow within
a pass (`visit_mono`, which needs `Sound.below`: no live-in set holds more than the
current live-out set explains), and a pass that is not the last one adds a member
somewhere (`missing`). A pass that changes nothing leaves a family closed under
the dataflow equations, and so above path liveness.
-/

namespace Pebil

universe u

namespace Table

variable (T : Table)

/-- Path liveness over the instruction numbers. -/
def In (i r : Nat) : Prop :=
  LiveIn (fun i s => s ∈ T.succs i) (fun i r => (T.uses i).Mem r)
    (fun i r => (T.defs i).Mem r) i r

def Out (i r : Nat) : Prop :=
  LiveOut (fun i s => s ∈ T.succs i) (fun i r => (T.uses i).Mem r)
    (fun i r => (T.defs i).Mem r) i r

/-- What holds after every visit: the sets are below path liveness, and a live-in
set is explained by the live-out set of the same instruction. -/
structure Sound (st : LiveSets) : Prop where
  ins : ∀ i r, (st.ins i).Mem r → T.In i r
  outs : ∀ i r, (st.outs i).Mem r → T.Out i r
  below : ∀ i r, (st.ins i).Mem r →
    (T.uses i).Mem r ∨ ((st.outs i).Mem r ∧ ¬ (T.defs i).Mem r)

variable {T} {st : LiveSets} {i j r : Nat}

theorem sound_init : T.Sound LiveSets.init := by
  constructor <;> exact fun i r h => absurd h RegisterSet.not_mem_empty

/-! ## One visit -/

theorem mem_foldl_union {sets : Nat → RegisterSet} :
    ∀ {ss : List Nat} {o : RegisterSet},
      (ss.foldl (fun o s => RegisterSet.union o (sets s)) o).Mem r ↔
        o.Mem r ∨ ∃ s ∈ ss, (sets s).Mem r := by
  intro ss
  induction ss with
  | nil => simp
  | cons s ss ih =>
    intro o
    rw [List.foldl_cons, ih, RegisterSet.mem_union, or_assoc]
    simp only [List.mem_cons, exists_eq_or_imp]

theorem visit_outs_self :
    ((T.visit st i).outs i).Mem r ↔ (st.outs i).Mem r ∨ ∃ s ∈ T.succs i, (st.ins s).Mem r := by
  unfold visit
  simp only [Function.update_self]
  exact mem_foldl_union

theorem visit_ins_self :
    ((T.visit st i).ins i).Mem r ↔
      (T.uses i).Mem r ∨ (((T.visit st i).outs i).Mem r ∧ ¬ (T.defs i).Mem r) := by
  unfold visit
  simp only [Function.update_self, RegisterSet.mem_union, RegisterSet.mem_diff]

theorem visit_insPrime_self : (T.visit st i).insPrime i = st.ins i := by
  simp [visit]

theorem visit_outsPrime_self : (T.visit st i).outsPrime i = st.outs i := by
  simp [visit]

/-- Nothing else is written. -/
theorem visit_other (st : LiveSets) (h : j ≠ i) :
    (T.visit st i).ins j = st.ins j ∧ (T.visit st i).outs j = st.outs j ∧
      (T.visit st i).insPrime j = st.insPrime j ∧
      (T.visit st i).outsPrime j = st.outsPrime j := by
  simp [visit, h]

theorem visit_sound (h : T.Sound st) (i : Nat) : T.Sound (T.visit st i) := by
  have houts : ∀ r, ((T.visit st i).outs i).Mem r → T.Out i r := by
    intro r hr
    rcases visit_outs_self.mp hr with hr | ⟨s, hs, hr⟩
    · exact h.outs i r hr
    · exact ⟨s, hs, h.ins s r hr⟩
  constructor
  · intro j r hr
    by_cases hj : j = i
    · subst hj
      rcases visit_ins_self.mp hr with hu | ⟨ho, hd⟩
      · exact .use hu
      · exact liveIn_iff.mpr (.inr ⟨houts r ho, hd⟩)
    · rw [(visit_other _ hj).1] at hr
      exact h.ins j r hr
  · intro j r hr
    by_cases hj : j = i
    · subst hj
      exact houts r hr
    · rw [(visit_other _ hj).2.1] at hr
      exact h.outs j r hr
  · intro j r hr
    by_cases hj : j = i
    · subst hj
      exact visit_ins_self.mp hr
    · rw [(visit_other _ hj).1] at hr
      rw [(visit_other _ hj).2.1]
      exact h.below j r hr

/-- A visit only adds members. -/
theorem visit_mono (h : T.Sound st) (i j r : Nat) :
    ((st.ins j).Mem r → ((T.visit st i).ins j).Mem r) ∧
      ((st.outs j).Mem r → ((T.visit st i).outs j).Mem r) := by
  by_cases hj : j = i
  · subst hj
    have hout : (st.outs j).Mem r → ((T.visit st j).outs j).Mem r :=
      fun hr => visit_outs_self.mpr (.inl hr)
    refine ⟨fun hr => visit_ins_self.mpr ?_, hout⟩
    rcases h.below j r hr with hu | ⟨ho, hd⟩
    · exact .inl hu
    · exact .inr ⟨hout ho, hd⟩
  · rw [(visit_other _ hj).1, (visit_other _ hj).2.1]
    exact ⟨id, id⟩

/-! ## One pass -/

/-- What a pass over `order` does to the sets. -/
structure PassSpec (T : Table) (order : List Nat) (st st' : LiveSets) : Prop where
  sound : T.Sound st'
  mono : ∀ j r, ((st.ins j).Mem r → (st'.ins j).Mem r) ∧
    ((st.outs j).Mem r → (st'.outs j).Mem r)
  other : ∀ j ∉ order, st'.ins j = st.ins j ∧ st'.outs j = st.outs j ∧
    st'.insPrime j = st.insPrime j ∧ st'.outsPrime j = st.outsPrime j
  prime : ∀ j ∈ order, st'.insPrime j = st.ins j ∧ st'.outsPrime j = st.outs j
  closed : ∀ j ∈ order, ∀ r, (∀ s ∈ T.succs j, (st.ins s).Mem r → (st'.outs j).Mem r) ∧
    ((st'.ins j).Mem r ↔ (T.uses j).Mem r ∨ ((st'.outs j).Mem r ∧ ¬ (T.defs j).Mem r))

theorem visitAll_spec : ∀ {order : List Nat} {st : LiveSets}, order.Nodup → T.Sound st →
    PassSpec T order st (T.visitAll order st) := by
  intro order
  induction order with
  | nil =>
    intro st _ h
    exact ⟨h, fun _ _ => ⟨id, id⟩, fun _ _ => ⟨rfl, rfl, rfl, rfl⟩,
      fun _ hj => absurd hj List.not_mem_nil, fun _ hj => absurd hj List.not_mem_nil⟩
  | cons i order ih =>
    intro st hnd h
    obtain ⟨hi, hnd⟩ := List.nodup_cons.mp hnd
    have hvm := visit_mono h i
    have spec := ih hnd (visit_sound h i)
    show PassSpec T (i :: order) st (T.visitAll order (T.visit st i))
    generalize T.visitAll order (T.visit st i) = st' at spec
    refine ⟨spec.sound, ?_, ?_, ?_, ?_⟩
    · intro j r
      exact ⟨fun hr => (spec.mono j r).1 ((hvm j r).1 hr),
        fun hr => (spec.mono j r).2 ((hvm j r).2 hr)⟩
    · intro j hj
      have hne : j ≠ i := fun h => hj (h ▸ List.mem_cons_self)
      have hnot : j ∉ order := fun h => hj (List.mem_cons_of_mem i h)
      obtain ⟨h1, h2, h3, h4⟩ := spec.other j hnot
      obtain ⟨g1, g2, g3, g4⟩ := visit_other (T := T) st hne
      exact ⟨h1.trans g1, h2.trans g2, h3.trans g3, h4.trans g4⟩
    · intro j hj
      rcases List.mem_cons.mp hj with rfl | hj
      · obtain ⟨-, -, h3, h4⟩ := spec.other j hi
        exact ⟨h3.trans visit_insPrime_self, h4.trans visit_outsPrime_self⟩
      · have hne : j ≠ i := fun h => hi (h ▸ hj)
        obtain ⟨g1, g2, -, -⟩ := visit_other (T := T) st hne
        exact ⟨(spec.prime j hj).1.trans g1, (spec.prime j hj).2.trans g2⟩
    · intro j hj r
      rcases List.mem_cons.mp hj with rfl | hj
      · obtain ⟨h1, h2, -, -⟩ := spec.other j hi
        rw [h1, h2]
        exact ⟨fun s hs hr => visit_outs_self.mpr (.inr ⟨s, hs, hr⟩), visit_ins_self⟩
      · exact ⟨fun s hs hr => (spec.closed j hj r).1 s hs ((hvm s r).1 hr),
          (spec.closed j hj r).2⟩

/-! ## Termination -/

/-- The members that are still missing from the sets of the numbered instructions. -/
def missing (T : Table) (st : LiveSets) : Nat :=
  ((Finset.range T.icount ×ˢ Finset.range RegisterSet.storedBits).filter
    fun p => ¬ (st.ins p.1).Mem p.2).card +
  ((Finset.range T.icount ×ˢ Finset.range RegisterSet.storedBits).filter
    fun p => ¬ (st.outs p.1).Mem p.2).card

/-- Growing sets miss no more than before, and fewer once one of them grew. -/
theorem card_missing {n : Nat} {s s' : Nat → RegisterSet}
    (hmono : ∀ j r, (s j).Mem r → (s' j).Mem r) :
    (((Finset.range n ×ˢ Finset.range RegisterSet.storedBits).filter
        fun p => ¬ (s' p.1).Mem p.2).card ≤
      ((Finset.range n ×ˢ Finset.range RegisterSet.storedBits).filter
        fun p => ¬ (s p.1).Mem p.2).card) ∧
    (∀ i < n, RegisterSet.eq (s' i) (s i) = false →
      ((Finset.range n ×ˢ Finset.range RegisterSet.storedBits).filter
        fun p => ¬ (s' p.1).Mem p.2).card <
      ((Finset.range n ×ˢ Finset.range RegisterSet.storedBits).filter
        fun p => ¬ (s p.1).Mem p.2).card) := by
  have hsub : ((Finset.range n ×ˢ Finset.range RegisterSet.storedBits).filter
      fun p => ¬ (s' p.1).Mem p.2) ⊆
      ((Finset.range n ×ˢ Finset.range RegisterSet.storedBits).filter
        fun p => ¬ (s p.1).Mem p.2) := by
    intro p hp
    rw [Finset.mem_filter] at hp ⊢
    exact ⟨hp.1, fun h => hp.2 (hmono _ _ h)⟩
  refine ⟨Finset.card_le_card hsub, fun i hi hne => ?_⟩
  refine Finset.card_lt_card ⟨hsub, fun hsup => ?_⟩
  have hsame : RegisterSet.eq (s' i) (s i) = true := by
    rw [RegisterSet.eq_iff_mem]
    refine fun r => ⟨fun hr => ?_, hmono i r⟩
    by_contra hold
    have hin : (i, r) ∈ (Finset.range n ×ˢ Finset.range RegisterSet.storedBits).filter
        fun p => ¬ (s p.1).Mem p.2 := by
      rw [Finset.mem_filter, Finset.mem_product, Finset.mem_range, Finset.mem_range]
      exact ⟨⟨hi, RegisterSet.mem_lt hr⟩, hold⟩
    exact (Finset.mem_filter.mp (hsup hin)).2 hr
  rw [hsame] at hne
  cases hne

theorem missing_lt {order : List Nat} {st st' : LiveSets}
    (horder : ∀ i < T.icount, i ∈ order) (spec : PassSpec T order st st')
    (hne : T.setsSame st' = false) : T.missing st' < T.missing st := by
  obtain ⟨hile, hilt⟩ := card_missing (n := T.icount) fun j r => (spec.mono j r).1
  obtain ⟨hole, holt⟩ := card_missing (n := T.icount) fun j r => (spec.mono j r).2
  unfold setsSame at hne
  obtain ⟨i, hi, hdiff⟩ := List.all_eq_false.mp hne
  have hi := List.mem_range.mp hi
  obtain ⟨hip, hop⟩ := spec.prime i (horder i hi)
  rw [hip, hop] at hdiff
  unfold missing
  cases hin : RegisterSet.eq (st'.ins i) (st.ins i) with
  | false => exact Nat.add_lt_add_of_lt_of_le (hilt i hi hin) hole
  | true =>
    have hout : RegisterSet.eq (st'.outs i) (st.outs i) = false := by
      simpa [hin] using hdiff
    exact Nat.add_lt_add_of_le_of_lt hile (holt i hi hout)

/-! ## The result -/

/-- A pass that changed nothing leaves path liveness. -/
theorem visitAll_fixed {order : List Nat} {st st' : LiveSets}
    (horder : ∀ i < T.icount, i ∈ order) (spec : PassSpec T order st st')
    (hsame : T.setsSame st' = true) (i : Nat) (hi : i < T.icount) (r : Nat) :
    ((st'.ins i).Mem r ↔ T.In i r) ∧ ((st'.outs i).Mem r ↔ T.Out i r) := by
  have hfix : ∀ i < T.icount, ∀ r, (st'.ins i).Mem r → (st.ins i).Mem r := by
    intro i hi r hr
    have h := List.all_eq_true.mp hsame i (List.mem_range.mpr hi)
    rw [Bool.and_eq_true, (spec.prime i (horder i hi)).1] at h
    exact (RegisterSet.eq_iff_mem.mp h.1 r).mp hr
  have hclosed : ∀ i r, T.In i r → i < T.icount → (st'.ins i).Mem r := by
    intro i r h
    refine liveIn_le (S := fun i r => i < T.icount → (st'.ins i).Mem r) ?_ ?_ h
    · intro i r hu hi
      exact ((spec.closed i (horder i hi) r).2).mpr (.inl hu)
    · intro i s r hd hs ih hi
      have hslt := T.succs_lt i hi s hs
      have hin := hfix s hslt r (ih hslt)
      exact ((spec.closed i (horder i hi) r).2).mpr
        (.inr ⟨(spec.closed i (horder i hi) r).1 s hs hin, hd⟩)
  refine ⟨⟨spec.sound.ins i r, fun h => hclosed i r h hi⟩, ⟨spec.sound.outs i r, ?_⟩⟩
  rintro ⟨s, hs, h⟩
  have hslt := T.succs_lt i hi s hs
  exact (spec.closed i (horder i hi) r).1 s hs (hfix s hslt r (hclosed s r h hslt))

/-- The loop ends, for every order that visits each number once, and with path
liveness. -/
theorem round_returns {order : List Nat} (horder : order.Perm (List.range T.icount)) :
    ∃ st, Returns (T.round order) LiveSets.init st ∧ ∀ i < T.icount, ∀ r,
      ((st.ins i).Mem r ↔ T.In i r) ∧ ((st.outs i).Mem r ↔ T.Out i r) := by
  have hnd : order.Nodup := horder.nodup_iff.mpr List.nodup_range
  have hmem : ∀ i < T.icount, i ∈ order :=
    fun i hi => horder.mem_iff.mpr (List.mem_range.mpr hi)
  have hround : ∀ st, T.Sound st →
      (∃ st', T.round order st = .inl st' ∧ T.Sound st' ∧ T.missing st' < T.missing st) ∨
      (∃ st', T.round order st = .inr st' ∧ ∀ i < T.icount, ∀ r,
        ((st'.ins i).Mem r ↔ T.In i r) ∧ ((st'.outs i).Mem r ↔ T.Out i r)) := by
    intro st hsound
    have spec := visitAll_spec (T := T) hnd hsound
    cases hsame : T.setsSame (T.visitAll order st) with
    | false =>
      exact .inl ⟨_, by simp [round, hsame], spec.sound, missing_lt hmem spec hsame⟩
    | true => exact .inr ⟨_, by simp [round, hsame], visitAll_fixed hmem spec hsame⟩
  obtain ⟨st, hloop, hst⟩ := loop_total T.Sound T.missing _ hround sound_init
    (Nat.lt_succ_self _)
  exact ⟨st, returns_of_loop hloop, hst⟩

end Table

/-! ## Liveness of instructions -/

namespace FlowGraph

variable {ι : Type u} (use defn : ι → RegisterSet) (g : FlowGraph ι)

/-- The instruction at `l` uses `r`. -/
def Uses (l : Location) (r : Nat) : Prop := ∃ x, g.instruction? l = some x ∧ (use x).Mem r

/-- The instruction at `l` defines `r`. -/
def Defines (l : Location) (r : Nat) : Prop := ∃ x, g.instruction? l = some x ∧ (defn x).Mem r

variable {use defn g}

theorem table_uses {l : Location} (h : g.Valid l) (r : Nat) :
    ((g.table use defn).uses (g.index l)).Mem r ↔ g.Uses use l r := by
  obtain ⟨x, hx⟩ := valid_iff.mp h
  simp [table, Uses, getElem?_index h, hx]

theorem table_defs {l : Location} (h : g.Valid l) (r : Nat) :
    ((g.table use defn).defs (g.index l)).Mem r ↔ g.Defines defn l r := by
  obtain ⟨x, hx⟩ := valid_iff.mp h
  simp [table, Defines, getElem?_index h, hx]

/-- Liveness over the numbers is liveness over the graph. -/
theorem table_in {l : Location} (h : g.Valid l) (r : Nat) :
    (g.table use defn).In (g.index l) r ↔
      LiveIn g.ControlFlow (g.Uses use) (g.Defines defn) l r :=
  liveIn_map g.index g.Valid (fun _ hl s => mem_succLists_index hl s)
    (fun _ _ _ hflow => hflow.valid) (fun _ hl r => table_uses hl r)
    (fun _ hl r => table_defs hl r) h

theorem table_out {l : Location} (h : g.Valid l) (r : Nat) :
    (g.table use defn).Out (g.index l) r ↔
      LiveOut g.ControlFlow (g.Uses use) (g.Defines defn) l r :=
  liveOut_map g.index g.Valid (fun _ hl s => mem_succLists_index hl s)
    (fun _ _ _ hflow => hflow.valid) (fun _ hl r => table_uses hl r)
    (fun _ hl r => table_defs hl r) h

variable (use defn g)

/-- What the analysis is for: the live-in set of an instruction holds exactly the
registers with a definition-free path to a use, its live-out set exactly those in
the live-in set of some control-flow successor. -/
structure PathLiveSets (st : LiveSets) : Prop where
  ins : ∀ l, g.Valid l → ∀ r, (st.ins (g.index l)).Mem r ↔
    LivePath g.ControlFlow (g.Uses use) (g.Defines defn) l r
  outs : ∀ l, g.Valid l → ∀ r, (st.outs (g.index l)).Mem r ↔
    ∃ l', g.ControlFlow l l' ∧ (st.ins (g.index l')).Mem r

variable {use defn g}

/-- The numbered result, read at places. -/
theorem pathLiveSets_of_table {st : LiveSets}
    (h : ∀ i < g.numberOfInstructions, ∀ r,
      ((st.ins i).Mem r ↔ (g.table use defn).In i r) ∧
        ((st.outs i).Mem r ↔ (g.table use defn).Out i r)) :
    g.PathLiveSets use defn st := by
  have hin : ∀ l, g.Valid l → ∀ r, (st.ins (g.index l)).Mem r ↔
      LiveIn g.ControlFlow (g.Uses use) (g.Defines defn) l r := by
    intro l hl r
    rw [(h (g.index l) (index_lt hl) r).1, table_in hl]
  refine ⟨fun l hl r => (hin l hl r).trans liveIn_iff_path, fun l hl r => ?_⟩
  rw [(h (g.index l) (index_lt hl) r).2, table_out hl]
  constructor
  · rintro ⟨l', hflow, hlive⟩
    exact ⟨l', hflow, (hin l' hflow.valid r).mpr hlive⟩
  · rintro ⟨l', hflow, hlive⟩
    exact ⟨l', hflow, (hin l' hflow.valid r).mp hlive⟩

/-- **Liveness is path liveness.** For every flow graph and all use and def sets,
`computeLiveness` ends, and with path liveness; so do passes in any other order
over the instructions. -/
theorem computeLiveness_pathLiveness (use defn : ι → RegisterSet) (g : FlowGraph ι) :
    (∃ st, (∃ N, ∀ fuel ≥ N, g.computeLiveness use defn fuel = some st) ∧
      g.PathLiveSets use defn st) ∧
    ∀ order : List Nat, order.Perm (List.range g.numberOfInstructions) →
      ∃ st, Returns ((g.table use defn).round order) LiveSets.init st ∧
        g.PathLiveSets use defn st := by
  have key : ∀ order : List Nat, order.Perm (List.range g.numberOfInstructions) →
      ∃ st, Returns ((g.table use defn).round order) LiveSets.init st ∧
        g.PathLiveSets use defn st := by
    intro order horder
    obtain ⟨st, hret, hst⟩ := Table.round_returns (T := g.table use defn) horder
    exact ⟨st, hret, pathLiveSets_of_table hst⟩
  exact ⟨key _ (List.reverse_perm _), key⟩

end FlowGraph

end Pebil

import Pebil.Cfg.DominatorSearch
import Pebil.Cfg.LinkEval

/-!
# How `immediateDominators` finds semidominators (src/LengauerTarjan.C:222–238)

The main loop has an invariant for every number `i` (`Processed`): the vertices above `i` have been
linked, their semidominators are known, and those wait in the bucket of their semidominator whose
tree path from there is not linked yet. The others have been evaluated. For the vertex of number
`i` the loop over the sources (`Scanned`) takes the least of what `eval` gives, which is its
semidominator (`Scanned.semidominator`).
-/

namespace Pebil

open Relation (ReflTransGen)
open Function (update)

namespace LengauerTarjan

variable {t : LengauerTarjan} {g : CodeGraph} {T : DfsTree (t.Succ g) t.rootLoc}
  {s s₀ : DominatorArrays} {root : Nat → Nat} {i b c d p u v w x y z : Nat} {done : List Nat}

/-- An ancestor above `i`. -/
def Cand (T : DfsTree (t.Succ g) t.rootLoc) (i x z : Nat) : Prop :=
  T.Reach z ∧ T.Anc z x ∧ i < T.num z

/-- The last ancestor not above `i`. -/
structure RootAt (T : DfsTree (t.Succ g) t.rootLoc) (i x y : Nat) : Prop where
  reach : T.Reach y
  anc : T.Anc y x
  le : T.num y ≤ i
  last : ∀ z, T.Reach z → T.Anc z x → T.num z ≤ i → T.num z ≤ T.num y

/-- The vertices whose parent is `p`. -/
def Child (T : DfsTree (t.Succ g) t.rootLoc) (p c : Nat) : Prop :=
  T.Reach c ∧ c ≠ t.rootLoc ∧ T.parent c = p

/-- `v` has its semidominator `p`, but the child of `p` above `v` has not been linked to it. -/
def Waiting (T : DfsTree (t.Succ g) t.rootLoc) (i p v : Nat) : Prop :=
  T.Reach v ∧ i < T.num v ∧ T.IsSemidominator p v ∧ ∀ c, Child T p c → T.Anc c v → T.num c ≤ i

/-- The child of the semidominator `p` above `v` has been linked. -/
def Due (T : DfsTree (t.Succ g) t.rootLoc) (i p v : Nat) : Prop :=
  T.Reach v ∧ T.IsSemidominator p v ∧ ∃ c, Child T p c ∧ T.Anc c v ∧ i < T.num c

/-- No path above a vertex between `p` and `v` starts below `k`. -/
def NoneBelow (T : DfsTree (t.Succ g) t.rootLoc) (k p v : Nat) : Prop :=
  ∀ m, T.Reach m → T.num p < T.num m → T.Anc m v → ∀ x, T.Reach x → T.SemiPath x m → k ≤ T.num x

/-- `d` is the semidominator of `v` where that is its immediate dominator, and otherwise the vertex
between with the least semidominator. -/
def Evaluated (T : DfsTree (t.Succ g) t.rootLoc) (d p v : Nat) : Prop :=
  (d = p ∧ NoneBelow T (T.num p) p v) ∨
    ∃ e, T.Reach d ∧ T.num p < T.num d ∧ T.Anc d v ∧ T.IsSemidominator e d ∧
      T.num e < T.num p ∧ NoneBelow T (T.num e) p v

/-- The state of the main loop when the vertices above `i` have been processed. -/
structure Processed (T : DfsTree (t.Succ g) t.rootLoc) (i : Nat) (s : DominatorArrays) : Prop where
  forest : ∃ root, s.Forest T.Reach root (Cand T i) ∧ ∀ x, T.Reach x → RootAt T i x (root x)
  semi_above : ∀ w, T.Reach w → i < T.num w → ∃ d, T.IsSemidominator d w ∧ s.semi w = T.num d
  semi_below : ∀ w, T.Reach w → T.num w ≤ i → s.semi w = T.num w
  vertex : ∀ x, T.Reach x → s.vertex (T.num x) = x
  parent : s.parent = T.parent
  bucket : ∀ p v, v ∈ s.bucket p ↔ Waiting T i p v
  dom : ∀ p v, Due T i p v → Evaluated T (s.dom v) p v

/-- What the loops rely on: the numbers and places of the search, and the source lists. -/
structure Ready (T : DfsTree (t.Succ g) t.rootLoc) : Prop where
  full : Full t T
  fuel : t.reachableCount < t.fuel
  block : ∀ v, T.Reach v → ∃ b, t.locToBasicBlock v = some b
  source : ∀ w b, T.Reach w → t.locToBasicBlock w = some b → ∀ v,
    T.Reach v ∧ t.Succ g v w ↔
      ∃ a ∈ g.links.sourceBlocks b, g.noPath a = false ∧ t.basicBlockToLoc a = v

namespace RootAt

theorem unique (h : RootAt T i x y) (h' : RootAt T i x z) : y = z :=
  T.injective h.reach h'.reach
    (Nat.le_antisymm (h'.last y h.reach h.anc h.le) (h.last z h'.reach h'.anc h'.le))

theorem refl (hx : T.Reach x) (hi : T.num x ≤ i) : RootAt T i x x :=
  ⟨hx, .refl x, hi, fun _ _ h _ => h.1⟩

/-- The tree path below the last ancestor not above `i` is above `i`. -/
theorem child (h : RootAt T i x y) (hx : T.Reach x) (hlt : i < T.num x) :
    ∃ c, Child T y c ∧ T.Anc c x ∧ i < T.num c := by
  obtain ⟨c, hc, hcr, hpc, hcx⟩ :=
    h.anc.exists_child h.reach hx (Nat.lt_of_le_of_lt h.le hlt)
  refine ⟨c, ⟨hc, hcr, hpc⟩, hcx, Nat.lt_of_not_le fun hle => ?_⟩
  have hlast := h.last c hc hcx hle
  have hparent := T.parent_lt hc hcr
  rw [hpc] at hparent
  omega

end RootAt

theorem Child.lt (h : Child T p c) : T.num p < T.num c := h.2.2 ▸ T.parent_lt h.1 h.2.1

/-- Between a vertex and one of its children there is no other. -/
theorem Child.anc_of_lt (h : Child T p c) (hz : T.Reach z) (hanc : T.Anc z c)
    (hlt : T.num z < T.num c) : T.num z ≤ T.num p :=
  h.2.2 ▸ (hanc.parent hz h.1 hlt).1

/-- A vertex has one child above a descendant. -/
theorem Child.le_of_anc (h : Child T p c) (h' : Child T p d) (hc : T.Anc c v) (hd : T.Anc d v) :
    T.num c ≤ T.num d := by
  by_contra hlt
  have hlt := Nat.lt_of_not_le hlt
  have hle := h.anc_of_lt h'.1 (hd.of_le (Nat.le_of_lt hlt) hc.1) hlt
  exact absurd h'.lt (Nat.not_lt_of_le hle)

/-! ## One source -/

/-- The state of the loop over the sources of `w`. -/
structure Scanned (T : DfsTree (t.Succ g) t.rootLoc) (i w : Nat) (s₀ : DominatorArrays)
    (root : Nat → Nat) (done : List Nat) (s : DominatorArrays) : Prop where
  frame : s = { s₀ with label := s.label, ancestor := s.ancestor, semi := s.semi }
  semi : ∀ x, x ≠ w → s.semi x = s₀.semi x
  forest : s.Forest T.Reach root (Cand T i)
  attained : s.semi w = T.num w ∨ ∃ v, T.Reach v ∧ t.Succ g v w ∧
    (s.semi w = T.num v ∨
      ∃ u d, T.Reach u ∧ T.Anc u v ∧ T.num w < T.num u ∧ T.IsSemidominator d u ∧
        s.semi w = T.num d)
  below : ∀ b ∈ done, g.noPath b = false → T.num (t.basicBlockToLoc b) < T.num w →
    s.semi w ≤ T.num (t.basicBlockToLoc b)
  above : ∀ b ∈ done, g.noPath b = false → ∀ u d, T.Reach u →
    T.Anc u (t.basicBlockToLoc b) → T.num w < T.num u → T.IsSemidominator d u →
    s.semi w ≤ T.num d

theorem Processed.semi_eq (hs : Processed T i s₀) (hu : T.Reach u) (hlt : i < T.num u)
    (hd : T.IsSemidominator d u) : s₀.semi u = T.num d := by
  obtain ⟨e, he, hsemi⟩ := hs.semi_above u hu hlt
  rw [hsemi, he.unique hd]

/-- What `eval` says about a source: no more than its number or than the semidominators above it,
and never less than all of these. -/
theorem Scanned.eval (hr : Ready T) (hs : Processed T i s₀)
    (hroot : ∀ x, T.Reach x → RootAt T i x (root x)) (hwi : T.num w = i)
    (h : Scanned T i w s₀ root done s) (hv : T.Reach v) :
    ∃ u s', s.eval t.fuel v = some (u, s') ∧ s'.Forest T.Reach root (Cand T i) ∧
      s' = { s with label := s'.label, ancestor := s'.ancestor } ∧
      (T.num v < T.num w → s.semi u ≤ T.num v) ∧
      (∀ z d, T.Reach z → T.Anc z v → T.num w < T.num z → T.IsSemidominator d z →
        s.semi u ≤ T.num d) ∧
      (u = w ∨ s.semi u = T.num v ∨ ∃ z d, T.Reach z ∧ T.Anc z v ∧ T.num w < T.num z ∧
        T.IsSemidominator d z ∧ s.semi u = T.num d) := by
  have hsemi : ∀ {z d}, T.Reach z → T.num w < T.num z → T.IsSemidominator d z →
      s.semi z = T.num d := fun {z d} hz hlt hd => by
    rw [h.semi z fun heq => absurd hlt (heq ▸ Nat.lt_irrefl _)]
    exact hs.semi_eq hz (hwi ▸ hlt) hd
  obtain ⟨u, s', heval, hforest, hframe, hself, hother⟩ :=
    h.forest.eval hv (fun y hy => ((hr.full.reach y).mp hy).2) (Nat.le_of_lt hr.fuel)
  refine ⟨u, s', heval, hforest, hframe, ?_⟩
  by_cases hrv : root v = v
  · -- a source that is not linked gives itself
    obtain rfl := hself hrv
    have hle : T.num u ≤ i := hrv ▸ (hroot u hv).le
    have hbelow : u ≠ w → s.semi u = T.num u := fun hne => by
      rw [h.semi u hne, hs.semi_below u hv hle]
    refine ⟨fun hlt => ?_, fun z d hz hzu hlt _ => ?_, ?_⟩
    · exact Nat.le_of_eq (hbelow fun heq => absurd hlt (heq ▸ Nat.lt_irrefl _))
    · have := hzu.1
      omega
    · by_cases hne : u = w
      · exact .inl hne
      · exact .inr (.inl (hbelow hne))
  have hlt : i < T.num v := Nat.lt_of_not_le fun hle =>
    hrv ((hroot v hv).unique (.refl hv hle))
  refine ⟨fun hvw => by omega, ?_⟩
  -- a linked source gives the best of the candidates above it
  rcases hother hrv with ⟨⟨hu, huv, hui⟩, hleast⟩ | ⟨rfl, hless⟩
  · refine ⟨fun z d hz hzv hwz hd => ?_, ?_⟩
    · rw [← hsemi hz hwz hd]
      exact hleast z ⟨hz, hzv, hwi ▸ hwz⟩
    · obtain ⟨d, hd, -⟩ := hs.semi_above u hu hui
      exact .inr (.inr ⟨u, d, hu, huv, hwi.symm ▸ hui, hd, hsemi hu (hwi.symm ▸ hui) hd⟩)
  · refine ⟨fun z d hz hzv hwz hd => ?_, .inl ?_⟩
    · rw [← hsemi hz hwz hd]
      exact Nat.le_of_lt (hless z ⟨hz, hzv, hwi ▸ hwz⟩)
    · -- any other root than `w` still has its own number, and its child on the way has no more
      by_contra hne
      obtain ⟨c, hc, hcv, hic⟩ := (hroot v hv).child hv hlt
      obtain ⟨d, hd, -⟩ := hs.semi_above c hc.1 hic
      have hlt := hless c ⟨hc.1, hcv, hic⟩
      rw [hsemi hc.1 (hwi.symm ▸ hic) hd, h.semi _ hne,
        hs.semi_below _ (hroot v hv).reach (hroot v hv).le] at hlt
      have hle := hd.le_parent hc.1 hc.2.1
      rw [hc.2.2] at hle
      omega

/-- One round of the loop over the sources. -/
theorem Scanned.step (hr : Ready T) (hs : Processed T i s₀)
    (hroot : ∀ x, T.Reach x → RootAt T i x (root x)) (hw : T.Reach w) (hwi : T.num w = i)
    (h : Scanned T i w s₀ root done s)
    (hb : g.noPath b = false → T.Reach (t.basicBlockToLoc b) ∧ t.Succ g (t.basicBlockToLoc b) w) :
    ∃ s', t.scanSource g w s b = some s' ∧ Scanned T i w s₀ root (done ++ [b]) s' := by
  rw [scanSource]
  by_cases hflag : g.noPath b = true
  · -- an unreachable source is skipped
    rw [if_pos hflag]
    refine ⟨s, rfl, { h with below := fun a ha hpa => ?_, above := fun a ha hpa => ?_ }⟩
    all_goals
      rcases List.mem_append.mp ha with ha | ha
      · first | exact h.below a ha hpa | exact h.above a ha hpa
      · rw [List.mem_singleton.mp ha, hflag] at hpa
        cases hpa
  rw [if_neg hflag]
  obtain ⟨hv, hvw⟩ := hb (by simpa using hflag)
  obtain ⟨u, s', heval, hforest, hframe, hbelow, habove, hcases⟩ := h.eval hr hs hroot hwi hv
  have hsemi : s'.semi = s.semi := by rw [hframe]
  have hframe' : s' = { s₀ with label := s'.label, ancestor := s'.ancestor, semi := s'.semi } := by
    rw [hframe, h.frame]
  rw [heval, Option.map_some]
  dsimp only
  rw [hsemi]
  by_cases hlt : s.semi u < s.semi w
  · -- a smaller number
    rw [if_pos hlt]
    have hself : update s.semi w (s.semi u) w = s.semi u := Function.update_self _ _ _
    have hrw : root w = w := (hroot w hw).unique (.refl hw (Nat.le_of_eq hwi))
    have hset := hforest.setSemi hw hrw (fun x _ hx => by have := hx.2.2; omega) (s.semi u)
    rw [hsemi] at hset
    refine ⟨_, rfl, ?_, fun x hx => ?_, hset, ?_, fun a ha hpa hlt' => ?_, fun a ha hpa z d => ?_⟩
    · rw [hframe']
    · exact (Function.update_of_ne hx _ _).trans (h.semi x hx)
    · dsimp only
      rw [hself]
      refine .inr ⟨_, hv, hvw, ?_⟩
      refine (hcases.resolve_left fun heq => ?_)
      rw [heq] at hlt
      exact absurd hlt (Nat.lt_irrefl _)
    · dsimp only
      rw [hself]
      rcases List.mem_append.mp ha with ha | ha
      · exact Nat.le_trans (Nat.le_of_lt hlt) (h.below a ha hpa hlt')
      · rw [List.mem_singleton.mp ha] at hlt' ⊢
        exact hbelow hlt'
    · dsimp only
      rw [hself]
      rcases List.mem_append.mp ha with ha | ha
      · exact fun hz hza hwz hd =>
          Nat.le_trans (Nat.le_of_lt hlt) (h.above a ha hpa z d hz hza hwz hd)
      · rw [List.mem_singleton.mp ha]
        exact habove z d
  · -- no smaller one: the number of `w` stays, and is no larger than the new bounds
    rw [if_neg hlt]
    have hle := Nat.le_of_not_lt hlt
    refine ⟨s', rfl, hframe', fun x hx => hsemi ▸ h.semi x hx, hforest, hsemi ▸ h.attained,
      fun a ha hpa hlt' => ?_, fun a ha hpa z d hz hza hwz hd => ?_⟩
    · rw [hsemi]
      rcases List.mem_append.mp ha with ha | ha
      · exact h.below a ha hpa hlt'
      · rw [List.mem_singleton.mp ha] at hlt' ⊢
        exact Nat.le_trans hle (hbelow hlt')
    · rw [hsemi]
      rcases List.mem_append.mp ha with ha | ha
      · exact h.above a ha hpa z d hz hza hwz hd
      · rw [List.mem_singleton.mp ha] at hza
        exact Nat.le_trans hle (habove z d hz hza hwz hd)

theorem Scanned.run (hr : Ready T) (hs : Processed T i s₀)
    (hroot : ∀ x, T.Reach x → RootAt T i x (root x)) (hw : T.Reach w) (hwi : T.num w = i)
    (sources : List Nat) (h : Scanned T i w s₀ root done s)
    (hb : ∀ b ∈ sources, g.noPath b = false →
      T.Reach (t.basicBlockToLoc b) ∧ t.Succ g (t.basicBlockToLoc b) w) :
    ∃ s', sources.foldlM (t.scanSource g w) s = some s' ∧
      Scanned T i w s₀ root (done ++ sources) s' := by
  induction sources generalizing s done with
  | nil => exact ⟨s, rfl, (List.append_nil done).symm ▸ h⟩
  | cons a sources ih =>
    obtain ⟨s', hstep, h'⟩ := h.step hr hs hroot hw hwi (hb a List.mem_cons_self)
    obtain ⟨s'', hrun, h''⟩ := ih h' fun b hb' => hb b (List.mem_cons_of_mem _ hb')
    rw [List.append_assoc] at h''
    refine ⟨s'', ?_, h''⟩
    rw [List.foldlM_cons, hstep]
    exact hrun

/-- After the loop over all sources the number is that of the semidominator. -/
theorem Scanned.semidominator (hr : Ready T) (hs : Processed T i s₀) (hw : T.Reach w)
    (hwi : T.num w = i) (hwr : w ≠ t.rootLoc) (hblock : t.locToBasicBlock w = some b)
    (h : Scanned T i w s₀ root (g.links.sourceBlocks b) s) :
    ∃ d, T.IsSemidominator d w ∧ s.semi w = T.num d := by
  have hsource := hr.source w b hw hblock
  have hbelow : ∀ v, T.Reach v → t.Succ g v w → T.num v < T.num w → s.semi w ≤ T.num v := by
    intro v hv hvw hlt
    obtain ⟨a, ha, hpa, rfl⟩ := (hsource v).mp ⟨hv, hvw⟩
    exact h.below a ha hpa hlt
  have habove : ∀ v u d, T.Reach v → t.Succ g v w → T.Reach u → T.Anc u v → T.num w < T.num u →
      T.IsSemidominator d u → s.semi w ≤ T.num d := by
    intro v u d hv hvw hu huv hlt hd
    obtain ⟨a, ha, hpa, rfl⟩ := (hsource v).mp ⟨hv, hvw⟩
    exact h.above a ha hpa u d hu huv hlt hd
  -- the vertices of the semidominators known before
  have hknown : ∀ u, T.Reach u → T.num w < T.num u →
      T.IsSemidominator (s₀.vertex (s₀.semi u)) u := fun u hu hlt => by
    obtain ⟨d, hd, hsemi⟩ := hs.semi_above u hu (hwi ▸ hlt)
    rwa [hsemi, hs.vertex d hd.reach]
  have hparent := hbelow _ (T.reach_parent hw hwr) (T.succ_parent hw hwr) (T.parent_lt hw hwr)
  have hfound : ∀ d, T.Reach d → s.semi w = T.num d →
      (t.Succ g d w ∨ ∃ v u, T.Reach v ∧ t.Succ g v w ∧ T.Reach u ∧ T.Anc u v ∧
        T.num w < T.num u ∧ d = s₀.vertex (s₀.semi u)) →
      ∃ d, T.IsSemidominator d w ∧ s.semi w = T.num d := by
    intro d hd hsemi hattained
    refine ⟨d, DfsTree.isSemidominator_of_sources hw hwr hknown hd (fun v hv hvw hlt => ?_)
      (fun v u hv hvw hu huv hlt => ?_) hattained, hsemi⟩
    · exact hsemi ▸ hbelow v hv hvw hlt
    · exact hsemi ▸ habove v u _ hv hvw hu huv hlt (hknown u hu hlt)
  rcases h.attained with heq | ⟨v, hv, hvw, heq | ⟨u, d, hu, huv, hlt, hd, heq⟩⟩
  -- the tree edge to `w` has lowered its number
  · have := T.parent_lt hw hwr
    omega
  · exact hfound v hv heq (.inl hvw)
  · exact hfound d hd.reach heq
      (.inr ⟨v, u, hv, hvw, hu, huv, hlt, hd.unique (hknown u hu hlt)⟩)

end LengauerTarjan

end Pebil

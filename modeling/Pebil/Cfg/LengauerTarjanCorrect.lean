import Pebil.Cfg.DominatorScan

/-!
# What `immediateDominators` finds (src/LengauerTarjan.C:217–280)

A round of the main loop keeps its invariant with the next number (`Processed.processVertex`): the
vertex of the number waits in the bucket of its semidominator, it is linked to its parent, and what
waits in the bucket of the parent is evaluated. After the last round everything but the root has
been evaluated, and the loop in ascending order turns that into immediate dominators
(`setDom_run`).
-/

namespace Pebil

open Relation (ReflTransGen)
open Function (update)

namespace LengauerTarjan

variable {t : LengauerTarjan} {g : CodeGraph} {T : DfsTree (t.Succ g) t.rootLoc}
  {s s₀ : DominatorArrays} {root : Nat → Nat} {i b c d p q u v w x y z : Nat} {rest : List Nat}

/-! ## What the next number changes -/

theorem RootAt.linked (hroot : ∀ x, T.Reach x → RootAt T (i + 1) x (root x)) (hw : T.Reach w)
    (hwr : w ≠ t.rootLoc) (hwi : T.num w = i + 1) (hx : T.Reach x) :
    RootAt T i x (DominatorArrays.linkedRoot root (T.parent w) w x) := by
  have hr := hroot x hx
  have hchild : Child T (T.parent w) w := ⟨hw, hwr, rfl⟩
  by_cases hxw : root x = w
  -- the tree of `w` is joined to that of its parent, the others stay
  · rw [DominatorArrays.linkedRoot, if_pos hxw]
    rw [hxw] at hr
    have hlt := hchild.lt
    refine ⟨T.reach_parent hw hwr, (DfsTree.anc_parent hw hwr).trans hr.anc, by omega,
      fun z hz hzx hzi => ?_⟩
    exact hchild.anc_of_lt hz (hzx.of_le (by omega) hr.anc.1) (by omega)
  · rw [DominatorArrays.linkedRoot, if_neg hxw]
    have hle := hr.le
    have hne : T.num (root x) ≠ i + 1 := fun heq =>
      hxw (T.injective hr.reach hw (heq.trans hwi.symm))
    exact ⟨hr.reach, hr.anc, by omega, fun z hz hzx hzi => hr.last z hz hzx (by omega)⟩

theorem cand_linked (hroot : ∀ x, T.Reach x → RootAt T (i + 1) x (root x)) (hw : T.Reach w)
    (hwi : T.num w = i + 1) (hx : T.Reach x) :
    Cand T i x = DominatorArrays.linkedCand root (Cand T (i + 1)) w x := by
  funext z
  refine propext ⟨fun ⟨hz, hzx, hlt⟩ => ?_, fun h => ?_⟩
  · by_cases hzi : T.num z = i + 1
    · obtain rfl := T.injective hz hw (hzi.trans hwi.symm)
      refine .inl ⟨(hroot x hx).unique ⟨hz, hzx, Nat.le_of_eq hzi, fun y _ _ hy => ?_⟩, rfl⟩
      omega
    · exact .inr ⟨hz, hzx, by omega⟩
  · rcases h with ⟨hxw, rfl⟩ | ⟨hz, hzx, hlt⟩
    · exact ⟨hw, hxw ▸ (hroot x hx).anc, by omega⟩
    · exact ⟨hz, hzx, by omega⟩

/-- The next child of `p` stands above all that waits in the bucket of `p`. -/
theorem Waiting.anc (h : Waiting T (i + 1) p v) (hpw : Child T p w) (hwi : T.num w = i + 1) :
    T.Anc w v := by
  obtain ⟨hv, hlt, hd, hall⟩ := h
  have hvr : v ≠ t.rootLoc := fun heq => by
    have := DfsTree.num_root_le (T := T) hpw.1
    have := hpw.lt
    have := hd.least
    rw [heq] at hlt
    omega
  -- the child of `p` above `v` is done before `v` is due, so it has no larger number than `w`
  obtain ⟨c, hc, hcr, hpc, hcv⟩ := (hd.anc hv hvr).exists_child hd.reach hv (hd.lt hv hvr)
  have hle := hall c ⟨hc, hcr, hpc⟩ hcv
  have hcw := hcv.of_le (x := w) (by omega) (by omega)
  have heq : T.num c = T.num w := by
    by_contra hne
    have := hpw.anc_of_lt hc hcw (by omega)
    have := Child.lt ⟨hc, hcr, hpc⟩
    omega
  exact T.injective hc hpw.1 heq ▸ hcv

theorem not_waiting (hpw : Child T p w) (hwi : T.num w = i + 1) : ¬ Waiting T i p v := by
  rintro ⟨hv, hlt, hd, hall⟩
  by_cases hvw : T.num v = i + 1
  · obtain rfl := T.injective hv hpw.1 (hvw.trans hwi.symm)
    have := hall v hpw (.refl v)
    omega
  · have hwait : Waiting T (i + 1) p v :=
      ⟨hv, by omega, hd, fun c hc hcv => Nat.le_succ_of_le (hall c hc hcv)⟩
    have := hall w hpw (hwait.anc hpw hwi)
    omega

/-- In the other buckets only the vertex of the number is new. -/
theorem waiting_iff (hpw : Child T p w) (hwi : T.num w = i + 1) (hqp : q ≠ p) :
    Waiting T i q v ↔ v = w ∧ T.IsSemidominator q w ∨ Waiting T (i + 1) q v := by
  constructor
  · rintro ⟨hv, hlt, hd, hall⟩
    by_cases hvw : T.num v = i + 1
    · obtain rfl := T.injective hv hpw.1 (hvw.trans hwi.symm)
      exact .inl ⟨rfl, hd⟩
    · exact .inr ⟨hv, by omega, hd, fun c hc hcv => Nat.le_succ_of_le (hall c hc hcv)⟩
  · have hne : ∀ c, Child T q c → T.num c ≠ i + 1 := fun c hc heq => by
      obtain rfl := T.injective hc.1 hpw.1 (heq.trans hwi.symm)
      exact hqp (hc.2.2.symm.trans hpw.2.2)
    rintro (⟨rfl, hd⟩ | ⟨hv, hlt, hd, hall⟩)
    · refine ⟨hpw.1, by omega, hd, fun c hc hcv => ?_⟩
      have := hcv.1
      have := hne c hc
      omega
    · refine ⟨hv, by omega, hd, fun c hc hcv => ?_⟩
      have := hall c hc hcv
      have := hne c hc
      omega

/-- What is due now was due before, or it is in the bucket of `p`. -/
theorem Due.cases (h : Due T i q v) (hpw : Child T p w) (hwi : T.num w = i + 1) :
    Due T (i + 1) q v ∨ q = p ∧ (v = w ∧ T.IsSemidominator p w ∨ Waiting T (i + 1) p v) := by
  obtain ⟨hv, hd, c, hc, hcv, hlt⟩ := h
  by_cases hcw : T.num c = i + 1
  · obtain rfl := T.injective hc.1 hpw.1 (hcw.trans hwi.symm)
    obtain rfl : q = p := hc.2.2.symm.trans hpw.2.2
    refine .inr ⟨rfl, ?_⟩
    by_cases hvw : T.num v = i + 1
    · obtain rfl := T.injective hv hc.1 (hvw.trans hcw.symm)
      exact .inl ⟨rfl, hd⟩
    · have := hcv.1
      exact .inr ⟨hv, by omega, hd, fun e he hev => hcw ▸ he.le_of_anc hc hev hcv⟩
  · exact .inl ⟨hv, hd, c, hc, hcv, by omega⟩

/-- What was due before is not in the bucket of `p`. -/
theorem Due.not_mem (h : Due T (i + 1) q v) (hwi : T.num w = i + 1) :
    v ≠ w ∧ ¬ Waiting T (i + 1) p v := by
  obtain ⟨hv, hd, c, hc, hcv, hlt⟩ := h
  constructor
  · rintro rfl
    have := hcv.1
    omega
  · rintro ⟨-, -, hd', hall⟩
    obtain rfl := hd.unique hd'
    have := hall c hc hcv
    omega

/-! ## Emptying a bucket -/

/-- The state of the loop that empties the bucket of `p`. -/
structure Emptying (T : DfsTree (t.Succ g) t.rootLoc) (i p : Nat) (s₀ : DominatorArrays)
    (root : Nat → Nat) (rest : List Nat) (s : DominatorArrays) : Prop where
  frame : s = { s₀ with
    label := s.label, ancestor := s.ancestor, bucket := s.bucket, dom := s.dom }
  forest : s.Forest T.Reach root (Cand T i)
  bucket : s.bucket p = rest
  bucket_of_ne : ∀ q, q ≠ p → s.bucket q = s₀.bucket q
  dom : ∀ v, v ∉ s₀.bucket p → s.dom v = s₀.dom v
  evaluated : ∀ v ∈ s₀.bucket p, v ∉ rest → Evaluated T (s.dom v) p v

/-- What `eval` finds for a vertex `v` whose tree path from its semidominator `p` is linked. -/
theorem evaluated_of_least (hpw : Child T p w) (hwi : T.num w = i + 1)
    (hsemi : ∀ z, T.Reach z → i < T.num z → ∃ d, T.IsSemidominator d z ∧ s.semi z = T.num d)
    (hd : s.semi v = T.num p) (hwv : T.Anc w v) (hu : Cand T i v u)
    (hleast : ∀ z, Cand T i v z → s.semi u ≤ s.semi z) :
    Evaluated T (if s.semi u < s.semi v then u else p) p v := by
  obtain ⟨hureach, huv, hui⟩ := hu
  -- a vertex between `p` and `v` is linked, so it is a candidate
  have hnone : ∀ k, k ≤ s.semi u → NoneBelow T k p v := by
    intro k hk m hm hpm hmv x hx hpath
    have hmi : i < T.num m := by
      by_contra hle
      have := hpw.anc_of_lt hm (hmv.of_le (by omega) hwv.1) (by omega)
      omega
    obtain ⟨e, he, hsm⟩ := hsemi m hm hmi
    have hle := hleast m ⟨hm, hmv, hmi⟩
    have := he.least x hx hpath
    omega
  by_cases hlt : s.semi u < s.semi v
  · rw [if_pos hlt]
    obtain ⟨e, he, hsu⟩ := hsemi u hureach hui
    have := hpw.lt
    exact .inr ⟨e, hureach, by omega, huv, he, by omega, hnone _ (Nat.le_of_eq hsu.symm)⟩
  · rw [if_neg hlt]
    exact .inl ⟨rfl, hnone _ (by omega)⟩

theorem Emptying.step (hr : Ready T) (hroot : ∀ x, T.Reach x → RootAt T i x (root x))
    (hpw : Child T p w) (hwi : T.num w = i + 1)
    (hsemi : ∀ z, T.Reach z → i < T.num z → ∃ d, T.IsSemidominator d z ∧ s₀.semi z = T.num d)
    (hsemip : s₀.semi p = T.num p) (hv : T.Reach v) (hd : s₀.semi v = T.num p) (hwv : T.Anc w v)
    (hmem : v ∈ s₀.bucket p) (h : Emptying T i p s₀ root (v :: rest) s) :
    ∃ s', t.takeOut p s v = some s' ∧ Emptying T i p s₀ root rest s' := by
  have hs : s.semi = s₀.semi := by rw [h.frame]
  have hpw' := hpw.lt
  have hvi : i < T.num v := by
    have := hwv.1
    omega
  have hp : T.Reach p := hpw.2.2 ▸ T.reach_parent hpw.1 hpw.2.1
  have hanc : T.Anc p w := hpw.2.2 ▸ DfsTree.anc_parent hpw.1 hpw.2.1
  -- `w` has just been linked, so the tree of `v` ends at `p`
  have hrv : root v = p := by
    refine (hroot v hv).unique ⟨hp, hanc.trans hwv, by omega, fun z hz hzv hzi => ?_⟩
    exact hpw.anc_of_lt hz (hzv.of_le (by omega) hwv.1) (by omega)
  have hne : root v ≠ v := fun heq => by
    rw [hrv] at heq
    subst heq
    omega
  rw [takeOut]
  dsimp only
  obtain ⟨u, s', heval, hforest, hframe, -, hother⟩ :=
    DominatorArrays.Forest.eval
      (s := { s with bucket := update s.bucket p (s.bucket p).tail })
      (h.forest.of_eq rfl rfl rfl rfl) hv (fun y hy => ((hr.full.reach y).mp hy).2)
      (Nat.le_of_lt hr.fuel)
  have hs' : s'.semi = s₀.semi := by rw [hframe]; exact hs
  obtain ⟨hu, hleast⟩ : Cand T i v u ∧ ∀ z, Cand T i v z → s₀.semi u ≤ s₀.semi z := by
    rcases hother hne with hfound | ⟨-, hless⟩
    · exact ⟨hfound.1, fun z hz => hs ▸ hfound.2 z hz⟩
    · -- `p` has its own number, and the semidominator of `w` has no larger one
      obtain ⟨e, he, hsw⟩ := hsemi w hpw.1 (by omega)
      have hlt := hless w ⟨hpw.1, hwv, by omega⟩
      have hle := he.le_parent hpw.1 hpw.2.1
      dsimp only at hlt
      rw [hs, hrv, hsemip, hsw] at hlt
      rw [hpw.2.2] at hle
      omega
  rw [heval, Option.map_some]
  dsimp only
  rw [hs']
  have hevaluated := evaluated_of_least hpw hwi hsemi hd hwv hu hleast
  refine ⟨_, rfl, ?_, hforest.of_eq rfl rfl rfl hs'.symm, ?_, fun q hq => ?_, fun x hx => ?_,
    fun x hx hxr => ?_⟩
  · rw [hframe, h.frame]
  · dsimp only
    rw [hframe]
    dsimp only
    rw [Function.update_self, h.bucket, List.tail_cons]
  · dsimp only
    rw [hframe]
    dsimp only
    rw [Function.update_of_ne hq, h.bucket_of_ne q hq]
  · have hxv : x ≠ v := fun heq => hx (heq ▸ hmem)
    dsimp only
    rw [Function.update_of_ne hxv, hframe]
    exact h.dom x hx
  · dsimp only
    by_cases hxv : x = v
    · rw [hxv, Function.update_self]
      exact hevaluated
    · rw [Function.update_of_ne hxv, hframe]
      exact h.evaluated x hx fun hmem => (List.mem_cons.mp hmem).elim hxv hxr

theorem Emptying.run (hr : Ready T) (hroot : ∀ x, T.Reach x → RootAt T i x (root x))
    (hpw : Child T p w) (hwi : T.num w = i + 1)
    (hsemi : ∀ z, T.Reach z → i < T.num z → ∃ d, T.IsSemidominator d z ∧ s₀.semi z = T.num d)
    (hsemip : s₀.semi p = T.num p)
    (hbucket : ∀ v ∈ s₀.bucket p, T.Reach v ∧ s₀.semi v = T.num p ∧ T.Anc w v)
    (hrest : ∀ v ∈ rest, v ∈ s₀.bucket p) (h : Emptying T i p s₀ root rest s) :
    ∃ s', rest.foldlM (t.takeOut p) s = some s' ∧ Emptying T i p s₀ root [] s' := by
  induction rest generalizing s with
  | nil => exact ⟨s, rfl, h⟩
  | cons v rest ih =>
    have hmem := hrest v List.mem_cons_self
    obtain ⟨hv, hd, hwv⟩ := hbucket v hmem
    obtain ⟨s₁, hstep, h₁⟩ := h.step hr hroot hpw hwi hsemi hsemip hv hd hwv hmem
    obtain ⟨s', hrun, h'⟩ := ih (fun x hx => hrest x (List.mem_cons_of_mem _ hx)) h₁
    refine ⟨s', ?_, h'⟩
    rw [List.foldlM_cons, hstep]
    exact hrun

/-! ## The main loop -/

theorem num_root (hr : Ready T) : T.num t.rootLoc = 1 := by
  obtain ⟨hpos, hle⟩ := hr.full.num _ .refl
  obtain ⟨x, hx, hnum⟩ := hr.full.vertex 1 Nat.one_pos (Nat.le_trans hpos hle)
  have := DfsTree.num_root_le (T := T) hx
  omega

/-- The state of a round when the sources of its vertex `w` have been scanned. -/
structure Semidominated (T : DfsTree (t.Succ g) t.rootLoc) (i w d : Nat) (s₀ : DominatorArrays)
    (root : Nat → Nat) (s : DominatorArrays) : Prop where
  frame : s = { s₀ with label := s.label, ancestor := s.ancestor, semi := s.semi }
  forest : s.Forest T.Reach root (Cand T (i + 1))
  semidominator : T.IsSemidominator d w
  semi : s.semi w = T.num d
  semi_above : ∀ z, T.Reach z → i < T.num z → ∃ d, T.IsSemidominator d z ∧ s.semi z = T.num d
  semi_below : ∀ z, T.Reach z → T.num z ≤ i → s.semi z = T.num z

theorem Processed.scan (hr : Ready T) (hs : Processed T (i + 1) s)
    (hforest : s.Forest T.Reach root (Cand T (i + 1)))
    (hroot : ∀ x, T.Reach x → RootAt T (i + 1) x (root x)) (hw : T.Reach w)
    (hwr : w ≠ t.rootLoc) (hwi : T.num w = i + 1) (hb : t.locToBasicBlock w = some b) :
    ∃ s' d, (g.links.sourceBlocks b).foldlM (t.scanSource g w) s = some s' ∧
      Semidominated T i w d s root s' := by
  have hstart : Scanned T (i + 1) w s root [] s :=
    ⟨rfl, fun _ _ => rfl, hforest, .inl (hs.semi_below w hw (Nat.le_of_eq hwi)),
      fun _ h => absurd h List.not_mem_nil, fun _ h => absurd h List.not_mem_nil⟩
  obtain ⟨s', hscan, h⟩ := hstart.run hr hs hroot hw hwi (g.links.sourceBlocks b)
    fun a ha hpa => (hr.source w b hw hb _).mpr ⟨a, ha, hpa, rfl⟩
  obtain ⟨d, hd, hsemiw⟩ := Scanned.semidominator hr hs hw hwi hwr hb h
  refine ⟨s', d, hscan, h.frame, h.forest, hd, hsemiw, fun z hz hlt => ?_, fun z hz hle => ?_⟩
  -- the scan sets the number of `w` only
  · by_cases hzw : z = w
    · exact hzw ▸ ⟨d, hd, hsemiw⟩
    · have hne : T.num z ≠ i + 1 := fun heq => hzw (T.injective hz hw (heq.trans hwi.symm))
      rw [h.semi z hzw]
      exact hs.semi_above z hz (by omega)
  · have hzw : z ≠ w := fun heq => by
      rw [heq] at hle
      omega
    rw [h.semi z hzw]
    exact hs.semi_below z hz (by omega)

/-- The state of a round when its vertex `w` waits for its semidominator and is linked to its parent
`p`. -/
structure Joined (T : DfsTree (t.Succ g) t.rootLoc) (i p w : Nat) (root : Nat → Nat)
    (s : DominatorArrays) : Prop where
  forest : s.Forest T.Reach (DominatorArrays.linkedRoot root p w) (Cand T i)
  semi_above : ∀ z, T.Reach z → i < T.num z → ∃ d, T.IsSemidominator d z ∧ s.semi z = T.num d
  semi_below : ∀ z, T.Reach z → T.num z ≤ i → s.semi z = T.num z
  vertex : ∀ x, T.Reach x → s.vertex (T.num x) = x
  parent : s.parent = T.parent
  bucket : ∀ q v, v ∈ s.bucket q ↔ v = w ∧ T.IsSemidominator q w ∨ Waiting T (i + 1) q v
  dom : ∀ q v, Due T (i + 1) q v → Evaluated T (s.dom v) q v

theorem Semidominated.join (hr : Ready T) (hs₀ : Processed T (i + 1) s₀)
    (h : Semidominated T i w d s₀ root s)
    (hroot : ∀ x, T.Reach x → RootAt T (i + 1) x (root x)) (hpw : Child T p w)
    (hwi : T.num w = i + 1) :
    ∃ s', ({ s with bucket := update s.bucket d (w :: s.bucket d) } : DominatorArrays).link
        t.fuel p w = some s' ∧ Joined T i p w root s' := by
  obtain ⟨hw, hwr, rfl⟩ := hpw
  have hplt : T.num (T.parent w) < T.num w := T.parent_lt hw hwr
  have hpreach := T.reach_parent hw hwr
  have hlinkable : DominatorArrays.Linkable
      { s with bucket := update s.bucket d (w :: s.bucket d) } T.Reach root (Cand T (i + 1))
      (T.parent w) w :=
    { forest := h.forest.of_eq rfl rfl rfl rfl
      vertex_v := hpreach
      root_v := (hroot _ hpreach).unique (.refl hpreach (by omega))
      vertex_w := hw
      root_w := (hroot w hw).unique (.refl hw (Nat.le_of_eq hwi))
      ne := fun heq => by
        rw [heq] at hplt
        exact absurd hplt (Nat.lt_irrefl _) }
  obtain ⟨s', hlink, hforest, hframe⟩ := hlinkable.link
    (fun y hy => ((hr.full.reach y).mp hy).2) hr.fuel
  have hsemi : s'.semi = s.semi := by rw [hframe]
  have hbucket : s'.bucket = update s₀.bucket d (w :: s₀.bucket d) := by
    rw [hframe, h.frame]
  refine ⟨s', hlink, hforest.congr rfl fun x hx => cand_linked hroot hw hwi hx,
    hsemi ▸ h.semi_above, hsemi ▸ h.semi_below, fun x hx => ?_, ?_, fun q v => ?_,
    fun q v hdue => ?_⟩
  · rw [hframe, h.frame]
    exact hs₀.vertex x hx
  · rw [hframe, h.frame]
    exact hs₀.parent
  · -- `w` is put into the bucket of its semidominator
    rw [hbucket, ← hs₀.bucket q v]
    by_cases hqd : q = d
    · subst hqd
      simp [h.semidominator]
    · have hno : ¬ T.IsSemidominator q w := fun hq => hqd (hq.unique h.semidominator)
      simp [hqd, hno]
  · rw [hframe, h.frame]
    exact hs₀.dom q v hdue

/-- What waits for the parent is evaluated, and the round has done its work. -/
theorem Joined.empty (hr : Ready T) (h : Joined T i p w root s)
    (hroot : ∀ x, T.Reach x → RootAt T (i + 1) x (root x)) (hpw : Child T p w)
    (hwi : T.num w = i + 1) :
    ∃ s', (s.bucket p).foldlM (t.takeOut p) s = some s' ∧ Processed T i s' := by
  have hroot' : ∀ x, T.Reach x → RootAt T i x (DominatorArrays.linkedRoot root p w x) := by
    obtain ⟨hw, hwr, rfl⟩ := hpw
    exact fun x hx => RootAt.linked hroot hw hwr hwi hx
  have hplt := hpw.lt
  have hpreach : T.Reach p := hpw.2.2 ▸ T.reach_parent hpw.1 hpw.2.1
  have hwaits : ∀ v ∈ s.bucket p, T.Reach v ∧ s.semi v = T.num p ∧ T.Anc w v := by
    intro v hv
    rcases (h.bucket p v).mp hv with ⟨rfl, hdv⟩ | hwait
    · obtain ⟨e, he, hsv⟩ := h.semi_above v hpw.1 (by omega)
      exact ⟨hpw.1, by rw [hsv, he.unique hdv], .refl v⟩
    · have hlt := hwait.2.1
      obtain ⟨e, he, hsv⟩ := h.semi_above v hwait.1 (by omega)
      exact ⟨hwait.1, by rw [hsv, he.unique hwait.2.2.1], hwait.anc hpw hwi⟩
  have hempty : Emptying T i p s (DominatorArrays.linkedRoot root p w) (s.bucket p) s :=
    ⟨rfl, h.forest, rfl, fun _ _ => rfl, fun _ _ => rfl, fun _ hv hv' => absurd hv hv'⟩
  obtain ⟨s', hrun, h'⟩ := hempty.run hr hroot' hpw hwi h.semi_above
    (h.semi_below p hpreach (by omega)) hwaits fun _ hv => hv
  have hsemi : s'.semi = s.semi := by rw [h'.frame]
  refine ⟨s', hrun, ⟨_, h'.forest, hroot'⟩, hsemi ▸ h.semi_above, hsemi ▸ h.semi_below,
    fun x hx => ?_, ?_, fun q v => ?_, fun q v hdue => ?_⟩
  · rw [h'.frame]
    exact h.vertex x hx
  · rw [h'.frame]
    exact h.parent
  · -- the bucket of `p` is empty, and nothing waits for `p` any more
    by_cases hqp : q = p
    · rw [hqp, h'.bucket]
      exact iff_of_false List.not_mem_nil (not_waiting hpw hwi)
    · rw [h'.bucket_of_ne q hqp, h.bucket, waiting_iff hpw hwi hqp]
  · -- what was due before keeps its value, what is new was in the bucket
    by_cases hdue' : Due T (i + 1) q v
    · obtain ⟨hvw, hnot⟩ := hdue'.not_mem (p := p) hwi
      rw [h'.dom v fun hmem => ((h.bucket p v).mp hmem).elim (fun hv => hvw hv.1) hnot]
      exact h.dom q v hdue'
    · obtain ⟨rfl, hmem⟩ := (hdue.cases hpw hwi).resolve_left hdue'
      exact h'.evaluated v ((h.bucket q v).mpr hmem) List.not_mem_nil

/-- A round of the main loop. -/
theorem Processed.processVertex (hr : Ready T) (hs : Processed T (i + 1) s) (hi : 0 < i)
    (hin : i + 1 ≤ t.reachableCount) :
    ∃ s', t.processVertex g s (i + 1) = some s' ∧ Processed T i s' := by
  obtain ⟨w, hw, hwi⟩ := hr.full.vertex (i + 1) (Nat.succ_pos i) hin
  have hwr : w ≠ t.rootLoc := fun heq => by
    have := congrArg T.num heq
    rw [hwi, num_root hr] at this
    omega
  have hpw : Child T (T.parent w) w := ⟨hw, hwr, rfl⟩
  obtain ⟨root, hforest, hroot⟩ := hs.forest
  obtain ⟨b, hb⟩ := hr.block w hw
  obtain ⟨s₁, d, hscan, h₁⟩ := hs.scan hr hforest hroot hw hwr hwi hb
  obtain ⟨s₂, hlink, h₂⟩ := h₁.join hr hs hroot hpw hwi
  obtain ⟨s₃, hempty, h₃⟩ := h₂.empty hr hroot hpw hwi
  refine ⟨s₃, ?_, h₃⟩
  -- what the code reads from `vertex` and `parent` is what the tree says
  have hvertex : s.vertex (i + 1) = w := hwi ▸ hs.vertex w hw
  have hparent : s₁.parent w = T.parent w := by
    rw [h₁.frame]
    exact congrFun hs.parent w
  have hput : s₁.vertex (s₁.semi w) = d := by
    rw [h₁.semi, h₁.frame]
    exact hs.vertex d h₁.semidominator.reach
  rw [LengauerTarjan.processVertex, hvertex]
  dsimp only
  rw [hb, Option.bind_some, hscan, Option.bind_some, hput, hparent, hlink, Option.bind_some,
    h₂.parent]
  exact hempty

/-- The rounds from number `i + k` down to `i + 1`. -/
theorem Processed.run (hr : Ready T) (hi : 0 < i) (k : Nat) (hs : Processed T (i + k) s)
    (hin : i + k ≤ t.reachableCount) :
    ∃ s', (List.range' (i + 1) k).reverse.foldlM (t.processVertex g) s = some s' ∧
      Processed T i s' := by
  induction k generalizing s with
  | zero => exact ⟨s, rfl, hs⟩
  | succ k ih =>
    obtain ⟨s₁, hstep, h₁⟩ := Processed.processVertex (i := i + k) hr hs (by omega) hin
    obtain ⟨s', hrun, h'⟩ := ih h₁ (by omega)
    refine ⟨s', ?_, h'⟩
    have hlast : i + 1 + k = i + k + 1 := by omega
    rw [List.range'_concat, List.reverse_append, Nat.one_mul, hlast]
    rw [List.reverse_cons, List.reverse_nil, List.nil_append, List.cons_append, List.nil_append,
      List.foldlM_cons, hstep]
    exact hrun

/-! ## Immediate dominators -/

/-- After the main loop every vertex but the root has been evaluated. -/
theorem Processed.evaluated (hr : Ready T) (hs : Processed T 1 s) (hv : T.Reach v)
    (hvr : v ≠ t.rootLoc) :
    ∃ p, T.IsSemidominator p v ∧ s.vertex (s.semi v) = p ∧ Evaluated T (s.dom v) p v := by
  have habove : ∀ x, T.Reach x → x ≠ t.rootLoc → 1 < T.num x := fun x hx hxr => by
    have hle := DfsTree.num_root_le (T := T) hx
    have hne : T.num x ≠ T.num t.rootLoc := fun heq => hxr (T.injective hx .refl heq)
    have := num_root hr
    omega
  obtain ⟨p, hp, hsemi⟩ := hs.semi_above v hv (habove v hv hvr)
  obtain ⟨c, hc, hcr, hpc, hcv⟩ :=
    (hp.anc hv hvr).exists_child hp.reach hv (hp.lt hv hvr)
  refine ⟨p, hp, by rw [hsemi, hs.vertex p hp.reach], hs.dom p v ?_⟩
  exact ⟨hv, hp, c, ⟨hc, hcr, hpc⟩, hcv, habove c hc hcr⟩

/-- The loop in ascending order: the vertices up to the number have their immediate dominators. -/
theorem setDom_run (hr : Ready T) (hs : Processed T 1 s) (k : Nat) (hk : 1 + k ≤ t.reachableCount) :
    ∃ dom, (List.range' 2 k).foldl setDom s = { s with dom := dom } ∧
      (∀ v, T.Reach v → v ≠ t.rootLoc → T.num v ≤ 1 + k →
        IsImmDominator (t.Succ g) t.rootLoc (dom v) v) ∧
      ∀ v, T.Reach v → 1 + k < T.num v → dom v = s.dom v := by
  induction k with
  | zero =>
    -- only the root has number 1
    refine ⟨s.dom, rfl, fun v hv hvr hle => ?_, fun _ _ _ => rfl⟩
    have := (hr.full.num v hv).1
    have hnum : T.num v = T.num t.rootLoc := by
      have := num_root hr
      omega
    exact absurd (T.injective hv .refl hnum) hvr
  | succ k ih =>
    obtain ⟨dom, hfold, himm, hsame⟩ := ih (by omega)
    obtain ⟨w, hw, hwk⟩ := hr.full.vertex (2 + k) (by omega) (by omega)
    have hwr : w ≠ t.rootLoc := fun heq => by
      have := congrArg T.num heq
      rw [hwk, num_root hr] at this
      omega
    obtain ⟨p, hp, hvertex, heval⟩ := hs.evaluated hr hw hwr
    rw [← hsame w hw (by omega)] at heval
    have hnumber : s.vertex (2 + k) = w := hwk ▸ hs.vertex w hw
    have hother : ∀ v, T.Reach v → v ≠ w → T.num v ≤ 1 + (k + 1) → T.num v ≤ 1 + k :=
      fun v hv hvw hle => by
        have : T.num v ≠ 2 + k := fun heq => hvw (T.injective hv hw (heq.trans hwk.symm))
        omega
    rw [List.range'_concat, List.foldl_append, hfold, Nat.one_mul]
    rw [List.foldl_cons, List.foldl_nil, setDom]
    dsimp only
    rw [hnumber, hvertex]
    rcases heval with ⟨hdom, hnone⟩ | ⟨e, hd, hpd, hdw, he, hep, hnone⟩
    -- the semidominator is the immediate dominator, and `dom` stays
    · rw [if_neg (not_not.mpr hdom)]
      refine ⟨dom, rfl, fun v hv hvr hle => ?_, fun v hv hlt => hsame v hv (by omega)⟩
      by_cases hvw : v = w
      · rw [hvw, hdom]
        exact DfsTree.isImmDominator_of_forall hw hwr hp hnone
      · exact himm v hv hvr (hother v hv hvw hle)
    · have hne : dom w ≠ p := fun heq => by
        rw [heq] at hpd
        exact absurd hpd (Nat.lt_irrefl _)
      rw [if_pos hne]
      refine ⟨_, rfl, fun v hv hvr hle => ?_, fun v hv hlt => ?_⟩
      · by_cases hvw : v = w
        · -- the vertex between is numbered before, so its immediate dominator is known
          subst hvw
          rw [Function.update_self]
          have hdr := DfsTree.ne_root hp.reach hpd
          have hlt : T.num (dom v) ≠ T.num v := fun heq => by
            have heq := T.injective hd hv heq
            rw [heq] at he
            rw [he.unique hp] at hep
            exact absurd hep (Nat.lt_irrefl _)
          have := hdw.1
          exact DfsTree.isImmDominator_of_least hv hp hvr hd hpd hdw he hnone
            (himm _ hd hdr (by omega))
        · rw [Function.update_of_ne hvw]
          exact himm v hv hvr (hother v hv hvw hle)
      · rw [Function.update_of_ne fun heq => by
          rw [heq] at hlt
          omega]
        exact hsame v hv (by omega)

/-- What the search leaves is the start of the main loop. -/
theorem Processed.start (hfull : Full t T) (hvertex : ∀ x, T.Reach x → s.vertex (T.num x) = x)
    (hparent : s.parent = T.parent) (hbucket : ∀ p, s.bucket p = []) (hlabel : s.label 0 = 0)
    (hsemi : s.semi 0 = 0) (hnum : ∀ x, T.Reach x → s.semi x = T.num x)
    (halone : ∀ x, T.Reach x → s.label x = x ∧ s.ancestor x = 0 ∧ s.child x = 0) :
    Processed T t.reachableCount s := by
  have hle : ∀ x, T.Reach x → T.num x ≤ t.reachableCount := fun x hx => (hfull.num x hx).2
  have hnull : ¬ T.Reach 0 := fun h => absurd ((hfull.reach 0).mp h).1 (Nat.lt_irrefl 0)
  refine ⟨⟨id, .alone hnull hlabel hsemi halone fun x _ z hz => ?_,
      fun x hx => .refl hx (hle x hx)⟩, fun w hw hlt => ?_, fun w hw _ => hnum w hw, hvertex,
    hparent, fun p v => ?_, fun p v hdue => ?_⟩
  · exact absurd hz.2.2 (Nat.not_lt_of_le (hle z hz.1))
  · exact absurd hlt (Nat.not_lt_of_le (hle w hw))
  · rw [hbucket p]
    refine iff_of_false List.not_mem_nil fun hwait => ?_
    exact absurd hwait.2.1 (Nat.not_lt_of_le (hle v hwait.1))
  · obtain ⟨-, -, c, hc, -, hlt⟩ := hdue
    exact absurd hlt (Nat.not_lt_of_le (hle c hc.1))

/-- `immediateDominators` ends and fails no assertion before it tells the blocks, and then `dom`
has the immediate dominators. -/
theorem findDominators_spec (hclosed : Closed t g)
    (hroot : 0 < t.rootLoc ∧ t.rootLoc ≤ t.reachableCount) (hfuel : t.reachableCount < t.fuel)
    (hall : ∀ x, 0 < x → x ≤ t.reachableCount → ReflTransGen (t.Succ g) t.rootLoc x)
    (hready : ∀ T : DfsTree (t.Succ g) t.rootLoc, Full t T → Ready T) (heap : DominatorArrays) :
    ∃ s, t.findDominators g (newArrays heap) = some s ∧
      (∀ j, 0 < j → j ≤ t.reachableCount → 0 < s.vertex j ∧ s.vertex j ≤ t.reachableCount) ∧
      (∀ v, 0 < v → v ≤ t.reachableCount → ∃ j, 0 < j ∧ j ≤ t.reachableCount ∧ s.vertex j = v) ∧
      s.dom t.rootLoc = 0 ∧
      ∀ v, 0 < v → v ≤ t.reachableCount → v ≠ t.rootLoc →
        IsImmDominator (t.Succ g) t.rootLoc (s.dom v) v := by
  obtain ⟨s₁, k, T, hsearch, hnum, hparent, hfull, hvertex, halone, hbucket⟩ :=
    depthFirstSearch_spec hclosed (s := newArrays heap) hroot (fun _ => rfl) hfuel hall
  have hr := hready T hfull
  have hne : ∀ x, T.Reach x → x ≠ 0 := fun x hx => Nat.ne_of_gt ((hfull.reach x).mp hx).1
  have hstart := Processed.start (s := { s₁ with
      size := update s₁.size 0 0, label := update s₁.label 0 0, semi := update s₁.semi 0 0 })
    hfull hvertex hparent.symm (fun p => congrFun hbucket p)
    (Function.update_self (0 : Nat) 0 s₁.label)
    (Function.update_self (0 : Nat) 0 s₁.semi)
    (fun x hx => (Function.update_of_ne (hne x hx) 0 s₁.semi).trans (congrFun hnum.symm x))
    fun x hx => by
      obtain ⟨hlabel, hancestor, hchild⟩ := halone x hx
      exact ⟨(Function.update_of_ne (hne x hx) 0 s₁.label).trans hlabel, hancestor, hchild⟩
  have hcount : 1 + (t.reachableCount - 1) = t.reachableCount := by omega
  obtain ⟨s₂, hrun, h₂⟩ := Processed.run (i := 1) hr Nat.one_pos (t.reachableCount - 1)
    (hcount.symm ▸ hstart) (Nat.le_of_eq hcount)
  obtain ⟨dom, hfold, himm, -⟩ := setDom_run hr h₂ (t.reachableCount - 1) (Nat.le_of_eq hcount)
  refine ⟨{ s₂ with dom := update dom t.rootLoc 0 }, ?_, fun j hj hjn => ?_, fun v hv hvn => ?_,
    Function.update_self _ _ _, fun v hv hvn hvr => ?_⟩
  · rw [findDominators, fuel, ← fuel, hsearch, Option.bind_some]
    dsimp only
    rw [hrun, Option.map_some, hfold]
  · obtain ⟨x, hx, rfl⟩ := hfull.vertex j hj hjn
    show 0 < s₂.vertex _ ∧ s₂.vertex _ ≤ _
    rw [h₂.vertex x hx]
    exact (hfull.reach x).mp hx
  · have hx := (hfull.reach v).mpr ⟨hv, hvn⟩
    exact ⟨T.num v, (hfull.num v hx).1, (hfull.num v hx).2, h₂.vertex v hx⟩
  · have hx := (hfull.reach v).mpr ⟨hv, hvn⟩
    dsimp only
    rw [Function.update_of_ne hvr]
    exact himm v hx hvr (hcount.symm ▸ (hfull.num v hx).2)

end LengauerTarjan

end Pebil

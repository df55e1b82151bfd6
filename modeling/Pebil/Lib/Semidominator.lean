import Pebil.Lib.Dominance
import Mathlib.Order.Lattice

/-!
# Semidominators of a depth-first numbering

A `DfsTree` numbers the vertices that the root reaches and gives each but the root a parent with a
smaller number. What makes it depth-first is one condition on edges: all that is numbered from the
tail of an edge to its head, the tail excluded, has a parent numbered not before the tail. A vertex
is an ancestor of another (`Anc`) if the same holds between the two of them, and so the
descendants of a vertex are numbered without a gap (`Anc.of_le`).

Every fact about dominators comes from one about paths (`exists_least`): a path that stays above a
number has a least vertex, the end descends from that vertex, and the path up to it is one of those
that semidominators are about. `isSemidominator_of_sources` is how semidominators are found from
those of larger vertices. `isImmDominator_of_forall` and `isImmDominator_of_least` are how
immediate dominators are found from the semidominators.
-/

namespace Pebil

universe u

open Relation (ReflTransGen)

/-- A depth-first numbering of what `r` reaches, with its tree. -/
structure DfsTree {α : Type u} (succ : α → α → Prop) (r : α) where
  num : α → Nat
  parent : α → α
  injective : ∀ {a b}, ReflTransGen succ r a → ReflTransGen succ r b → num a = num b → a = b
  reach_parent : ∀ {w}, ReflTransGen succ r w → w ≠ r → ReflTransGen succ r (parent w)
  succ_parent : ∀ {w}, ReflTransGen succ r w → w ≠ r → succ (parent w) w
  parent_lt : ∀ {w}, ReflTransGen succ r w → w ≠ r → num (parent w) < num w
  edge : ∀ {u w}, ReflTransGen succ r u → succ u w → ∀ y, ReflTransGen succ r y →
    num u < num y → num y ≤ num w → num u ≤ num (parent y)

namespace DfsTree

variable {α : Type u} {succ : α → α → Prop} {r : α} {T : DfsTree succ r}

/-- Reachable from the root. -/
abbrev Reach (_ : DfsTree succ r) (a : α) : Prop := ReflTransGen succ r a

/-- `a` is an ancestor of `w` in the tree, or `w` itself. -/
def Anc (T : DfsTree succ r) (a w : α) : Prop :=
  T.num a ≤ T.num w ∧
    ∀ y, T.Reach y → T.num a < T.num y → T.num y ≤ T.num w → T.num a ≤ T.num (T.parent y)

/-- The edges to vertices above `k`. -/
def Above (T : DfsTree succ r) (k : Nat) (x y : α) : Prop := succ x y ∧ k < T.num y

/-- The edges to vertices not below `k`. -/
def From (T : DfsTree succ r) (k : Nat) (x y : α) : Prop := succ x y ∧ k ≤ T.num y

/-- Some path leads from `v` to `w` over vertices above `w`. -/
def SemiPath (T : DfsTree succ r) (v w : α) : Prop :=
  ∃ u, ReflTransGen (T.Above (T.num w)) v u ∧ succ u w

/-- The least vertex from which such a path leads to `w`. -/
structure IsSemidominator (T : DfsTree succ r) (s w : α) : Prop where
  reach : T.Reach s
  path : T.SemiPath s w
  least : ∀ v, T.Reach v → T.SemiPath v w → T.num s ≤ T.num v

variable {a b c d m s t u v w x y : α} {k : Nat}

/-! ## Ancestors -/

theorem num_root_le (hw : T.Reach w) : T.num r ≤ T.num w := by
  induction hn : T.num w using Nat.strongRecOn generalizing w with
  | ind n ih =>
    by_cases hwr : w = r
    · rw [← hn, hwr]
    · have hlt := T.parent_lt hw hwr
      have hle := ih _ (hn ▸ hlt) (T.reach_parent hw hwr) rfl
      omega

theorem ne_root (ha : T.Reach a) (h : T.num a < T.num w) : w ≠ r := by
  rintro rfl
  exact absurd (num_root_le ha) (Nat.not_le_of_lt h)

theorem Anc.refl (a : α) : T.Anc a a :=
  ⟨Nat.le_refl _, fun _ _ hlt hle => absurd hle (Nat.not_le_of_lt hlt)⟩

theorem Anc.le (h : T.Anc a w) : T.num a ≤ T.num w := h.1

theorem Anc.trans (h : T.Anc a b) (h' : T.Anc b c) : T.Anc a c := by
  refine ⟨Nat.le_trans h.1 h'.1, fun y hy hay hyc => ?_⟩
  rcases Nat.lt_or_ge (T.num b) (T.num y) with hby | hyb
  · exact Nat.le_trans h.1 (h'.2 y hy hby hyc)
  · exact h.2 y hy hay hyb

/-- The descendants of a vertex are numbered without a gap. -/
theorem Anc.of_le (h : T.Anc a w) (hax : T.num a ≤ T.num x) (hxw : T.num x ≤ T.num w) :
    T.Anc a x :=
  ⟨hax, fun y hy hay hyx => h.2 y hy hay (Nat.le_trans hyx hxw)⟩

theorem Anc.antisymm (ha : T.Reach a) (hb : T.Reach b) (h : T.Anc a b) (h' : T.Anc b a) : a = b :=
  T.injective ha hb (Nat.le_antisymm h.1 h'.1)

theorem Anc.parent (h : T.Anc a w) (ha : T.Reach a) (hw : T.Reach w) (hlt : T.num a < T.num w) :
    T.Anc a (T.parent w) :=
  h.of_le (h.2 w hw hlt (Nat.le_refl _)) (Nat.le_of_lt (T.parent_lt hw (ne_root ha hlt)))

theorem anc_of_succ (hu : T.Reach u) (h : succ u w) (hle : T.num u ≤ T.num w) : T.Anc u w :=
  ⟨hle, T.edge hu h⟩

theorem anc_parent (hw : T.Reach w) (hwr : w ≠ r) : T.Anc (T.parent w) w :=
  anc_of_succ (T.reach_parent hw hwr) (T.succ_parent hw hwr) (Nat.le_of_lt (T.parent_lt hw hwr))

/-- The tree path to a descendant. -/
theorem Anc.path (h : T.Anc a w) (ha : T.Reach a) (hw : T.Reach w) :
    ReflTransGen (T.Above (T.num a)) a w := by
  induction hn : T.num w using Nat.strongRecOn generalizing w with
  | ind n ih =>
    rcases Nat.lt_or_ge (T.num a) (T.num w) with hlt | hge
    · have hwr := ne_root ha hlt
      have hup := ih _ (hn ▸ T.parent_lt hw hwr) (h.parent ha hw hlt) (T.reach_parent hw hwr) rfl
      exact hup.tail ⟨T.succ_parent hw hwr, hlt⟩
    · obtain rfl := T.injective ha hw (Nat.le_antisymm h.1 hge)
      exact .refl

/-- A child of `a` above each strict descendant. -/
theorem Anc.exists_child (h : T.Anc a w) (ha : T.Reach a) (hw : T.Reach w)
    (hlt : T.num a < T.num w) :
    ∃ c, T.Reach c ∧ c ≠ r ∧ T.parent c = a ∧ T.Anc c w := by
  induction hn : T.num w using Nat.strongRecOn generalizing w with
  | ind n ih =>
    have hwr := ne_root ha hlt
    have hup := h.parent ha hw hlt
    have hparent := T.reach_parent hw hwr
    rcases Nat.lt_or_ge (T.num a) (T.num (T.parent w)) with hlt' | hge
    · obtain ⟨c, hc, hcr, hpc, hanc⟩ := ih _ (hn ▸ T.parent_lt hw hwr) hup hparent hlt' rfl
      exact ⟨c, hc, hcr, hpc, hanc.trans (anc_parent hw hwr)⟩
    · exact ⟨w, hw, hwr, (T.injective ha hparent (Nat.le_antisymm hup.1 hge)).symm, .refl w⟩

/-- What a path reaches without going below its start descends from the start. -/
theorem anc_of_path (hm : T.Reach m) (h : ReflTransGen (T.From (T.num m)) m b) :
    T.Reach b ∧ T.Anc m b := by
  induction h with
  | refl => exact ⟨hm, .refl m⟩
  | @tail x y _ hxy ih =>
    obtain ⟨hx, hmx⟩ := ih
    refine ⟨hx.tail hxy.1, ?_⟩
    rcases Nat.le_total (T.num x) (T.num y) with hle | hge
    · exact hmx.trans (anc_of_succ hx hxy.1 hle)
    · exact hmx.of_le hxy.2 hge

/-! ## Paths above a number -/

theorem Above.mono {k k' : Nat} (hk : k' ≤ k) (h : ReflTransGen (T.Above k) x y) :
    ReflTransGen (T.Above k') x y :=
  ReflTransGen.mono (fun _ _ hxy => ⟨hxy.1, Nat.lt_of_le_of_lt hk hxy.2⟩) _ _ h

theorem Above.reach (hx : T.Reach x) (h : ReflTransGen (T.Above k) x y) : T.Reach y :=
  hx.trans (ReflTransGen.mono (fun _ _ hxy => hxy.1) _ _ h)

/-- A path above `d` avoids it. -/
theorem Above.avoiding (hx : x ≠ d) (h : ReflTransGen (T.Above (T.num d)) x y) :
    PathAvoiding succ d x y :=
  ⟨hx, ReflTransGen.mono (fun _ _ hxz => ⟨hxz.1, fun hz => absurd hxz.2 (hz ▸ Nat.lt_irrefl _)⟩)
    _ _ h⟩

theorem SemiPath.above (h : T.SemiPath v w) (hk : k < T.num w) :
    ReflTransGen (T.Above k) v w := by
  obtain ⟨u, hvu, huw⟩ := h
  exact (Above.mono (Nat.le_of_lt hk) hvu).tail ⟨huw, hk⟩

theorem SemiPath.of_succ (h : succ v w) : T.SemiPath v w := ⟨v, .refl, h⟩

/-- A path above `k` has a least vertex. The end descends from it, and the path up to it stays
above it. -/
theorem exists_least (hx : T.Reach x) (h : ReflTransGen (T.Above k) x b) :
    x = b ∨ ∃ m, k < T.num m ∧ T.Reach m ∧ T.SemiPath x m ∧ T.Anc m b := by
  -- the whole path is kept not to go below `m`, as the next vertex may be less than `m`
  have hkeep : x = b ∨ ∃ m, k < T.num m ∧ T.Reach m ∧ T.SemiPath x m ∧ T.Anc m b ∧
      ReflTransGen (T.From (T.num m)) x b := by
    induction h with
    | refl => exact .inl rfl
    | @tail y z hxy hyz ih =>
      have hy := Above.reach hx hxy
      rcases ih with rfl | ⟨m, hkm, hm, hsemi, hanc, hfrom⟩
      · exact .inr ⟨z, hyz.2, hx.tail hyz.1, .of_succ hyz.1, .refl z,
          .single ⟨hyz.1, Nat.le_refl _⟩⟩
      rcases Nat.lt_or_ge (T.num z) (T.num m) with hzm | hmz
      · have habove : ReflTransGen (T.Above (T.num z)) x y :=
          ReflTransGen.mono (fun _ _ h => ⟨h.1, Nat.lt_of_lt_of_le hzm h.2⟩) _ _ hfrom
        refine .inr ⟨z, hyz.2, hy.tail hyz.1, ⟨y, habove, hyz.1⟩, .refl z, ?_⟩
        exact .tail (ReflTransGen.mono (fun _ _ h => ⟨h.1, Nat.le_of_lt h.2⟩) _ _ habove)
          ⟨hyz.1, Nat.le_refl _⟩
      · refine .inr ⟨m, hkm, hm, hsemi, ?_, hfrom.tail ⟨hyz.1, hmz⟩⟩
        rcases Nat.le_total (T.num y) (T.num z) with hle | hge
        · exact hanc.trans (anc_of_succ hy hyz.1 hle)
        · exact hanc.of_le hmz hge
  exact hkeep.imp_right fun ⟨m, hkm, hm, hsemi, hanc, _⟩ => ⟨m, hkm, hm, hsemi, hanc⟩

/-- A path that avoids `d` goes above `d` for good after some vertex below it. -/
theorem exists_crossing (hd : T.Reach d) (h : PathAvoiding succ d r w) :
    ∃ x, PathAvoiding succ d r x ∧ T.num x < T.num d ∧ ReflTransGen (T.Above (T.num d)) x w := by
  obtain ⟨hne, hpath⟩ := h
  induction hpath with
  | refl =>
    refine ⟨r, .refl hne, Nat.lt_of_le_of_ne (num_root_le hd) fun heq => ?_, .refl⟩
    exact hne (T.injective .refl hd heq)
  | @tail y z hry hyz ih =>
    obtain ⟨x, hrx, hxd, hxy⟩ := ih
    have hz : PathAvoiding succ d r z := PathAvoiding.snoc ⟨hne, hry⟩ hyz.1 hyz.2
    rcases Nat.lt_trichotomy (T.num z) (T.num d) with hlt | heq | hgt
    · exact ⟨z, hz, hlt, .refl⟩
    · exact absurd (T.injective hz.reach hd heq) hyz.2
    · exact ⟨x, hrx, hxd, hxy.tail ⟨hyz.1, hgt⟩⟩

/-! ## Dominators are ancestors -/

theorem anc_of_dominates (hw : T.Reach w) (h : Dominates succ r a w) : T.Anc a w := by
  by_contra hanc
  refine h ?_
  clear h
  induction hn : T.num w using Nat.strongRecOn generalizing w with
  | ind n ih =>
    have hwa : w ≠ a := fun heq => hanc (heq ▸ .refl w)
    by_cases hwr : w = r
    · subst hwr
      exact .refl hwa
    · have hup : ¬ T.Anc a (T.parent w) := fun h => hanc (h.trans (anc_parent hw hwr))
      exact (ih _ (hn ▸ T.parent_lt hw hwr) (T.reach_parent hw hwr) hup rfl).snoc
        (T.succ_parent hw hwr) hwa

theorem lt_of_dominates (hw : T.Reach w) (h : Dominates succ r a w) (hne : a ≠ w) :
    T.num a < T.num w := by
  refine Nat.lt_of_le_of_ne (anc_of_dominates hw h).1 fun heq => hne ?_
  exact T.injective (h.reach hw) hw heq

/-- A strict dominator of `w` dominates what the tree has between the two. -/
theorem dominates_between (ha : Dominates succ r a w) (hw : T.Reach w) (hu : T.Reach u)
    (hanc : T.Anc u w) (hlt : T.num a < T.num u) : Dominates succ r a u := by
  refine ha.of_pathAvoiding (Above.avoiding (fun heq => ?_)
    (Above.mono (Nat.le_of_lt hlt) (hanc.path hu hw)))
  exact absurd hlt (heq ▸ Nat.lt_irrefl _)

/-! ## Semidominators -/

namespace IsSemidominator

theorem unique (h : T.IsSemidominator s w) (h' : T.IsSemidominator t w) : s = t :=
  T.injective h.reach h'.reach
    (Nat.le_antisymm (h.least t h'.reach h'.path) (h'.least s h.reach h.path))

theorem le_parent (h : T.IsSemidominator s w) (hw : T.Reach w) (hwr : w ≠ r) :
    T.num s ≤ T.num (T.parent w) :=
  h.least _ (T.reach_parent hw hwr) (.of_succ (T.succ_parent hw hwr))

theorem lt (h : T.IsSemidominator s w) (hw : T.Reach w) (hwr : w ≠ r) : T.num s < T.num w :=
  Nat.lt_of_le_of_lt (h.le_parent hw hwr) (T.parent_lt hw hwr)

theorem anc (h : T.IsSemidominator s w) (hw : T.Reach w) (hwr : w ≠ r) : T.Anc s w := by
  have hpath := h.path.above (h.lt hw hwr)
  exact (anc_of_path h.reach
    (ReflTransGen.mono (fun _ _ hxy => ⟨hxy.1, Nat.le_of_lt hxy.2⟩) _ _ hpath)).2

/-- The strict dominators dominate the semidominator. -/
theorem dominates (h : T.IsSemidominator s w) (hw : T.Reach w) (ha : Dominates succ r a w)
    (hne : a ≠ w) : Dominates succ r a s := by
  have hlt := lt_of_dominates hw ha hne
  by_cases hsa : s = a
  · exact hsa ▸ .refl succ r s
  · exact ha.of_pathAvoiding (Above.avoiding hsa (h.path.above hlt))

end IsSemidominator

/-- The semidominator of `w` is the least of what its sources give: a source below `w` itself, and
the semidominators of the vertices above `w` from which a source descends. -/
theorem isSemidominator_of_sources (hw : T.Reach w) (hwr : w ≠ r) {semidom : α → α}
    (hsemi : ∀ u, T.Reach u → T.num w < T.num u → T.IsSemidominator (semidom u) u)
    (hs : T.Reach s)
    (hsource : ∀ v, T.Reach v → succ v w → T.num v < T.num w → T.num s ≤ T.num v)
    (habove : ∀ v u, T.Reach v → succ v w → T.Reach u → T.Anc u v → T.num w < T.num u →
      T.num s ≤ T.num (semidom u))
    (hattained : succ s w ∨ ∃ v u, T.Reach v ∧ succ v w ∧ T.Reach u ∧ T.Anc u v ∧
      T.num w < T.num u ∧ s = semidom u) :
    T.IsSemidominator s w where
  reach := hs
  path := by
    rcases hattained with h | ⟨v, u, hv, hvw, hu, huv, hlt, rfl⟩
    · exact .of_succ h
    · have htree := Above.mono (Nat.le_of_lt hlt) (huv.path hu hv)
      exact ⟨v, ((hsemi u hu hlt).path.above hlt).trans htree, hvw⟩
  least x hx hpath := by
    obtain ⟨v, hxv, hvw⟩ := hpath
    have hv := Above.reach hx hxv
    rcases exists_least hx hxv with rfl | ⟨m, hlt, hm, hxm, hmv⟩
    · rcases Nat.lt_or_ge (T.num x) (T.num w) with hxw | hwx
      · exact hsource x hx hvw hxw
      · have hup := hsource _ (T.reach_parent hw hwr) (T.succ_parent hw hwr) (T.parent_lt hw hwr)
        exact Nat.le_trans hup (Nat.le_trans (Nat.le_of_lt (T.parent_lt hw hwr)) hwx)
    · exact Nat.le_trans (habove v m hv hvw hm hmv hlt) ((hsemi m hm hlt).least x hx hxm)

/-! ## Immediate dominators -/

/-- Where no vertex between has a smaller semidominator, the semidominator is the immediate
dominator. -/
theorem isImmDominator_of_forall (hw : T.Reach w) (hwr : w ≠ r) (hs : T.IsSemidominator s w)
    (hle : ∀ m, T.Reach m → T.num s < T.num m → T.Anc m w → ∀ x, T.Reach x → T.SemiPath x m →
      T.num s ≤ T.num x) :
    IsImmDominator succ r s w where
  ne heq := absurd (hs.lt hw hwr) (heq ▸ Nat.lt_irrefl _)
  dominates h := by
    obtain ⟨x, hrx, hlt, hxw⟩ := exists_crossing hs.reach h
    rcases exists_least hrx.reach hxw with rfl | ⟨m, hsm, hm, hxm, hmw⟩
    · exact absurd (Nat.lt_trans hlt (hs.lt hw hwr)) (Nat.lt_irrefl _)
    · exact absurd (hle m hm hsm hmw x hrx.reach hxm) (Nat.not_le_of_lt hlt)
  closest _ ha hne := hs.dominates hw ha hne

/-- The vertex between with the least semidominator has the same immediate dominator. -/
theorem isImmDominator_of_least (hw : T.Reach w) (hs : T.IsSemidominator s w)
    (hwr : w ≠ r) (hu : T.Reach u) (hsu : T.num s < T.num u) (huw : T.Anc u w)
    (ht : T.IsSemidominator t u)
    (hle : ∀ m, T.Reach m → T.num s < T.num m → T.Anc m w → ∀ x, T.Reach x → T.SemiPath x m →
      T.num t ≤ T.num x)
    (hd : IsImmDominator succ r d u) : IsImmDominator succ r d w := by
  have hdu := lt_of_dominates hu hd.dominates hd.ne
  have hdreach := hd.dominates.reach hu
  have hdt : T.num d ≤ T.num t := (anc_of_dominates ht.reach (ht.dominates hu hd.dominates hd.ne)).1
  refine ⟨fun heq => ?_, fun h => ?_, fun a ha hne => ?_⟩
  · exact absurd (Nat.lt_of_lt_of_le hdu huw.1) (heq ▸ Nat.lt_irrefl _)
  · obtain ⟨x, hrx, hxd, hxw⟩ := exists_crossing (T := T) hdreach h
    rcases exists_least hrx.reach hxw with rfl | ⟨m, hdm, hm, hxm, hmw⟩
    · exact absurd (Nat.lt_trans hxd (Nat.lt_of_lt_of_le hdu huw.1)) (Nat.lt_irrefl _)
    rcases Nat.le_total (T.num m) (T.num u) with hmu | hum
    · -- `u` descends from `m`, and `d` is avoided up to `m` and from it on
      have hmanc := hmw.of_le hmu huw.1
      refine hd.dominates (hrx.trans (Above.avoiding (T := T) hrx.right_ne ?_))
      exact (hxm.above hdm).trans (Above.mono (Nat.le_of_lt hdm) (hmanc.path hm hu))
    · have := hle m hm (Nat.lt_of_lt_of_le hsu hum) hmw x hrx.reach hxm
      omega
  · -- a strict dominator of `w` is above `s`, so it dominates `u` too
    have has := (anc_of_dominates hs.reach (hs.dominates hw ha hne)).1
    have hau := Nat.lt_of_le_of_lt has hsu
    refine hd.closest a (dominates_between ha hw hu huw hau) fun heq => ?_
    exact absurd hau (heq ▸ Nat.lt_irrefl _)

end DfsTree

end Pebil

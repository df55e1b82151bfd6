import Pebil.Cfg.LengauerTarjan
import Pebil.Lib.Climb

/-!
# What `EVAL` finds in the forest that `LINK` builds (src/LengauerTarjan.C:86–134)

The forest stands for trees whose shape the arrays do not show: `root` gives the root of each
vertex's tree, and `cand` the vertices between the two, the root left out. The climb of a vertex
ends at its root or at another vertex of the chain that starts at the root, and the labels on it
below the root stand for these candidates (`Forest`). A jump of `COMPRESS` keeps that
(`Forest.shortcut`), and so does `LINK`, after which the linked root is a candidate for its whole
tree (`Linkable.link`). What `EVAL` returns is therefore a candidate of least semidominator number,
unless the root itself has a smaller one (`Forest.eval`).
-/

namespace Pebil

open Relation (ReflTransGen)
open Function (update)

namespace DominatorArrays

variable {s s' : DominatorArrays} {V : Nat → Prop} {root : Nat → Nat} {cand : Nat → Nat → Prop}
  {v w x y r vertexS : Nat} {l merged rest : List Nat} {fuel n : Nat}

/-- A label that the climb from `x` passes below `r`. -/
def Passed (s : DominatorArrays) (r x a : Nat) : Prop :=
  ∃ y, Up s.ancestor x y ∧ y ≠ r ∧ s.label y = a

/-- The vertices of the tree of `r` at which climbs end: `r` and the chain `l` of its children. -/
structure Chain (s : DominatorArrays) (V : Nat → Prop) (root : Nat → Nat) (r : Nat)
    (l : List Nat) : Prop where
  climb : Climb s.child r (r :: l)
  mem : ∀ y, y ∈ r :: l ↔ V y ∧ root y = r ∧ s.ancestor y = 0
  sorted : l.Pairwise fun a b => s.semi (s.label b) ≤ s.semi (s.label a)

/-- The arrays stand for the trees with these roots and candidates. -/
structure Forest (s : DominatorArrays) (V : Nat → Prop) (root : Nat → Nat)
    (cand : Nat → Nat → Prop) : Prop where
  not_zero : ¬ V 0
  label_zero : s.label 0 = 0
  semi_zero : s.semi 0 = 0
  root_vertex : ∀ {x}, V x → V (root x)
  root_root : ∀ {x}, V x → root (root x) = root x
  label_root : ∀ {x}, V x → s.label (root x) = root x
  linked : ∀ {x}, V x → root x ≠ x → root (s.label x) ≠ s.label x
  ancestor : ∀ {x}, V x → s.ancestor x ≠ 0 → V (s.ancestor x) ∧ root (s.ancestor x) = root x
  ends : ∀ {x}, V x → ∃ l, Climb s.ancestor x l
  chain : ∀ {x}, V x → ∃ l, Chain s V root (root x) l
  stands : ∀ {x}, V x → StandFor s.semi (cand x) (Passed s (root x) x)

namespace Forest

theorem ne_zero (h : Forest s V root cand) (hx : V x) : x ≠ 0 := by
  rintro rfl
  exact h.not_zero hx

theorem ancestor_root (h : Forest s V root cand) (hx : V x) : s.ancestor (root x) = 0 := by
  obtain ⟨l, hl⟩ := h.chain hx
  exact ((hl.mem _).mp List.mem_cons_self).2.2

theorem up (h : Forest s V root cand) (hx : V x) (hxy : Up s.ancestor x y) :
    V y ∧ root y = root x := by
  induction hxy with
  | refl => exact ⟨hx, rfl⟩
  | @tail a b _ hab ih =>
    obtain ⟨rfl, hne⟩ := hab
    have hup := h.ancestor ih.1 hne
    exact ⟨hup.1, hup.2.trans ih.2⟩

theorem congr {root' : Nat → Nat} {cand' : Nat → Nat → Prop} (h : Forest s V root cand)
    (hroot : root' = root) (hcand : ∀ x, V x → cand' x = cand x) : Forest s V root' cand' := by
  subst hroot
  exact { h with stands := fun hx => by rw [hcand _ hx]; exact h.stands hx }

/-- Every vertex is the root of a tree of its own. -/
theorem alone (hnull : ¬ V 0) (hlabel : s.label 0 = 0) (hsemi : s.semi 0 = 0)
    (hV : ∀ x, V x → s.label x = x ∧ s.ancestor x = 0 ∧ s.child x = 0)
    (hcand : ∀ x, V x → ∀ z, ¬ cand x z) : Forest s V id cand where
  not_zero := hnull
  label_zero := hlabel
  semi_zero := hsemi
  root_vertex := id
  root_root _ := rfl
  label_root hx := (hV _ hx).1
  linked _ hne := absurd rfl hne
  ancestor hx hne := absurd (hV _ hx).2.1 hne
  ends hx := ⟨_, .top (hV _ hx).2.1⟩
  chain {x} hx := by
    refine ⟨[], .top (hV x hx).2.2, fun y => ?_, .nil⟩
    rw [List.mem_singleton]
    refine ⟨?_, fun h => h.2.1⟩
    rintro rfl
    exact ⟨hx, rfl, (hV y hx).2.1⟩
  stands {x} hx := by
    refine ⟨fun z hz => absurd hz (hcand x hx z), ?_⟩
    rintro a ⟨y, hxy, hyx, -⟩
    exact absurd (Up.eq_of_top hxy (hV x hx).2.1) hyx

/-- The other arrays are not part of the forest. -/
theorem of_eq (h : Forest s V root cand) (hlabel : s'.label = s.label)
    (hancestor : s'.ancestor = s.ancestor) (hchild : s'.child = s.child)
    (hsemi : s'.semi = s.semi) : Forest s' V root cand where
  not_zero := h.not_zero
  label_zero := hlabel ▸ h.label_zero
  semi_zero := hsemi ▸ h.semi_zero
  root_vertex := h.root_vertex
  root_root := h.root_root
  label_root := hlabel ▸ h.label_root
  linked := hlabel ▸ h.linked
  ancestor := hancestor ▸ h.ancestor
  ends := hancestor ▸ h.ends
  chain hx := by
    obtain ⟨l, hclimb, hmem, hsorted⟩ := h.chain hx
    exact ⟨l, hchild ▸ hclimb, hancestor ▸ hmem, hsemi ▸ hlabel ▸ hsorted⟩
  stands hx := by
    have hstands := h.stands hx
    unfold Passed at hstands ⊢
    rwa [hsemi, hlabel, hancestor]

/-- The semidominator number of a root says nothing about the others. -/
theorem setSemi (h : Forest s V root cand) (hw : V w) (hroot : root w = w)
    (hcand : ∀ x, V x → ¬ cand x w) (k : Nat) :
    Forest { s with semi := update s.semi w k } V root cand := by
  have hsemi : ∀ {x}, V x → root x ≠ x →
      update s.semi w k (s.label x) = s.semi (s.label x) := by
    intro x hx hne
    refine Function.update_of_ne (fun heq => h.linked hx hne ?_) _ _
    rw [heq, hroot]
  exact { h with
    semi_zero := (Function.update_of_ne (h.ne_zero hw).symm _ _).trans h.semi_zero
    chain := fun {x} hx => by
      obtain ⟨l, hl⟩ := h.chain hx
      refine ⟨l, hl.climb, hl.mem, hl.sorted.imp_of_mem fun {a b} ha hb hle => ?_⟩
      have hmem : ∀ y ∈ l, V y ∧ root y ≠ y := fun y hy => by
        have hy' := (hl.mem y).mp (List.mem_cons_of_mem _ hy)
        refine ⟨hy'.1, fun heq => ?_⟩
        exact (List.nodup_cons.mp hl.climb.nodup).1 (hy'.2.1.symm.trans heq ▸ hy)
      show update s.semi w k _ ≤ update s.semi w k _
      rwa [hsemi (hmem a ha).1 (hmem a ha).2, hsemi (hmem b hb).1 (hmem b hb).2]
    stands := fun {x} hx => by
      have hcandw : ∀ z, cand x z → update s.semi w k z = s.semi z := fun z hz => by
        refine Function.update_of_ne (fun heq => hcand x hx ?_) _ _
        rwa [← heq]
      have hpassed : ∀ a, Passed s (root x) x a → update s.semi w k a = s.semi a := by
        rintro _ ⟨y, hxy, hne, rfl⟩
        obtain ⟨hy, hry⟩ := h.up hx hxy
        exact hsemi hy fun heq => hne (heq.symm.trans hry)
      refine ⟨fun z hz => ?_, fun a ha => ?_⟩
      · obtain ⟨a, ha, hle⟩ := (h.stands hx).1 z hz
        refine ⟨a, ha, ?_⟩
        show update s.semi w k a ≤ update s.semi w k z
        rwa [hpassed a ha, hcandw z hz]
      · refine ((h.stands hx).2 a ha).imp_right fun ⟨z, hz, hlt⟩ => ⟨z, hz, ?_⟩
        show update s.semi w k z < update s.semi w k a
        rwa [hpassed a ha, hcandw z hz] }

end Forest

/-! ## Compression -/

/-- The jump that `COMPRESS` makes when it returns. -/
def shortcut (vertexV : Nat) (s : DominatorArrays) : DominatorArrays :=
  let label := if s.semi (s.label (s.ancestor vertexV)) < s.semi (s.label vertexV) then
    update s.label vertexV (s.label (s.ancestor vertexV)) else s.label
  { s with label, ancestor := update s.ancestor vertexV (s.ancestor (s.ancestor vertexV)) }

theorem compress_succ (fuel v : Nat) (s : DominatorArrays) :
    s.compress (fuel + 1) v =
      if s.ancestor (s.ancestor v) ≠ 0 then (s.compress fuel (s.ancestor v)).map (shortcut v)
      else some s := rfl

theorem shortcut_label_of_ne (h : y ≠ v) : (s.shortcut v).label y = s.label y := by
  by_cases hlt : s.semi (s.label (s.ancestor v)) < s.semi (s.label v)
  · simp [shortcut, hlt, h]
  · simp [shortcut, hlt]

/-- The new label is the better of two. -/
theorem shortcut_label_self (s : DominatorArrays) (v : Nat) :
    ((s.shortcut v).label v = s.label v ∨ (s.shortcut v).label v = s.label (s.ancestor v)) ∧
      s.semi ((s.shortcut v).label v) ≤ s.semi (s.label v) ∧
      s.semi ((s.shortcut v).label v) ≤ s.semi (s.label (s.ancestor v)) := by
  by_cases hlt : s.semi (s.label (s.ancestor v)) < s.semi (s.label v)
  · have heq : (s.shortcut v).label v = s.label (s.ancestor v) := by simp [shortcut, hlt]
    exact ⟨.inr heq, heq ▸ Nat.le_of_lt hlt, heq ▸ Nat.le_refl _⟩
  · have heq : (s.shortcut v).label v = s.label v := by simp [shortcut, hlt]
    exact ⟨.inl heq, heq ▸ Nat.le_refl _, heq ▸ Nat.le_of_not_lt hlt⟩

theorem Forest.shortcut (h : Forest s V root cand) (hv : V v) (hne : s.ancestor v ≠ 0)
    (hne' : s.ancestor (s.ancestor v) ≠ 0) : Forest (s.shortcut v) V root cand := by
  have hup := h.ancestor hv hne
  have hroot : ∀ {x}, V x → root x ≠ v := fun hx heq => hne (heq ▸ h.ancestor_root hx)
  have hrootup : ∀ {x}, V x → root x ≠ s.ancestor v := fun hx heq =>
    hne' (heq ▸ h.ancestor_root hx)
  have hzero : ∀ y, (s.shortcut v).ancestor y = 0 ↔ s.ancestor y = 0 := fun y => by
    by_cases hyv : y = v
    · subst hyv
      simp [DominatorArrays.shortcut, hne, hne']
    · simp [DominatorArrays.shortcut, hyv]
  obtain ⟨hlabel, hle, hle'⟩ := shortcut_label_self s v
  exact {
    not_zero := h.not_zero
    label_zero := (shortcut_label_of_ne (h.ne_zero hv).symm).trans h.label_zero
    semi_zero := h.semi_zero
    root_vertex := h.root_vertex
    root_root := h.root_root
    -- `v` is no root, and a root's label is not touched
    label_root := fun hx => (shortcut_label_of_ne (hroot hx)).trans (h.label_root hx)
    linked := fun {x} hx hrx => by
      by_cases hxv : x = v
      · subst hxv
        rcases hlabel with heq | heq
        · exact heq ▸ h.linked hx hrx
        · exact heq ▸ h.linked hup.1 fun heq' => hrootup hup.1 heq'
      · exact (shortcut_label_of_ne (s := s) hxv).symm ▸ h.linked hx hrx
    ancestor := fun {x} hx hnx => by
      by_cases hxv : x = v
      · subst hxv
        have hup' := h.ancestor hup.1 hne'
        simp only [DominatorArrays.shortcut, Function.update_self]
        exact ⟨hup'.1, hup'.2.trans hup.2⟩
      · have hx' : (s.shortcut v).ancestor x = s.ancestor x := Function.update_of_ne hxv _ _
        rw [hx'] at hnx ⊢
        exact h.ancestor hx hnx
    ends := fun hx => by
      obtain ⟨l, hl⟩ := h.ends hx
      exact hl.jump hne hne'
    chain := fun hx => by
      obtain ⟨l, hl⟩ := h.chain hx
      refine ⟨l, hl.climb, fun y => by rw [hl.mem, hzero], ?_⟩
      refine hl.sorted.imp_of_mem fun {a b} ha hb hab => ?_
      -- climbs end on the chain, so `v` is not on it
      have hoff : ∀ y ∈ l, y ≠ v := fun y hy heq =>
        hne (heq ▸ ((hl.mem y).mp (List.mem_cons_of_mem _ hy)).2.2)
      rw [shortcut_label_of_ne (hoff a ha), shortcut_label_of_ne (hoff b hb)]
      exact hab
    stands := fun {x} hx => by
      refine (h.stands hx).shrink ?_ ?_
      -- a label that is still passed was passed before
      · rintro _ ⟨y, hxy, hyr, rfl⟩
        have hxy' : Up s.ancestor x y := Up.of_jump hne hxy
        by_cases hyv : y = v
        · subst hyv
          rcases hlabel with heq | heq
          · exact ⟨y, hxy', hyr, heq.symm⟩
          · exact ⟨_, hxy'.tail ⟨rfl, hne⟩, (hrootup hx).symm, heq.symm⟩
        · exact ⟨y, hxy', hyr, (shortcut_label_of_ne hyv).symm⟩
      -- what is jumped over has left its label at `v`, if it was the better one
      · rintro _ ⟨y, hxy, hyr, rfl⟩
        rcases hxy.jump (v := v) with hxy' | ⟨rfl, hxv⟩
        · refine ⟨_, ⟨y, hxy', hyr, rfl⟩, ?_⟩
          by_cases hyv : y = v
          · exact hyv ▸ hle
          · exact Nat.le_of_eq (congrArg s.semi (shortcut_label_of_ne hyv))
        · exact ⟨_, ⟨v, hxv, (hroot hx).symm, rfl⟩, hle'⟩ }

/-- `COMPRESS` changes labels and ancestors only. Above the compressed vertex the climb has one
step then. -/
theorem Forest.compress (h : Forest s V root cand) (hx : V x) (hne : s.ancestor x ≠ 0)
    (hl : Climb s.ancestor x l) (hfuel : l.length ≤ fuel + 1) :
    ∃ s', s.compress fuel x = some s' ∧ Forest s' V root cand ∧
      s' = { s with label := s'.label, ancestor := s'.ancestor } ∧
      (∀ y ∉ l, s'.ancestor y = s.ancestor y) ∧
      s'.ancestor x ≠ 0 ∧ s'.ancestor (s'.ancestor x) = 0 := by
  induction fuel generalizing x l with
  | zero =>
    -- a climb of one vertex has no step
    cases hl with
    | top hx' => exact absurd hx' hne
    | step _ hl =>
      have := List.length_pos_of_mem hl.mem_self
      simp only [List.length_cons] at hfuel
      omega
  | succ fuel ih =>
    rw [compress_succ]
    by_cases hup : s.ancestor (s.ancestor x) = 0
    · rw [if_neg (not_not.mpr hup)]
      exact ⟨s, rfl, h, rfl, fun _ _ => rfl, hne, hup⟩
    rw [if_pos hup]
    have hnodup := hl.nodup
    cases hl with
    | top hx' => exact absurd hx' hne
    | @step _ l _ hl =>
      obtain ⟨hxl, -⟩ := List.nodup_cons.mp hnodup
      obtain ⟨s₁, hs₁, hf₁, heq₁, hoff, hne₁, htop₁⟩ :=
        ih (h.ancestor hx hne).1 hup hl (Nat.le_of_succ_le_succ hfuel)
      -- the recursive call changes nothing below the ancestor
      have hx₁ := hoff x hxl
      rw [hs₁]
      refine ⟨_, rfl, hf₁.shortcut hx (hx₁ ▸ hne) (hx₁ ▸ hne₁), ?_, fun y hy => ?_, ?_⟩
      · rw [heq₁]
        rfl
      · have hyx : y ≠ x := fun heq => hy (heq ▸ List.mem_cons_self)
        have hyl : y ∉ l := fun hmem => hy (List.mem_cons_of_mem _ hmem)
        exact (Function.update_of_ne hyx _ _).trans (hoff y hyl)
      · have hself : (s₁.shortcut x).ancestor x = s₁.ancestor (s.ancestor x) := by
          show update s₁.ancestor x (s₁.ancestor (s₁.ancestor x)) x = _
          rw [Function.update_self, hx₁]
        have hnex : s₁.ancestor (s.ancestor x) ≠ x := fun heq => by
          rw [heq, hx₁] at htop₁
          exact hne htop₁
        rw [hself]
        exact ⟨hne₁, (Function.update_of_ne hnex _ _).trans htop₁⟩

/-- `EVAL`: a root gives itself. Another vertex gives a candidate of least semidominator number, or
the root, if all candidates have larger ones. -/
theorem Forest.eval (h : Forest s V root cand) (hx : V x) (hV : ∀ y, V y → y ≤ n)
    (hfuel : n ≤ fuel) :
    ∃ u s', s.eval fuel x = some (u, s') ∧ Forest s' V root cand ∧
      s' = { s with label := s'.label, ancestor := s'.ancestor } ∧
      (root x = x → u = x) ∧
      (root x ≠ x → (cand x u ∧ ∀ z, cand x z → s.semi u ≤ s.semi z) ∨
        (u = root x ∧ ∀ z, cand x z → s.semi (root x) < s.semi z)) := by
  rw [DominatorArrays.eval]
  by_cases hzero : s.ancestor x = 0
  · rw [if_pos hzero]
    refine ⟨_, s, rfl, h, rfl, fun hr => ?_, fun hr => .inl ?_⟩
    · have := h.label_root hx
      rwa [hr] at this
    · -- the climb is over at once
      refine (h.stands hx).least ⟨x, .refl, Ne.symm hr, rfl⟩ ?_
      rintro _ ⟨y, hxy, -, rfl⟩
      exact Nat.le_of_eq (congrArg (fun y => s.semi (s.label y)) (Up.eq_of_top hxy hzero).symm)
  rw [if_neg hzero]
  obtain ⟨l, hl⟩ := h.ends hx
  have hlen : l.length ≤ n := hl.length_le fun y hy => by
    have hy := (h.up hx (hl.mem_iff.mp hy)).1
    exact ⟨h.ne_zero hy, hV y hy⟩
  obtain ⟨s', hs', hf, heq, -, hne, htop⟩ := h.compress hx hzero hl
    (Nat.le_succ_of_le (Nat.le_trans hlen hfuel))
  have hsemi : s'.semi = s.semi := by rw [heq]
  have hstands := hf.stands hx
  rw [hsemi] at hstands
  have hxr : root x ≠ x := fun hr => hne (hr ▸ hf.ancestor_root hx)
  have hup := hf.ancestor hx hne
  have hself : Passed s' (root x) x (s'.label x) := ⟨x, .refl, hxr.symm, rfl⟩
  rw [hs', Option.map_some, hsemi]
  by_cases hle : s.semi (s'.label (s'.ancestor x)) ≥ s.semi (s'.label x)
  -- after the compression the climb is `x` and its ancestor
  · rw [if_pos hle]
    refine ⟨_, s', rfl, hf, heq, fun hr => absurd hr hxr, fun _ => .inl ?_⟩
    refine hstands.least hself ?_
    rintro _ ⟨y, hxy, -, rfl⟩
    rcases hxy.eq_or_eq htop with rfl | rfl
    · exact Nat.le_refl _
    · exact hle
  · rw [if_neg hle]
    have hlt := Nat.lt_of_not_le hle
    refine ⟨_, s', rfl, hf, heq, fun hr => absurd hr hxr, fun _ => ?_⟩
    by_cases hrup : s'.ancestor x = root x
    · -- the end of the climb is the root, whose label is no candidate
      have hlabel : s'.label (s'.ancestor x) = root x := hrup ▸ hf.label_root hx
      rw [hlabel] at hlt ⊢
      refine .inr ⟨rfl, fun z hz => Nat.lt_of_lt_of_le hlt ?_⟩
      refine (hstands.least hself ?_).2 z hz
      rintro _ ⟨y, hxy, hyr, rfl⟩
      rcases hxy.eq_or_eq htop with rfl | rfl
      · exact Nat.le_refl _
      · exact absurd hrup hyr
    · refine .inl (hstands.least ⟨_, .single hne, hrup, rfl⟩ ?_)
      rintro _ ⟨y, hxy, -, rfl⟩
      rcases hxy.eq_or_eq htop with rfl | rfl
      · exact Nat.le_of_lt hlt
      · exact Nat.le_refl _

/-! ## Linking -/

/-- The state of the first loop of `LINK`: the vertices `merged` of the chain of `w` have been put
under `vertexS`, whose chain is the rest. -/
structure Merging (s₀ : DominatorArrays) (w : Nat) (s : DominatorArrays) (vertexS : Nat)
    (merged rest : List Nat) : Prop where
  frame : s = { s₀ with ancestor := s.ancestor, child := s.child, size := s.size }
  climb : Climb s.child vertexS (vertexS :: rest)
  top : vertexS ∈ merged
  ancestor_top : s.ancestor vertexS = 0
  up : ∀ y ∈ merged, Up s.ancestor y vertexS
  closed : ∀ y ∈ merged, y ≠ vertexS → s.ancestor y ∈ merged
  off : ∀ y ∉ merged, s.ancestor y = s₀.ancestor y ∧ s.child y = s₀.child y
  large : ∀ y ∈ merged, y = w ∨ s₀.semi (s₀.label w) < s₀.semi (s₀.label y)

section Link

variable {s₀ : DominatorArrays}

/-- The next vertex `c` of the chain is to be merged, and `rest` follows it. -/
structure Next (s₀ : DominatorArrays) (w : Nat) (s : DominatorArrays) (vertexS c : Nat)
    (merged rest : List Nat) : Prop where
  climb : Climb s.child c (c :: rest)
  ne_zero : c ≠ 0
  off : c ∉ merged
  ancestor : s.ancestor c = 0
  top_ne_zero : vertexS ≠ 0
  top_off : vertexS ∉ rest
  large : s₀.semi (s₀.label w) < s₀.semi (s₀.label c)

namespace Merging

theorem next (h : Merging s₀ w s vertexS merged rest) (hnodup : (merged ++ rest).Nodup)
    (hzero : ∀ y ∈ merged ++ rest, y ≠ 0 ∧ s₀.ancestor y = 0) (hlabel : s₀.label 0 = 0)
    (hsemi : s₀.semi 0 = 0)
    (hlt : s₀.semi (s₀.label w) < s₀.semi (s₀.label (s.child vertexS))) :
    ∃ rest', rest = s.child vertexS :: rest' ∧
      Next s₀ w s vertexS (s.child vertexS) merged rest' := by
  -- vertex 0 stands for the end of a chain, and its semidominator number is 0
  have hne : s.child vertexS ≠ 0 := fun heq => by
    rw [heq, hlabel, hsemi] at hlt
    exact absurd hlt (Nat.not_lt_zero _)
  obtain ⟨rest', rfl, hclimb⟩ : ∃ rest', rest = s.child vertexS :: rest' ∧
      Climb s.child (s.child vertexS) (s.child vertexS :: rest') := by
    cases h.climb with
    | top heq => exact absurd heq hne
    | step _ hclimb =>
      cases hclimb with
      | top heq => exact ⟨[], rfl, .top heq⟩
      | @step _ l hne' hclimb => exact ⟨l, rfl, .step hne' hclimb⟩
  have hoff : s.child vertexS ∉ merged := fun hmem =>
    List.disjoint_of_nodup_append hnodup hmem List.mem_cons_self
  exact ⟨rest', rfl, hclimb, hne, hoff, (h.off _ hoff).1.trans
      (hzero _ (List.mem_append_right _ List.mem_cons_self)).2,
    (hzero _ (List.mem_append_left _ h.top)).1, fun hmem =>
      List.disjoint_of_nodup_append hnodup h.top (List.mem_cons_of_mem _ hmem), hlt⟩

variable {c : Nat}

theorem large_concat (h : Merging s₀ w s vertexS merged (c :: rest))
    (hc : Next s₀ w s vertexS c merged rest) :
    ∀ y ∈ merged ++ [c], y = w ∨ s₀.semi (s₀.label w) < s₀.semi (s₀.label y) := by
  intro y hy
  rcases List.mem_append.mp hy with hy | hy
  · exact h.large y hy
  · exact .inr (List.mem_singleton.mp hy ▸ hc.large)

theorem off_concat {y : Nat} (hy : y ∉ merged ++ [c]) : y ∉ merged ∧ y ≠ c :=
  ⟨fun hmem => hy (List.mem_append_left _ hmem),
    fun heq => hy (List.mem_append_right _ (heq ▸ List.mem_singleton_self c))⟩

/-- The next vertex goes under `vertexS`. -/
theorem putUnder (h : Merging s₀ w s vertexS merged (c :: rest))
    (hc : Next s₀ w s vertexS c merged rest) :
    Merging s₀ w { s with
      ancestor := update s.ancestor c vertexS
      child := update s.child vertexS (s.child c) } vertexS (merged ++ [c]) rest := by
  have hcS : c ≠ vertexS := fun heq => hc.off (heq ▸ h.top)
  have hmono : ∀ a, s.ancestor a ≠ 0 → update s.ancestor c vertexS a = s.ancestor a :=
    fun a ha => Function.update_of_ne (fun heq => ha (by rw [heq, hc.ancestor])) _ _
  refine ⟨?_, ?_, ?_, ?_, ?_, ?_, ?_, h.large_concat hc⟩
  · rw [h.frame]
  · cases hc.climb with
    | top heq => exact .top ((Function.update_self _ _ _).trans heq)
    | step hne' hclimb =>
      have hself : update s.child vertexS (s.child c) vertexS = s.child c :=
        Function.update_self _ _ _
      refine .step (fun heq => hne' (hself.symm.trans heq)) ?_
      show Climb _ (update s.child vertexS (s.child c) vertexS) rest
      rw [hself]
      exact hclimb.congr fun y hy =>
        Function.update_of_ne (fun heq => hc.top_off (by rwa [← heq])) _ _
  · exact List.mem_append_left _ h.top
  · exact (Function.update_of_ne hcS.symm _ _).trans h.ancestor_top
  · intro y hy
    rcases List.mem_append.mp hy with hy | hy
    · exact (h.up y hy).mono hmono
    · rw [List.mem_singleton.mp hy]
      exact ReflTransGen.single ⟨Function.update_self _ _ _, hc.top_ne_zero⟩
  · intro y hy hyS
    rcases List.mem_append.mp hy with hy | hy
    · have hyc : y ≠ c := fun heq => hc.off (heq ▸ hy)
      have hmem : update s.ancestor c vertexS y ∈ merged := by
        rw [Function.update_of_ne hyc]
        exact h.closed y hy hyS
      exact List.mem_append_left _ hmem
    · have hmem : update s.ancestor c vertexS y ∈ merged := by
        rw [List.mem_singleton.mp hy, Function.update_self]
        exact h.top
      exact List.mem_append_left _ hmem
  · intro y hy
    obtain ⟨hym, hyc⟩ := off_concat hy
    have hyS : y ≠ vertexS := fun heq => hym (heq ▸ h.top)
    exact ⟨(Function.update_of_ne hyc _ _).trans (h.off y hym).1,
      (Function.update_of_ne hyS _ _).trans (h.off y hym).2⟩

/-- `vertexS` goes under the next vertex. -/
theorem putOver (h : Merging s₀ w s vertexS merged (c :: rest))
    (hc : Next s₀ w s vertexS c merged rest) :
    Merging s₀ w { s with
      size := update s.size c (s.size vertexS)
      ancestor := update s.ancestor vertexS c } c (merged ++ [c]) rest := by
  have hcS : c ≠ vertexS := fun heq => hc.off (heq ▸ h.top)
  have hmono : ∀ a, s.ancestor a ≠ 0 → update s.ancestor vertexS c a = s.ancestor a :=
    fun a ha => Function.update_of_ne (fun heq => ha (by rw [heq, h.ancestor_top])) _ _
  have hself : update s.ancestor vertexS c vertexS = c := Function.update_self _ _ _
  refine ⟨?_, hc.climb, ?_, ?_, ?_, ?_, ?_, h.large_concat hc⟩
  · rw [h.frame]
  · exact List.mem_append_right _ (List.mem_singleton_self c)
  · exact (Function.update_of_ne hcS _ _).trans hc.ancestor
  · intro y hy
    rcases List.mem_append.mp hy with hy | hy
    · exact ((h.up y hy).mono hmono).tail ⟨hself, hc.ne_zero⟩
    · rw [List.mem_singleton.mp hy]
      exact .refl
  · intro y hy hyc
    have hy := (List.mem_append.mp hy).resolve_right fun heq => hyc (List.mem_singleton.mp heq)
    by_cases hyS : y = vertexS
    · have hmem : update s.ancestor vertexS c y ∈ [c] := by
        rw [hyS, hself]
        exact List.mem_singleton_self c
      exact List.mem_append_right _ hmem
    · have hmem : update s.ancestor vertexS c y ∈ merged := by
        rw [Function.update_of_ne hyS]
        exact h.closed y hy hyS
      exact List.mem_append_left _ hmem
  · intro y hy
    obtain ⟨hym, hyc⟩ := off_concat hy
    have hyS : y ≠ vertexS := fun heq => hym (heq ▸ h.top)
    exact ⟨(Function.update_of_ne hyS _ _).trans (h.off y hym).1, (h.off y hym).2⟩

end Merging

/-- The first loop is over, or it puts one more vertex of the chain under the others. -/
theorem Merging.round (h : Merging s₀ w s vertexS merged rest) (hnodup : (merged ++ rest).Nodup)
    (hzero : ∀ y ∈ merged ++ rest, y ≠ 0 ∧ s₀.ancestor y = 0) (hlabel : s₀.label 0 = 0)
    (hsemi : s₀.semi 0 = 0) :
    (mergeRound w (s, vertexS) = .inr (s, vertexS) ∧
      s₀.semi (s₀.label (s.child vertexS)) ≤ s₀.semi (s₀.label w)) ∨
    ∃ c rest' s' vertexS', rest = c :: rest' ∧
      mergeRound w (s, vertexS) = .inl (s', vertexS') ∧
      Merging s₀ w s' vertexS' (merged ++ [c]) rest' := by
  have hs : s.semi = s₀.semi := by rw [h.frame]
  have hl : s.label = s₀.label := by rw [h.frame]
  rw [mergeRound]
  dsimp only
  by_cases hlt : s.semi (s.label w) < s.semi (s.label (s.child vertexS))
  · rw [if_pos hlt]
    rw [hs, hl] at hlt
    obtain ⟨rest', rfl, hc⟩ := h.next hnodup hzero hlabel hsemi hlt
    by_cases hsize : s.size vertexS + s.size (s.child (s.child vertexS)) ≥
        2 * s.size (s.child vertexS)
    · rw [if_pos hsize]
      exact .inr ⟨_, rest', _, _, rfl, rfl, h.putUnder hc⟩
    · rw [if_neg hsize]
      exact .inr ⟨_, rest', _, _, rfl, rfl, h.putOver hc⟩
  · rw [if_neg hlt]
    rw [hs, hl] at hlt
    exact .inl ⟨rfl, Nat.le_of_not_lt hlt⟩

theorem Merging.run (h : Merging s₀ w s vertexS merged rest) (hnodup : (merged ++ rest).Nodup)
    (hzero : ∀ y ∈ merged ++ rest, y ≠ 0 ∧ s₀.ancestor y = 0) (hlabel : s₀.label 0 = 0)
    (hsemi : s₀.semi 0 = 0) (hfuel : rest.length < fuel) :
    ∃ s' vertexS' merged' rest', loop (mergeRound w) fuel (s, vertexS) = some (s', vertexS') ∧
      merged' ++ rest' = merged ++ rest ∧ Merging s₀ w s' vertexS' merged' rest' ∧
      s₀.semi (s₀.label (s'.child vertexS')) ≤ s₀.semi (s₀.label w) := by
  induction rest generalizing s vertexS merged fuel with
  | nil =>
    obtain ⟨fuel, rfl⟩ := Nat.exists_eq_add_one_of_ne_zero (Nat.ne_of_gt (Nat.zero_lt_of_lt hfuel))
    rcases h.round hnodup hzero hlabel hsemi with ⟨hround, hle⟩ | ⟨c, rest', _, _, hrest, -⟩
    · exact ⟨s, vertexS, merged, [], loop_inr hround fuel, rfl, h, hle⟩
    · cases hrest
  | cons c rest ih =>
    obtain ⟨fuel, rfl⟩ := Nat.exists_eq_add_one_of_ne_zero (Nat.ne_of_gt (Nat.zero_lt_of_lt hfuel))
    rcases h.round hnodup hzero hlabel hsemi with
      ⟨hround, hle⟩ | ⟨c', rest', s₁, S₁, hrest, hround, hnext⟩
    · exact ⟨s, vertexS, merged, c :: rest, loop_inr hround fuel, rfl, h, hle⟩
    · cases hrest
      have happend : merged ++ [c] ++ rest = merged ++ c :: rest := List.append_cons .. |>.symm
      obtain ⟨s', S', merged', rest', hloop, heq, hM, hle⟩ :=
        ih hnext (happend ▸ hnodup) (happend ▸ hzero) (Nat.lt_of_succ_lt_succ hfuel)
      exact ⟨s', S', merged', rest', (loop_inl hround fuel).trans hloop, heq.trans happend, hM, hle⟩

/-- The last loop puts what is left of a chain under `v`. -/
theorem adopt_run {q : List Nat} (hq : q = [] ∧ x = 0 ∨ Climb s.child x q) (hne : ∀ y ∈ q, y ≠ 0)
    (hfuel : q.length < fuel) :
    loop (adoptRound v) fuel (s, x) =
      some { s with ancestor := fun y => if y ∈ q then v else s.ancestor y } := by
  induction q generalizing s x fuel with
  | nil =>
    obtain ⟨fuel, rfl⟩ := Nat.exists_eq_add_one_of_ne_zero (Nat.ne_of_gt (Nat.zero_lt_of_lt hfuel))
    rcases hq with ⟨-, rfl⟩ | hq
    · refine (loop_inr (r := s) (by simp [adoptRound]) fuel).trans ?_
      simp
    · exact absurd hq.mem_self List.not_mem_nil
  | cons b q ih =>
    obtain ⟨fuel, rfl⟩ := Nat.exists_eq_add_one_of_ne_zero (Nat.ne_of_gt (Nat.zero_lt_of_lt hfuel))
    have hq := hq.resolve_left fun h => absurd h.1 (List.cons_ne_nil _ _)
    obtain ⟨rfl, hnext⟩ : x = b ∧ (q = [] ∧ s.child x = 0 ∨ Climb s.child (s.child x) q) := by
      cases hq with
      | top hx => exact ⟨rfl, .inl ⟨rfl, hx⟩⟩
      | step _ hq => exact ⟨rfl, .inr hq⟩
    have hround : adoptRound v (s, x) =
        .inl ({ s with ancestor := update s.ancestor x v }, s.child x) := by
      simp [adoptRound, hne x List.mem_cons_self]
    have hrest := ih (s := { s with ancestor := update s.ancestor x v }) hnext
      (fun y hy => hne y (List.mem_cons_of_mem _ hy)) (Nat.lt_of_succ_lt_succ hfuel)
    rw [loop_inl hround, hrest]
    congr 2
    funext y
    by_cases hy : y = x
    · simp [hy]
    · simp [hy]

/-- `v` and `w` are roots of two trees, and so `w` may be linked to `v`. -/
structure Linkable (s : DominatorArrays) (V : Nat → Prop) (root : Nat → Nat)
    (cand : Nat → Nat → Prop) (v w : Nat) : Prop where
  forest : Forest s V root cand
  vertex_v : V v
  root_v : root v = v
  vertex_w : V w
  root_w : root w = w
  ne : v ≠ w

/-- The roots after `LINK`. -/
def linkedRoot (root : Nat → Nat) (v w x : Nat) : Nat := if root x = w then v else root x

/-- The candidates after `LINK`. -/
def linkedCand (root : Nat → Nat) (cand : Nat → Nat → Prop) (w x z : Nat) : Prop :=
  root x = w ∧ z = w ∨ cand x z

/-- What `LINK` has done when `merged` is the part of the chain of `w` under `vertexS` and `rest`
the other part. Every vertex at which a climb ended may have got `v` for its ancestor. -/
structure Linked (s s' : DominatorArrays) (V : Nat → Prop) (root : Nat → Nat) (v w vertexS : Nat)
    (merged rest : List Nat) : Prop where
  frame : s' = { s with
    ancestor := s'.ancestor, child := s'.child, label := s'.label, size := s'.size }
  label : s'.label = update s.label vertexS (s.label w)
  keeps : ∀ y, s.ancestor y ≠ 0 → s'.ancestor y = s.ancestor y
  ends : ∀ y, y ∈ merged ∨ y ∈ rest ↔ V y ∧ root y = w ∧ s.ancestor y = 0
  top : vertexS ∈ merged
  ancestor_v : s'.ancestor v = 0
  ancestor_top : s'.ancestor vertexS = v ∨ s'.ancestor vertexS = 0
  merged_up : ∀ y ∈ merged, Up s'.ancestor y vertexS
  merged_next : ∀ y ∈ merged, s'.ancestor y = v ∨ s'.ancestor y = 0 ∨ s'.ancestor y ∈ merged
  rest_next : ∀ y ∈ rest, s'.ancestor y = v ∨ s'.ancestor y = 0
  tree_next : ∀ y, V y → root y = v → s.ancestor y = 0 → s'.ancestor y = v ∨ s'.ancestor y = 0
  other : ∀ y, V y → root y ≠ v → root y ≠ w →
    s'.ancestor y = s.ancestor y ∧ s'.child y = s.child y
  large : ∀ y ∈ merged, y = w ∨ s.semi (s.label w) < s.semi (s.label y)
  small : ∀ y ∈ rest, s.semi (s.label y) ≤ s.semi (s.label w)
  chain : ∃ l, Chain s' V (linkedRoot root v w) v l

theorem Linkable.linkedRoot_v (hr : Linkable s V root cand v w) : linkedRoot root v w v = v := by
  rw [linkedRoot, hr.root_v, if_neg hr.ne]

theorem Linkable.label_w (hr : Linkable s V root cand v w) : s.label w = w := by
  have := hr.forest.label_root hr.vertex_w
  rwa [hr.root_w] at this

namespace Linked

theorem merged_vertex (h : Linked s s' V root v w vertexS merged rest) (hy : y ∈ merged) :
    V y ∧ root y = w := by
  have := (h.ends y).mp (.inl hy)
  exact ⟨this.1, this.2.1⟩

theorem semi_eq (h : Linked s s' V root v w vertexS merged rest) : s'.semi = s.semi := by
  rw [h.frame]

theorem label_of_ne (h : Linked s s' V root v w vertexS merged rest) (hy : y ≠ vertexS) :
    s'.label y = s.label y := by
  rw [h.label, Function.update_of_ne hy]

theorem label_top (h : Linked s s' V root v w vertexS merged rest) :
    s'.label vertexS = s.label w := by
  rw [h.label, Function.update_self]

/-- Where a climb goes on that had ended. -/
theorem next_cases (h : Linked s s' V root v w vertexS merged rest) (hy : V y)
    (hzero : s.ancestor y = 0) :
    s'.ancestor y = v ∨ s'.ancestor y = 0 ∨ y ∈ merged ∧ s'.ancestor y ∈ merged := by
  by_cases hyw : root y = w
  · rcases (h.ends y).mpr ⟨hy, hyw, hzero⟩ with hmem | hmem
    · exact (h.merged_next y hmem).imp_right (Or.imp_right fun hnext => ⟨hmem, hnext⟩)
    · exact (h.rest_next y hmem).imp_right .inl
  by_cases hyv : root y = v
  · exact (h.tree_next y hy hyv hzero).imp_right .inl
  · exact .inr (.inl ((h.other y hy hyv hyw).1.trans hzero))

theorem linkedRoot_of_merged (h : Linked s s' V root v w vertexS merged rest) (hy : y ∈ merged) :
    linkedRoot root v w y = v := if_pos (h.merged_vertex hy).2

/-- What a climb passes after `LINK`. -/
theorem up_cases (h : Linked s s' V root v w vertexS merged rest) (hf : Forest s V root cand)
    (hx : V x) (hxy : Up s'.ancestor x y) :
    Up s.ancestor x y ∨ y = v ∨ y ∈ merged ∧ ∃ t ∈ merged, Up s.ancestor x t := by
  induction hxy with
  | refl => exact .inl .refl
  | @tail a b _ hab ih =>
    obtain ⟨rfl, hne⟩ := hab
    rcases ih with hxa | rfl | ⟨ha, t, ht, hxt⟩
    · obtain ⟨hva, -⟩ := hf.up hx hxa
      by_cases hzero : s.ancestor a = 0
      · rcases h.next_cases hva hzero with hv | h0 | ⟨ha, hnext⟩
        · exact .inr (.inl hv)
        · exact absurd h0 hne
        · exact .inr (.inr ⟨hnext, a, ha, hxa⟩)
      · rw [h.keeps a hzero]
        exact .inl (hxa.tail ⟨rfl, hzero⟩)
    · exact absurd h.ancestor_v hne
    · rcases h.merged_next a ha with hv | h0 | hnext
      · exact .inr (.inl hv)
      · exact absurd h0 hne
      · exact .inr (.inr ⟨hnext, t, ht, hxt⟩)

theorem mono (h : Linked s s' V root v w vertexS merged rest) (hxy : Up s.ancestor x y) :
    Up s'.ancestor x y := Up.mono hxy h.keeps

theorem ancestor (h : Linked s s' V root v w vertexS merged rest)
    (hr : Linkable s V root cand v w) (hx : V x) (hne : s'.ancestor x ≠ 0) :
    V (s'.ancestor x) ∧ linkedRoot root v w (s'.ancestor x) = linkedRoot root v w x := by
  by_cases hzero : s.ancestor x = 0
  · by_cases hother : root x ≠ v ∧ root x ≠ w
    · exact absurd ((h.other x hx hother.1 hother.2).1.trans hzero) hne
    have hrx : linkedRoot root v w x = v := by
      by_cases hxw : root x = w
      · exact if_pos hxw
      · exact (if_neg hxw).trans (not_not.mp fun hxv => hother ⟨hxv, hxw⟩)
    rcases h.next_cases hx hzero with heq | h0 | ⟨-, hnext⟩
    · rw [heq, hrx, hr.linkedRoot_v]
      exact ⟨hr.vertex_v, rfl⟩
    · exact absurd h0 hne
    · exact ⟨(h.merged_vertex hnext).1, (h.linkedRoot_of_merged hnext).trans hrx.symm⟩
  · obtain ⟨hup, hroot⟩ := hr.forest.ancestor hx hzero
    rw [h.keeps x hzero, linkedRoot, linkedRoot, hroot]
    exact ⟨hup, rfl⟩

theorem ends' (h : Linked s s' V root v w vertexS merged rest)
    (hf : Forest s V root cand) (hv : V v) (hx : V x) : ∃ l, Climb s'.ancestor x l := by
  obtain ⟨l, hl⟩ := hf.ends hx
  obtain ⟨t, hxt, ht⟩ := hl.exists_top
  have hxt' := h.mono hxt
  have hvend : Up s'.ancestor x v → ∃ l, Climb s'.ancestor x l := fun hup =>
    Climb.of_up hup h.ancestor_v
  have hv0 := hf.ne_zero hv
  rcases h.next_cases (hf.up hx hxt).1 ht with heq | h0 | ⟨hmem, -⟩
  · exact hvend (hxt'.tail ⟨heq, hv0⟩)
  · exact Climb.of_up hxt' h0
  · have hxS := hxt'.trans (h.merged_up t hmem)
    rcases h.ancestor_top with heq | h0
    · exact hvend (hxS.tail ⟨heq, hv0⟩)
    · exact Climb.of_up hxS h0

theorem chain' (h : Linked s s' V root v w vertexS merged rest)
    (hf : Forest s V root cand) (hx : V x) :
    ∃ l, Chain s' V (linkedRoot root v w) (linkedRoot root v w x) l := by
  by_cases hxv : linkedRoot root v w x = v
  · rw [hxv]
    exact h.chain
  have hxw : root x ≠ w := fun heq => hxv (if_pos heq)
  have hroot : linkedRoot root v w x = root x := if_neg hxw
  rw [hroot] at hxv ⊢
  obtain ⟨l, hl⟩ := hf.chain hx
  have hmem : ∀ y ∈ root x :: l, V y ∧ root y ≠ v ∧ root y ≠ w := fun y hy => by
    obtain ⟨hy, hyx, -⟩ := (hl.mem y).mp hy
    exact ⟨hy, hyx.symm ▸ hxv, hyx.symm ▸ hxw⟩
  refine ⟨l, hl.climb.congr fun y hy => ?_, fun y => ?_, ?_⟩
  · obtain ⟨hy, hyv, hyw⟩ := hmem y hy
    exact (h.other y hy hyv hyw).2
  · rw [hl.mem]
    refine and_congr_right fun hy => ?_
    constructor
    · rintro ⟨hyx, h0⟩
      have hyw : root y ≠ w := hyx.symm ▸ hxw
      exact ⟨(if_neg hyw).trans hyx, (h.other y hy (hyx.symm ▸ hxv) hyw).1.trans h0⟩
    · rintro ⟨hyx, h0⟩
      by_cases hyw : root y = w
      · exact absurd ((if_pos hyw).symm.trans hyx) (Ne.symm hxv)
      have hyx : root y = root x := (if_neg hyw).symm.trans hyx
      exact ⟨hyx, (h.other y hy (hyx.symm ▸ hxv) hyw).1.symm.trans h0⟩
  · refine hl.sorted.imp_of_mem fun {a b} ha hb hab => ?_
    have hne : ∀ y ∈ l, y ≠ vertexS := fun y hy heq =>
      (hmem y (List.mem_cons_of_mem _ hy)).2.2 (heq ▸ (h.merged_vertex h.top).2)
    rw [h.semi_eq, h.label_of_ne (hne a ha), h.label_of_ne (hne b hb)]
    exact hab

/-- In the tree of `w`, which now is a candidate. -/
theorem stands_of_eq (h : Linked s s' V root v w vertexS merged rest)
    (hr : Linkable s V root cand v w) (hx : V x) (hxw : root x = w) :
    StandFor s.semi (fun z => z = w ∨ cand x z) (Passed s' v x) := by
  have hlabel := hr.label_w
  obtain ⟨hf, -, hrv, -, -, hvw⟩ := hr
  have hstands := hf.stands hx
  rw [hxw] at hstands
  have hwv : ∀ {y}, root y = w → y ≠ v := fun hy heq => hvw (hrv.symm.trans (heq ▸ hy))
  have hpass : ∀ {y}, Up s.ancestor x y → Passed s' v x (s'.label y) := fun hxy =>
    ⟨_, h.mono hxy, hwv ((hf.up hx hxy).2.trans hxw), rfl⟩
  refine hstands.insert ?_ ?_ ?_
  · rintro _ ⟨y, hxy, hyv, rfl⟩
    by_cases hyS : y = vertexS
    · subst hyS
      exact .inr (.inl (h.label_top.trans hlabel))
    rw [h.label_of_ne hyS]
    by_cases hyw : y = w
    · subst hyw
      exact .inr (.inl hlabel)
    rcases h.up_cases hf hx hxy with hxy | heq | ⟨hmem, -⟩
    · exact .inl ⟨y, hxy, hyw, rfl⟩
    · exact absurd heq hyv
    · have hlarge := (h.large y hmem).resolve_left hyw
      rw [hlabel] at hlarge
      exact .inr (.inr hlarge)
  · rintro _ ⟨y, hxy, hyw, rfl⟩
    refine ⟨_, hpass hxy, ?_⟩
    by_cases hyS : y = vertexS
    · subst hyS
      rw [h.label_top]
      exact Nat.le_of_lt ((h.large y h.top).resolve_left hyw)
    · rw [h.label_of_ne hyS]
  · -- the climb ended in one of the two parts of the chain
    obtain ⟨l, hl⟩ := hf.ends hx
    obtain ⟨t, hxt, ht⟩ := hl.exists_top
    obtain ⟨hvt, hrt⟩ := hf.up hx hxt
    rcases (h.ends t).mpr ⟨hvt, hrt.trans hxw, ht⟩ with hmem | hmem
    · have hSv : vertexS ≠ v := hwv (h.merged_vertex h.top).2
      refine ⟨_, ⟨vertexS, (h.mono hxt).trans (h.merged_up t hmem), hSv, rfl⟩, ?_⟩
      rw [h.label_top, hlabel]
    · refine ⟨_, hpass hxt, ?_⟩
      by_cases htS : t = vertexS
      · rw [htS, h.label_top, hlabel]
      · rw [h.label_of_ne htS]
        exact hlabel ▸ h.small t hmem

/-- In the other trees. -/
theorem stands_of_ne (h : Linked s s' V root v w vertexS merged rest)
    (hr : Linkable s V root cand v w) (hx : V x) (hxw : root x ≠ w) :
    StandFor s.semi (cand x) (Passed s' (root x) x) := by
  have hf := hr.forest
  have hroot : linkedRoot root v w x = root x := if_neg hxw
  have hkeep : ∀ {y}, Up s.ancestor x y → s'.label y = s.label y := fun hxy => by
    refine h.label_of_ne fun heq => hxw ?_
    rw [← (hf.up hx hxy).2, heq, (h.merged_vertex h.top).2]
  refine (hf.stands hx).shrink ?_ ?_
  · rintro _ ⟨y, hxy, hyr, rfl⟩
    rcases h.up_cases hf hx hxy with hxy' | rfl | ⟨-, t, ht, hxt⟩
    · exact ⟨y, hxy', hyr, (hkeep hxy').symm⟩
    · -- only the tree of `v` has `v` above it
      have hall : ∀ {a b}, Up s'.ancestor a b → V a →
          V b ∧ linkedRoot root y w b = linkedRoot root y w a := fun hab ha => by
        induction hab with
        | refl => exact ⟨ha, rfl⟩
        | tail _ hstep ih =>
          obtain ⟨rfl, hne⟩ := hstep
          have hup := h.ancestor hr ih.1 hne
          exact ⟨hup.1, hup.2.trans ih.2⟩
      have heq := (hall hxy hx).2
      rw [hr.linkedRoot_v, hroot] at heq
      exact absurd heq hyr
    · exact absurd ((hf.up hx hxt).2.symm.trans (h.merged_vertex ht).2) hxw
  · rintro _ ⟨y, hxy, hyr, rfl⟩
    exact ⟨_, ⟨y, h.mono hxy, hyr, rfl⟩, Nat.le_of_eq (congrArg s.semi (hkeep hxy))⟩

/-- After `LINK` the arrays stand for the trees in which `w` hangs under `v`. -/
theorem forest (h : Linked s s' V root v w vertexS merged rest)
    (hr : Linkable s V root cand v w) :
    Forest s' V (linkedRoot root v w) (linkedCand root cand w) where
  not_zero := hr.forest.not_zero
  label_zero := by
    rw [h.label_of_ne, hr.forest.label_zero]
    exact (hr.forest.ne_zero (h.merged_vertex h.top).1).symm
  semi_zero := by rw [h.semi_eq, hr.forest.semi_zero]
  root_vertex := fun {x} hx => by
    by_cases hxw : root x = w
    · rw [linkedRoot, if_pos hxw]
      exact hr.vertex_v
    · rw [linkedRoot, if_neg hxw]
      exact hr.forest.root_vertex hx
  root_root := fun {x} hx => by
    by_cases hxw : root x = w
    · rw [show linkedRoot root v w x = v from if_pos hxw]
      exact hr.linkedRoot_v
    · rw [show linkedRoot root v w x = root x from if_neg hxw, linkedRoot, hr.forest.root_root hx,
        if_neg hxw]
  label_root := fun {x} hx => by
    have hne : ∀ {y}, root y = y → y ≠ w → y ≠ vertexS := fun hy hyw heq =>
      hyw (hy.symm.trans (heq ▸ (h.merged_vertex h.top).2))
    by_cases hxw : root x = w
    · rw [show linkedRoot root v w x = v from if_pos hxw, h.label_of_ne (hne hr.root_v hr.ne)]
      have := hr.forest.label_root hr.vertex_v
      rwa [hr.root_v] at this
    · rw [show linkedRoot root v w x = root x from if_neg hxw,
        h.label_of_ne (hne (hr.forest.root_root hx) hxw)]
      exact hr.forest.label_root hx
  linked := fun {x} hx hne => by
    have hlabel := hr.label_w
    have hw' : linkedRoot root v w w = v := if_pos hr.root_w
    by_cases hxS : x = vertexS
    · rw [hxS, h.label_top, hlabel, hw']
      exact hr.ne
    rw [h.label_of_ne hxS]
    by_cases hxr : root x = x
    · -- only `w` has stopped to be a root
      have hxw : x = w := by
        by_contra hxw
        exact hne ((if_neg (hxr.symm ▸ hxw)).trans hxr)
      rw [hxw, hlabel, hw']
      exact hr.ne
    · have hlinked := hr.forest.linked hx hxr
      by_cases hlw : root (s.label x) = w
      · rw [show linkedRoot root v w (s.label x) = v from if_pos hlw]
        intro heq
        exact hr.ne (hr.root_v.symm.trans (heq ▸ hlw))
      · rwa [show linkedRoot root v w (s.label x) = root (s.label x) from if_neg hlw]
  ancestor := h.ancestor hr
  ends := h.ends' hr.forest hr.vertex_v
  chain := h.chain' hr.forest
  stands := fun {x} hx => by
    rw [h.semi_eq]
    by_cases hxw : root x = w
    · have hcand : linkedCand root cand w x = fun z => z = w ∨ cand x z := by
        funext z
        simp [linkedCand, hxw]
      rw [hcand, show linkedRoot root v w x = v from if_pos hxw]
      exact h.stands_of_eq hr hx hxw
    · have hcand : linkedCand root cand w x = cand x := by
        funext z
        simp [linkedCand, hxw]
      rw [hcand, show linkedRoot root v w x = root x from if_neg hxw]
      exact h.stands_of_ne hr hx hxw

end Linked

/-! ## What `LINK` leaves -/

/-- The arrays after the part `q` of a chain has been put under `v`. -/
def adopted (s₁ : DominatorArrays) (v w vertexS : Nat) (child size : Nat → Nat) (q : List Nat) :
    DominatorArrays :=
  { s₁ with
    child := child
    size := size
    label := update s₁.label vertexS (s₁.label w)
    ancestor := fun y => if y ∈ q then v else s₁.ancestor y }

/-- What the first loop leaves of the chain of `w`: the vertices under `vertexS`, and the rest. -/
structure Merged (s : DominatorArrays) (V : Nat → Prop) (root : Nat → Nat) (w : Nat)
    (s₁ : DominatorArrays) (vertexS : Nat) (merged rest : List Nat) : Prop where
  merging : Merging s w s₁ vertexS merged rest
  ends : ∀ y, y ∈ merged ∨ y ∈ rest ↔ V y ∧ root y = w ∧ s.ancestor y = 0
  disjoint : ∀ y ∈ rest, y ∉ merged
  sorted : rest.Pairwise fun a b => s.semi (s.label b) ≤ s.semi (s.label a)
  small : ∀ y ∈ rest, s.semi (s.label y) ≤ s.semi (s.label w)

section Adopted

variable {s₁ : DominatorArrays} {child : Nat → Nat} (size : Nat → Nat) {q : List Nat}

/-- Whichever of the two chains is put under `v`. -/
theorem Merged.linked (hm : Merged s V root w s₁ vertexS merged rest)
    (hr : Linkable s V root cand v w)
    (hq : ∀ y ∈ q, y ≠ v ∧ s.ancestor y = 0 ∧ (root y = v ∨ y = vertexS ∨ y ∈ rest))
    (hchild : ∀ y, V y → root y ≠ v → root y ≠ w → child y = s.child y)
    (hchain : ∃ l, Chain (adopted s₁ v w vertexS child size q) V (linkedRoot root v w) v l) :
    Linked s (adopted s₁ v w vertexS child size q) V root v w vertexS merged rest := by
  obtain ⟨h, hends, hdisj, -, hsmall⟩ := hm
  have hmerged : ∀ y ∈ merged, V y ∧ root y = w ∧ s.ancestor y = 0 := fun y hy =>
    (hends y).mp (.inl hy)
  have hoff : ∀ y, root y ≠ w → s₁.ancestor y = s.ancestor y := fun y hy =>
    (h.off y fun hmem => hy (hmerged y hmem).2.1).1
  have hin : ∀ y ∈ q, (adopted s₁ v w vertexS child size q).ancestor y = v := fun y hy => if_pos hy
  have hout : ∀ y ∉ q, (adopted s₁ v w vertexS child size q).ancestor y = s₁.ancestor y :=
    fun y hy => if_neg hy
  -- where a climb of the loop's arrays ends
  have hend : ∀ y, s₁.ancestor y = 0 → (adopted s₁ v w vertexS child size q).ancestor y = v ∨
      (adopted s₁ v w vertexS child size q).ancestor y = 0 := fun y hy => by
    by_cases hyq : y ∈ q
    · exact .inl (hin y hyq)
    · exact .inr ((hout y hyq).trans hy)
  have hrest : ∀ y ∈ rest, s₁.ancestor y = 0 := fun y hy =>
    (h.off y (hdisj y hy)).1.trans ((hends y).mp (.inr hy)).2.2
  have htree : ∀ {y}, root y = v → root y ≠ w := fun hyv heq => hr.ne (hyv.symm.trans heq)
  have hq₁ : ∀ y ∈ q, s₁.ancestor y = 0 := fun y hy => by
    obtain ⟨-, h0, hyv | rfl | hmem⟩ := hq y hy
    · exact (hoff y (htree hyv)).trans h0
    · exact h.ancestor_top
    · exact hrest y hmem
  exact {
    frame := by
      rw [adopted, h.frame]
    label := by
      show update s₁.label vertexS (s₁.label w) = _
      rw [h.frame]
    keeps := fun y hy => by
      have hym : y ∉ merged := fun hmem => hy (hmerged y hmem).2.2
      exact (hout y fun hmem => hy (hq y hmem).2.1).trans (h.off y hym).1
    ends := hends
    top := h.top
    ancestor_v := by
      have htop := hr.forest.ancestor_root hr.vertex_v
      rw [hr.root_v] at htop
      exact (hout v fun hmem => (hq v hmem).1 rfl).trans ((hoff v (htree hr.root_v)).trans htop)
    ancestor_top := hend _ h.ancestor_top
    merged_up := fun y hy => (h.up y hy).mono fun a ha => hout a fun hmem => ha (hq₁ a hmem)
    merged_next := fun y hy => by
      by_cases hyS : y = vertexS
      · exact (hend y (hyS ▸ h.ancestor_top)).imp_right .inl
      have hyq : y ∉ q := fun hmem => by
        obtain ⟨-, -, hyv | heq | hrest⟩ := hq y hmem
        · exact htree hyv (hmerged y hy).2.1
        · exact hyS heq
        · exact hdisj y hrest hy
      rw [hout y hyq]
      exact .inr (.inr (h.closed y hy hyS))
    rest_next := fun y hy => hend y (hrest y hy)
    tree_next := fun y _ hyv h0 => hend y ((hoff y (htree hyv)).trans h0)
    other := fun y hy hyv hyw => by
      refine ⟨(hout y fun hmem => ?_).trans (hoff y hyw), hchild y hy hyv hyw⟩
      obtain ⟨-, -, heq | rfl | hmem⟩ := hq y hmem
      · exact hyv heq
      · exact hyw (hmerged y h.top).2.1
      · exact hyw ((hends y).mp (.inr hmem)).2.1
    large := h.large
    small := hsmall
    chain := hchain }

/-- The chain of `w` is put under `v`, whose own chain stays. -/
theorem Merged.chain_own (hm : Merged s V root w s₁ vertexS merged rest)
    (hr : Linkable s V root cand v w) (hl : Chain s V root v l) :
    Chain (adopted s₁ v w vertexS s₁.child size (vertexS :: rest)) V (linkedRoot root v w) v l := by
  obtain ⟨h, hends, -, -, -⟩ := hm
  have hown : ∀ y ∈ v :: l, y ∉ merged ∧ y ∉ vertexS :: rest := fun y hy => by
    have hyv := ((hl.mem y).mp hy).2.1
    have hout : ¬ (y ∈ merged ∨ y ∈ rest) := fun hmem =>
      hr.ne (hyv.symm.trans ((hends y).mp hmem).2.1)
    refine ⟨fun hmem => hout (.inl hmem), fun hmem => hout ?_⟩
    exact (List.mem_cons.mp hmem).imp (fun heq => by rw [heq]; exact h.top) id
  refine ⟨hl.climb.congr fun y hy => (h.off y (hown y hy).1).2, fun y => ?_, ?_⟩
  · constructor
    · intro hy
      obtain ⟨hvy, hyv, h0⟩ := (hl.mem y).mp hy
      obtain ⟨hym, hyq⟩ := hown y hy
      have hyw : root y ≠ w := fun heq => hr.ne (hyv.symm.trans heq)
      exact ⟨hvy, (if_neg hyw).trans hyv, (if_neg hyq).trans ((h.off y hym).1.trans h0)⟩
    · rintro ⟨hvy, hyv, h0⟩
      by_cases hyq : y ∈ vertexS :: rest
      · exact absurd ((if_pos hyq).symm.trans h0) (hr.forest.ne_zero hr.vertex_v)
      have h0 : s₁.ancestor y = 0 := (if_neg hyq).symm.trans h0
      have hym : y ∉ merged := fun hmem => by
        have hyS : y ≠ vertexS := fun heq => hyq (heq ▸ List.mem_cons_self)
        have hzero := h.closed y hmem hyS
        rw [h0] at hzero
        exact hr.forest.not_zero ((hends 0).mp (.inl hzero)).1
      rw [(h.off y hym).1] at h0
      by_cases hyw : root y = w
      · rcases (hends y).mpr ⟨hvy, hyw, h0⟩ with hmem | hmem
        · exact absurd hmem hym
        · exact absurd (List.mem_cons_of_mem _ hmem) hyq
      · exact (hl.mem y).mpr ⟨hvy, (if_neg hyw).symm.trans hyv, h0⟩
  · refine hl.sorted.imp_of_mem fun {a b} ha hb hab => ?_
    have hlabel : ∀ y ∈ l, update s₁.label vertexS (s₁.label w) y = s.label y := fun y hy => by
      rw [Function.update_of_ne, h.frame]
      exact fun heq => (hown y (List.mem_cons_of_mem _ hy)).1 (heq ▸ h.top)
    have hsemi : s₁.semi = s.semi := by rw [h.frame]
    show s₁.semi (update s₁.label vertexS (s₁.label w) b) ≤
      s₁.semi (update s₁.label vertexS (s₁.label w) a)
    rwa [hlabel a ha, hlabel b hb, hsemi]

/-- The chain of `v` is put under it, and that of `w` takes its place. -/
theorem Merged.chain_swapped (hm : Merged s V root w s₁ vertexS merged rest)
    (hr : Linkable s V root cand v w) (hl : Chain s V root v l) :
    Chain (adopted s₁ v w vertexS (update s₁.child v vertexS) size l) V (linkedRoot root v w) v
      (vertexS :: rest) := by
  obtain ⟨h, hends, hdisj, hsorted, hsmall⟩ := hm
  have hnew : ∀ y ∈ vertexS :: rest, V y ∧ root y = w ∧ s₁.ancestor y = 0 := fun y hy => by
    rcases List.mem_cons.mp hy with rfl | hy
    · have := (hends y).mp (.inl h.top)
      exact ⟨this.1, this.2.1, h.ancestor_top⟩
    · have := (hends y).mp (.inr hy)
      exact ⟨this.1, this.2.1, (h.off y (hdisj y hy)).1.trans this.2.2⟩
  have hnewv : ∀ y ∈ vertexS :: rest, y ≠ v := fun y hy heq =>
    hr.ne (hr.root_v.symm.trans (heq ▸ (hnew y hy).2.1))
  have hown : ∀ y ∈ v :: l, y ∉ merged := fun y hy hmem =>
    hr.ne (((hl.mem y).mp hy).2.1.symm.trans ((hends y).mp (.inl hmem)).2.1)
  have hvl : v ∉ l := (List.nodup_cons.mp hl.climb.nodup).1
  have hself : update s₁.child v vertexS v = vertexS := Function.update_self _ _ _
  refine ⟨?_, fun y => ?_, ?_⟩
  · refine .step (fun heq => ?_) ?_
    · have hzero : vertexS = 0 := hself.symm.trans heq
      exact hr.forest.not_zero (hzero ▸ (hnew _ List.mem_cons_self).1)
    · show Climb _ (update s₁.child v vertexS v) _
      rw [hself]
      exact h.climb.congr fun y hy => Function.update_of_ne (hnewv y hy) _ _
  · constructor
    · intro hy
      rcases List.mem_cons.mp hy with rfl | hy
      · obtain ⟨hvy, hyv, h0⟩ := (hl.mem y).mp List.mem_cons_self
        exact ⟨hvy, hr.linkedRoot_v,
          (if_neg hvl).trans ((h.off y (hown y List.mem_cons_self)).1.trans h0)⟩
      · obtain ⟨hvy, hyw, h0⟩ := hnew y hy
        have hyl : y ∉ l := fun hmem =>
          hr.ne (((hl.mem y).mp (List.mem_cons_of_mem _ hmem)).2.1.symm.trans hyw)
        exact ⟨hvy, if_pos hyw, (if_neg hyl).trans h0⟩
    · rintro ⟨hvy, hyv, h0⟩
      by_cases hyl : y ∈ l
      · exact absurd ((if_pos hyl).symm.trans h0) (hr.forest.ne_zero hr.vertex_v)
      have h0 : s₁.ancestor y = 0 := (if_neg hyl).symm.trans h0
      by_cases hyw : root y = w
      · refine List.mem_cons_of_mem _ ?_
        by_cases hym : y ∈ merged
        · by_cases hyS : y = vertexS
          · exact hyS ▸ List.mem_cons_self
          · have hzero := h.closed y hym hyS
            rw [h0] at hzero
            exact absurd ((hends 0).mp (.inl hzero)).1 hr.forest.not_zero
        · rw [(h.off y hym).1] at h0
          exact List.mem_cons_of_mem _
            (((hends y).mpr ⟨hvy, hyw, h0⟩).resolve_left hym)
      · have hyv : root y = v := (if_neg hyw).symm.trans hyv
        have hym : y ∉ merged := fun hmem => hyw ((hends y).mp (.inl hmem)).2.1
        rw [(h.off y hym).1] at h0
        have hmem := (hl.mem y).mpr ⟨hvy, hyv, h0⟩
        exact (List.mem_cons.mp hmem).resolve_right hyl ▸ List.mem_cons_self
  · have hsemi : s₁.semi = s.semi := by rw [h.frame]
    have htop : update s₁.label vertexS (s₁.label w) vertexS = s.label w := by
      rw [Function.update_self, h.frame]
    have hlabel : ∀ y ∈ rest, update s₁.label vertexS (s₁.label w) y = s.label y := fun y hy => by
      rw [Function.update_of_ne, h.frame]
      exact fun heq => hdisj y hy (heq ▸ h.top)
    refine List.pairwise_cons.mpr ⟨fun b hb => ?_, hsorted.imp_of_mem fun {a b} ha hb hab => ?_⟩
    · show s₁.semi (update s₁.label vertexS (s₁.label w) b) ≤
        s₁.semi (update s₁.label vertexS (s₁.label w) vertexS)
      rw [hlabel b hb, htop, hsemi]
      exact hsmall b hb
    · show s₁.semi (update s₁.label vertexS (s₁.label w) b) ≤
        s₁.semi (update s₁.label vertexS (s₁.label w) a)
      rwa [hlabel a ha, hlabel b hb, hsemi]

theorem Merged.child_of_ne (hm : Merged s V root w s₁ vertexS merged rest) {y : Nat}
    (hyw : root y ≠ w) : s₁.child y = s.child y :=
  (hm.merging.off y fun hmem => hyw ((hm.ends y).mp (.inl hmem)).2.1).2

/-- The last loop, on what is left of the chain of `w`. -/
theorem Merged.adopt_own (hm : Merged s V root w s₁ vertexS merged rest)
    (hr : Linkable s V root cand v w) (hl : Chain s V root v l)
    (hfuel : (vertexS :: rest).length < fuel) :
    ∃ s', loop (adoptRound v) fuel ({ s₁ with
        label := update s₁.label vertexS (s₁.label w), size := size }, vertexS) = some s' ∧
      Forest s' V (linkedRoot root v w) (linkedCand root cand w) ∧
      s' = { s with
        ancestor := s'.ancestor, child := s'.child, label := s'.label, size := s'.size } := by
  have hoff : ∀ y ∈ vertexS :: rest, y ≠ 0 ∧ y ≠ v ∧ s.ancestor y = 0 := fun y hy => by
    have hmem : y ∈ merged ∨ y ∈ rest := (List.mem_cons.mp hy).imp_left fun heq => by
      rw [heq]
      exact hm.merging.top
    obtain ⟨hvy, hyw, h0⟩ := (hm.ends y).mp hmem
    exact ⟨hr.forest.ne_zero hvy, fun heq => hr.ne (hr.root_v.symm.trans (heq ▸ hyw)), h0⟩
  have hlinked := hm.linked size hr
    (fun y hy => ⟨(hoff y hy).2.1, (hoff y hy).2.2, .inr (List.mem_cons.mp hy)⟩)
    (fun y _ _ hyw => hm.child_of_ne hyw) ⟨l, hm.chain_own size hr hl⟩
  exact ⟨_, adopt_run (.inr hm.merging.climb) (fun y hy => (hoff y hy).1) hfuel,
    hlinked.forest hr, hlinked.frame⟩

/-- The last loop, on the chain of `v`, which is swapped for that of `w`. -/
theorem Merged.adopt_swapped (hm : Merged s V root w s₁ vertexS merged rest)
    (hr : Linkable s V root cand v w) (hl : Chain s V root v l) (hfuel : l.length < fuel) :
    ∃ s', loop (adoptRound v) fuel ({ s₁ with
        label := update s₁.label vertexS (s₁.label w), size := size
        child := update s₁.child v vertexS }, s₁.child v) = some s' ∧
      Forest s' V (linkedRoot root v w) (linkedCand root cand w) ∧
      s' = { s with
        ancestor := s'.ancestor, child := s'.child, label := s'.label, size := s'.size } := by
  have hoff : ∀ y ∈ l, V y ∧ root y = v ∧ s.ancestor y = 0 := fun y hy =>
    (hl.mem y).mp (List.mem_cons_of_mem _ hy)
  have hne : ∀ y ∈ l, y ≠ v := fun y hy heq =>
    (List.nodup_cons.mp hl.climb.nodup).1 (heq ▸ hy)
  have hvw : ∀ {y}, root y = v → root y ≠ w := fun hyv heq => hr.ne (hyv.symm.trans heq)
  have hq : l = [] ∧ s₁.child v = 0 ∨ Climb (update s₁.child v vertexS) (s₁.child v) l := by
    rw [hm.child_of_ne (hvw hr.root_v)]
    cases hl.climb with
    | top h0 => exact .inl ⟨rfl, h0⟩
    | step _ hclimb =>
      refine .inr (hclimb.congr fun y hy => ?_)
      rw [Function.update_of_ne (hne y hy)]
      exact hm.child_of_ne (hvw (hoff y hy).2.1)
  have hlinked := hm.linked size hr
    (fun y hy => ⟨hne y hy, (hoff y hy).2.2, .inl (hoff y hy).2.1⟩)
    (fun y _ hyv hyw => by
      rw [Function.update_of_ne fun heq => hyv (by rw [heq, hr.root_v])]
      exact hm.child_of_ne hyw)
    ⟨_, hm.chain_swapped size hr hl⟩
  exact ⟨_, adopt_run hq (fun y hy => hr.forest.ne_zero (hoff y hy).1) hfuel,
    hlinked.forest hr, hlinked.frame⟩

end Adopted

theorem Merging.start {l : List Nat} (hl : Chain s V root w l) : Merging s w s w [w] l := by
  have hwtop : s.ancestor w = 0 := ((hl.mem w).mp List.mem_cons_self).2.2
  refine ⟨rfl, hl.climb, List.mem_singleton_self w, hwtop, fun y hy => ?_, fun y hy hyw => ?_,
    fun y _ => ⟨rfl, rfl⟩, fun y hy => .inl (List.mem_singleton.mp hy)⟩
  · rw [List.mem_singleton.mp hy]
    exact .refl
  · exact absurd (List.mem_singleton.mp hy) hyw

/-- The first loop. -/
theorem Linkable.merge (hr : Linkable s V root cand v w) {l : List Nat} (hl : Chain s V root w l)
    (hfuel : (w :: l).length < fuel) :
    ∃ s₁ vertexS merged rest, loop (mergeRound w) fuel (s, w) = some (s₁, vertexS) ∧
      (vertexS :: rest).length ≤ (w :: l).length ∧ Merged s V root w s₁ vertexS merged rest := by
  obtain ⟨s₁, vertexS, merged, rest, hmerge, hparts, hM, hle⟩ := (Merging.start hl).run
    hl.climb.nodup
    (fun y hy => ⟨hr.forest.ne_zero ((hl.mem y).mp hy).1, ((hl.mem y).mp hy).2.2⟩)
    hr.forest.label_zero hr.forest.semi_zero (Nat.lt_of_succ_lt hfuel)
  have hparts : merged ++ rest = w :: l := hparts
  have hnodup : (merged ++ rest).Nodup := hparts ▸ hl.climb.nodup
  have hsub : rest <:+ l := by
    cases merged with
    | nil => exact absurd hM.top List.not_mem_nil
    | cons a merged => exact ⟨merged, (List.cons.inj hparts).2⟩
  have hsorted := hl.sorted.sublist hsub.sublist
  have hsmall : ∀ y ∈ rest, s.semi (s.label y) ≤ s.semi (s.label w) := by
    cases hrest : rest with
    | nil => exact fun y hy => absurd hy List.not_mem_nil
    | cons c rest' =>
      have hclimb := hM.climb
      rw [hrest] at hclimb hsorted
      obtain rfl : s₁.child vertexS = c := by
        cases hclimb with
        | step _ hclimb => cases hclimb <;> rfl
      intro y hy
      rcases List.mem_cons.mp hy with rfl | hy
      · exact hle
      · exact Nat.le_trans ((List.pairwise_cons.mp hsorted).1 y hy) hle
  refine ⟨s₁, vertexS, merged, rest, hmerge, ?_, hM, fun y => ?_, fun y hy hmem => ?_, hsorted,
    hsmall⟩
  · exact Nat.succ_le_succ hsub.length_le
  · rw [← List.mem_append, hparts, hl.mem]
  · exact List.disjoint_of_nodup_append hnodup hmem hy

/-- `LINK` hangs the tree of `w` under `v`. -/
theorem Linkable.link (hr : Linkable s V root cand v w) (hV : ∀ y, V y → y ≤ n)
    (hfuel : n < fuel) :
    ∃ s', s.link fuel v w = some s' ∧ Forest s' V (linkedRoot root v w) (linkedCand root cand w) ∧
      s' = { s with
        ancestor := s'.ancestor, child := s'.child, label := s'.label, size := s'.size } := by
  have hchain : ∀ {r}, V r → root r = r → ∃ l, Chain s V root r l ∧ (r :: l).length < fuel := by
    intro r hvr hrr
    obtain ⟨l, hl⟩ := hr.forest.chain hvr
    rw [hrr] at hl
    refine ⟨l, hl, Nat.lt_of_le_of_lt (hl.climb.length_le fun y hy => ?_) hfuel⟩
    have hy := ((hl.mem y).mp hy).1
    exact ⟨hr.forest.ne_zero hy, hV y hy⟩
  obtain ⟨l, hl, hlen⟩ := hchain hr.vertex_w hr.root_w
  obtain ⟨lv, hlv, hlenv⟩ := hchain hr.vertex_v hr.root_v
  obtain ⟨s₁, vertexS, merged, rest, hmerge, hle, hm⟩ := hr.merge hl hlen
  rw [DominatorArrays.link, hmerge, Option.bind_some, setSizes]
  dsimp only
  split
  · exact hm.adopt_swapped _ hr hlv (Nat.lt_of_succ_lt hlenv)
  · exact hm.adopt_own _ hr hlv (Nat.lt_of_le_of_lt hle hlen)

end Link

end DominatorArrays

end Pebil

import Pebil.Lib.Dominance
import Mathlib.Data.Finset.Card
import Mathlib.Data.Finset.Image
import Mathlib.Data.Finset.Max
import Mathlib.Data.Fintype.Basic
import Mathlib.Order.Defs.LinearOrder

/-!
# How natural loops nest

The natural loop of a back edge is its head and what reaches its tail without passing the head.
Loops with different heads that have a reachable vertex in common are nested; loops with the same
head need not be. `LoopFamily` has these facts for finitely many loops, which is all that counting
and searching among them depends on.

Depths are counted from one loop, an innermost one around the vertex. `DepthRight` says that this
counts the bodies around the vertex, `ParentRight` that a choice of parents takes the next loop
outwards. Together they hold exactly if no two loops have the same head and loops that meet are
nested (`LaminarHeads`).
-/

namespace Pebil

universe u v

/-! ## Natural loops -/

section NaturalLoop

open Relation (ReflTransGen)

variable {α : Type u} {succ : α → α → Prop} {r b t h t' h' : α}

/-- The natural loop of the edge from `t` to `h`. -/
def InNaturalLoop (succ : α → α → Prop) (t h b : α) : Prop := b = h ∨ PathAvoiding succ h b t

/-- A reachable edge to a dominator. -/
structure IsBackEdge (succ : α → α → Prop) (r t h : α) : Prop where
  reachable : ReflTransGen succ r t
  edge : succ t h
  dominates : Dominates succ r h t

theorem InNaturalLoop.tail (succ : α → α → Prop) (t h : α) : InNaturalLoop succ t h t := by
  by_cases hth : t = h
  · exact .inl hth
  · exact .inr (.refl hth)

namespace IsBackEdge

theorem head_reachable (e : IsBackEdge succ r t h) : ReflTransGen succ r h :=
  e.reachable.tail e.edge

theorem dominates_mem (e : IsBackEdge succ r t h) (hb : InNaturalLoop succ t h b) :
    Dominates succ r h b := by
  rcases hb with rfl | hb
  · exact .refl _ _ _
  · exact e.dominates.of_pathAvoiding hb

/-- Around the same head, a loop with the tail of another has all of it. -/
theorem subset_of_tail_mem (ht : InNaturalLoop succ t' h t) (hb : InNaturalLoop succ t h b) :
    InNaturalLoop succ t' h b := by
  rcases hb with rfl | hb
  · exact .inl rfl
  · rcases ht with rfl | ht
    · exact absurd rfl hb.right_ne
    · exact .inr (hb.trans ht)

/-- A loop with the head of another does not have its own head in that one. -/
theorem head_not_mem (e : IsBackEdge succ r t h) (e' : IsBackEdge succ r t' h') (hne : h ≠ h')
    (hmem : InNaturalLoop succ t' h' h) : ¬InNaturalLoop succ t h h' := fun hmem' =>
  hne (Dominates.antisymm e.head_reachable (e.dominates_mem hmem') (e'.dominates_mem hmem))

/-- A loop with the head of another has all of it. -/
theorem subset_of_head_mem (e : IsBackEdge succ r t h) (e' : IsBackEdge succ r t' h') (hne : h ≠ h')
    (hmem : InNaturalLoop succ t' h' h) (hb : InNaturalLoop succ t h b) :
    InNaturalLoop succ t' h' b := by
  have hnot := e.head_not_mem e' hne hmem
  have hhead : PathAvoiding succ h' h t' := hmem.resolve_left hne
  rcases hb with rfl | hb
  · exact hmem
  · -- the path to the tail stays in the inner loop, and so off the outer head
    rcases hb.split_last h' with havoid | hvia
    · exact .inr ((havoid.snoc e.edge hne).trans hhead)
    · exact absurd (.inr hvia) hnot

/-- On the way to a vertex, one of two others comes last, or the first is not met. -/
theorem last_of_two (hne : h ≠ h') (hb : ReflTransGen succ r b) :
    PathAvoiding succ h' h b ∨ PathAvoiding succ h h' b ∨ PathAvoiding succ h r b := by
  induction hb with
  | refl =>
    by_cases hr : r = h
    · subst hr
      exact .inl (.refl hne)
    · exact .inr (.inr (.refl hr))
  | @tail x y _ hxy ih =>
    by_cases hy : y = h
    · subst hy
      exact .inl (.refl hne)
    · by_cases hy' : y = h'
      · subst hy'
        exact .inr (.inl (.refl hy))
      · rcases ih with hx | hx | hx
        · exact .inl (hx.snoc hxy hy')
        · exact .inr (.inl (hx.snoc hxy hy))
        · exact .inr (.inr (hx.snoc hxy hy))

/-- Of two loops with a reachable vertex in common, one has the head of the other. -/
theorem head_mem_or_head_mem (e : IsBackEdge succ r t h) (hb : InNaturalLoop succ t h b)
    (hb' : InNaturalLoop succ t' h' b) (hreach : ReflTransGen succ r b) :
    InNaturalLoop succ t' h' h ∨ InNaturalLoop succ t h h' := by
  by_cases hne : h = h'
  · subst hne
    exact .inl (.inl rfl)
  rcases last_of_two hne hreach with hlast | hlast | hnone
  · -- from the head that comes last, the path to the vertex goes on to the other loop's tail
    rcases hb' with rfl | hb'
    · exact absurd rfl hlast.right_ne
    · exact .inl (.inr (hlast.trans hb'))
  · rcases hb with rfl | hb
    · exact absurd rfl hlast.right_ne
    · exact .inr (.inr (hlast.trans hb))
  · exact absurd hnone (e.dominates_mem hb)

end IsBackEdge

end NaturalLoop

/-! ## Families of loops -/

/-- Finitely many loops, and what natural loops have in common. A vertex is live if the loops that
meet there are nested. -/
structure LoopFamily (ι : Type u) (β : Type v) where
  body : ι → Finset β
  head : ι → β
  tail : ι → β
  Live : β → Prop
  head_mem : ∀ i, head i ∈ body i
  tail_mem : ∀ i, tail i ∈ body i
  head_live : ∀ i, Live (head i)
  tail_live : ∀ i, Live (tail i)
  sameHead : ∀ i j, head i = head j → tail i ∈ body j → body i ⊆ body j
  headMem : ∀ i j, head i ≠ head j → head i ∈ body j → body i ⊂ body j
  meet : ∀ i j b, Live b → b ∈ body i → b ∈ body j → head i ∈ body j ∨ head j ∈ body i

namespace LoopFamily

variable {ι : Type u} {β : Type v} [Fintype ι] [DecidableEq β] (F : LoopFamily ι β)

/-- The loops that contain a loop, itself among them. -/
def supers (i : ι) : Finset ι := Finset.univ.filter fun j => F.body i ⊆ F.body j

/-- The loops around a vertex. -/
def around (b : β) : Finset ι := Finset.univ.filter fun j => b ∈ F.body j

/-- A smallest loop around the vertex. -/
structure Innermost (b : β) (m : ι) : Prop where
  mem : b ∈ F.body m
  least : ∀ j, b ∈ F.body j → (F.body m).card ≤ (F.body j).card

/-- Around each vertex some smallest loop is contained in as many loops as there are bodies. -/
def DepthRight : Prop :=
  ∀ b i, b ∈ F.body i →
    ∃ m, F.Innermost b m ∧ (F.supers m).card = ((F.around b).image F.body).card

/-- No two loops have the same head, and loops that meet are nested. -/
structure LaminarHeads : Prop where
  heads : ∀ i j, F.head i = F.head j → i = j
  nested : ∀ i j b, b ∈ F.body i → b ∈ F.body j → F.body i ⊆ F.body j ∨ F.body j ⊆ F.body i

/-- The next loop outwards, the loop itself if there is none. -/
structure IsParent (i p : ι) : Prop where
  outwards : (∃ j, F.body i ⊂ F.body j) →
    F.body i ⊂ F.body p ∧ ∀ j, F.body i ⊂ F.body j → (F.body p).card ≤ (F.body j).card
  outermost : (¬∃ j, F.body i ⊂ F.body j) → p = i

variable {F} {b : β} {i j m p : ι}

theorem mem_supers : j ∈ F.supers i ↔ F.body i ⊆ F.body j := by simp [supers]

theorem mem_around : j ∈ F.around b ↔ b ∈ F.body j := by simp [around]

theorem Innermost.supers_subset (h : F.Innermost b m) : F.supers m ⊆ F.around b := fun _ hj =>
  mem_around.mpr (mem_supers.mp hj h.mem)

omit [Fintype ι] in
theorem head_eq_of_body_eq (h : F.body i = F.body j) : F.head i = F.head j := by
  by_contra hne
  have hstrict := F.headMem i j hne (h ▸ F.head_mem i)
  exact (Finset.ssubset_iff_subset_ne.mp hstrict).2 h

omit [Fintype ι] in
/-- Two loops around a live vertex have the same head, or one is strictly inside the other. -/
theorem nested_of_live (hlive : F.Live b) (hi : b ∈ F.body i) (hj : b ∈ F.body j) :
    F.head i = F.head j ∨ F.body i ⊂ F.body j ∨ F.body j ⊂ F.body i := by
  by_cases hne : F.head i = F.head j
  · exact .inl hne
  · rcases F.meet i j b hlive hi hj with h | h
    · exact .inr (.inl (F.headMem i j hne h))
    · exact .inr (.inr (F.headMem j i (Ne.symm hne) h))

/-- Around the tail of a smallest loop inside another, all loops contain that smallest loop. -/
theorem exists_tail (i : ι) : ∃ m, F.body m ⊆ F.body i ∧ F.around (F.tail m) = F.supers m := by
  obtain ⟨m, hm, hleast⟩ := (Finset.univ.filter fun j => F.body j ⊆ F.body i).exists_min_image
    (fun j => (F.body j).card) ⟨i, by simp⟩
  have hmi : F.body m ⊆ F.body i := by simpa using hm
  refine ⟨m, hmi, Finset.Subset.antisymm (fun j hj => ?_) fun j hj =>
    mem_around.mpr (mem_supers.mp hj (F.tail_mem m))⟩
  have htail := mem_around.mp hj
  rw [mem_supers]
  rcases nested_of_live (F.tail_live m) (F.tail_mem m) htail with h | h | h
  · exact F.sameHead m j h htail
  · exact h.1
  · -- smaller than the smallest
    have hle := hleast j (by simpa using h.1.trans hmi)
    have hlt := Finset.card_lt_card h
    omega

/-- Where depths are right, no two loops have the same body. -/
theorem DepthRight.body_injective (h : F.DepthRight) (hij : F.body i = F.body j) : i = j := by
  obtain ⟨m, hmi, htail⟩ := F.exists_tail i
  obtain ⟨a, ha, hcard⟩ := h (F.tail m) m (F.tail_mem m)
  have hma : F.body m ⊆ F.body a := by
    rw [← mem_supers, ← htail]
    exact mem_around.mpr ha.mem
  have heq := Finset.eq_of_subset_of_card_le hma (ha.least m (F.tail_mem m))
  have hsupers : F.supers a = F.supers m := by
    ext j
    rw [mem_supers, mem_supers, heq]
  rw [hsupers, ← htail] at hcard
  have hinj := Finset.card_image_iff.mp hcard.symm
  exact hinj (mem_around.mpr (hmi (F.tail_mem m))) (mem_around.mpr (hij ▸ hmi (F.tail_mem m))) hij

/-- Where depths are right, all loops around a vertex contain a smallest one. -/
theorem DepthRight.exists_least (h : F.DepthRight) (hi : b ∈ F.body i) :
    ∃ m, F.Innermost b m ∧ ∀ a, b ∈ F.body a → F.body m ⊆ F.body a := by
  obtain ⟨m, hm, hcard⟩ := h b i hi
  refine ⟨m, hm, fun a ha => ?_⟩
  have haround : F.supers m = F.around b := by
    refine Finset.eq_of_subset_of_card_le hm.supers_subset ?_
    rw [hcard, Finset.card_image_of_injective _ fun _ _ => h.body_injective]
  rw [← mem_supers, haround]
  exact mem_around.mpr ha

/-- Where depths and parents are right, and a parent is less deep at its head, no two loops have the
same head. -/
theorem DepthRight.laminarHeads (h : F.DepthRight) (parent : ι → ι) (depthAt : β → Nat)
    (hparent : ∀ i, F.IsParent i (parent i))
    (hless : ∀ i, parent i ≠ i → depthAt (F.head i) = depthAt (F.head (parent i)) + 1) :
    F.LaminarHeads := by
  have hheads : ∀ i j, F.head i = F.head j → i = j := by
    intro i j hij
    -- a smallest loop around the head has the same head
    obtain ⟨m, hm, hsub⟩ := h.exists_least (F.head_mem i)
    have hhead : F.head i = F.head m := by
      by_contra hne
      exact (F.headMem i m hne hm.mem).2 (hsub i (F.head_mem i))
    suffices hall : ∀ a, F.head a = F.head m → a = m from
      (hall i hhead).trans (hall j (hij ▸ hhead)).symm
    intro a ha
    by_contra hne
    have hma : F.body m ⊂ F.body a :=
      Finset.ssubset_iff_subset_ne.mpr ⟨hsub a (hhead.trans ha.symm ▸ F.head_mem a),
        fun heq => hne (h.body_injective heq).symm⟩
    obtain ⟨hmp, hle⟩ := (hparent m).outwards ⟨a, hma⟩
    by_cases hp : F.head (parent m) = F.head m
    · -- a parent with the same head is as deep
      have hself : parent m ≠ m := fun heq => by
        rw [heq] at hmp
        exact hmp.2 subset_rfl
      have hdepth := hless m hself
      rw [hp] at hdepth
      omega
    · have hstrict := F.headMem a (parent m) (fun heq => hp (heq.symm.trans ha))
        (ha ▸ hmp.1 (F.head_mem m))
      have hlt := Finset.card_lt_card hstrict
      have hle' := hle a hma
      omega
  refine ⟨hheads, fun i j b hi hj => ?_⟩
  obtain ⟨m, -, hsub⟩ := h.exists_least hi
  -- the head of a smallest loop is a live vertex of both
  rcases nested_of_live (F.head_live m) (hsub i hi (F.head_mem m)) (hsub j hj (F.head_mem m)) with
    h | h | h
  · obtain rfl := hheads i j h
    exact .inl subset_rfl
  · exact .inl h.1
  · exact .inr h.1

namespace LaminarHeads

variable (L : F.LaminarHeads)

include L

omit [Fintype ι] in
theorem body_injective (hij : F.body i = F.body j) : i = j := L.heads i j (head_eq_of_body_eq hij)

theorem around_eq (hm : F.Innermost b m) : F.around b = F.supers m := by
  refine Finset.Subset.antisymm (fun j hj => ?_) hm.supers_subset
  have hj := mem_around.mp hj
  rw [mem_supers]
  rcases L.nested m j b hm.mem hj with h | h
  · exact h
  · exact (Finset.eq_of_subset_of_card_le h (hm.least j hj)).ge

theorem card_supers (hm : F.Innermost b m) :
    (F.supers m).card = ((F.around b).image F.body).card := by
  rw [L.around_eq hm, Finset.card_image_of_injective _ fun _ _ => L.body_injective]

omit [Fintype ι] in
/-- A loop is the smallest around its head. -/
theorem innermost_head (i : ι) : F.Innermost (F.head i) i := by
  refine ⟨F.head_mem i, fun j hj => Finset.card_le_card ?_⟩
  by_cases hne : F.head i = F.head j
  · obtain rfl := L.heads i j hne
    exact subset_rfl
  · exact (F.headMem i j hne hj).1

/-- The smallest loop strictly around another is contained in all others that are. -/
theorem supers_eq_insert (hp : F.body i ⊂ F.body p)
    (hleast : ∀ j, F.body i ⊂ F.body j → (F.body p).card ≤ (F.body j).card) [DecidableEq ι] :
    F.supers i = insert i (F.supers p) := by
  ext a
  rw [Finset.mem_insert, mem_supers, mem_supers]
  constructor
  · intro ha
    by_cases hai : a = i
    · exact .inl hai
    · have hstrict : F.body i ⊂ F.body a :=
        Finset.ssubset_iff_subset_ne.mpr ⟨ha, fun heq => hai (L.body_injective heq).symm⟩
      rcases L.nested p a _ (hp.1 (F.head_mem i)) (ha (F.head_mem i)) with h | h
      · exact .inr h
      · exact .inr (Finset.eq_of_subset_of_card_le h (hleast a hstrict)).ge
  · rintro (rfl | ha)
    · exact subset_rfl
    · exact hp.1.trans ha

theorem card_supers_eq_succ (hp : F.body i ⊂ F.body p)
    (hleast : ∀ j, F.body i ⊂ F.body j → (F.body p).card ≤ (F.body j).card) :
    (F.supers i).card = (F.supers p).card + 1 := by
  classical
  rw [L.supers_eq_insert hp hleast, Finset.card_insert_of_notMem]
  rw [mem_supers]
  exact hp.2

/-- The parent is found by its depth, among the loops that contain the loop. -/
theorem isParent (h : (F.body i ⊆ F.body p ∧ (F.supers i).card = (F.supers p).card + 1) ∨
    ((∀ j, F.body i ⊆ F.body j → (F.supers i).card ≠ (F.supers j).card + 1) ∧ p = i)) :
    F.IsParent i p := by
  constructor
  · intro hex
    obtain ⟨q, hq, hleast⟩ := (Finset.univ.filter fun j => F.body i ⊂ F.body j).exists_min_image
      (fun j => (F.body j).card) (hex.imp fun j hj => by simpa using hj)
    have hiq : F.body i ⊂ F.body q := by simpa using hq
    have hleast : ∀ j, F.body i ⊂ F.body j → (F.body q).card ≤ (F.body j).card := fun j hj =>
      hleast j (by simpa using hj)
    have hcard := L.card_supers_eq_succ hiq hleast
    rcases h with ⟨hip, hdepth⟩ | ⟨hnone, -⟩
    · have hpi : p ≠ i := by
        rintro rfl
        omega
      have hstrict : F.body i ⊂ F.body p :=
        Finset.ssubset_iff_subset_ne.mpr ⟨hip, fun heq => hpi (L.body_injective heq).symm⟩
      refine ⟨hstrict, fun j hj => (Finset.card_le_card ?_).trans (hleast j hj)⟩
      -- as deep as the smallest, and containing it
      have hqp : F.body q ⊆ F.body p := by
        rcases L.nested q p _ (hiq.1 (F.head_mem i)) (hip (F.head_mem i)) with h | h
        · exact h
        · exact (Finset.eq_of_subset_of_card_le h (hleast p hstrict)).ge
      have hsub : F.supers p ⊆ F.supers q := fun a ha =>
        mem_supers.mpr (hqp.trans (mem_supers.mp ha))
      have heq := Finset.eq_of_subset_of_card_le hsub (by omega)
      exact mem_supers.mp (heq ▸ mem_supers.mpr subset_rfl)
    · exact absurd hcard (hnone q hiq.1)
  · intro hnone
    rcases h with ⟨hip, hdepth⟩ | ⟨-, rfl⟩
    · by_contra hpi
      exact hnone ⟨p, Finset.ssubset_iff_subset_ne.mpr
        ⟨hip, fun heq => hpi (L.body_injective heq).symm⟩⟩
    · rfl

/-- A vertex of an inner loop has more loops around it than one that is in no loop strictly inside
the outer. -/
theorem card_around_lt (hij : F.body i ⊂ F.body j) {c : β} (hb : b ∈ F.body i)
    (hc : c ∈ F.body j) (honly : ∀ a, c ∈ F.body a → ¬F.body a ⊂ F.body j) :
    (F.around c).card < (F.around b).card := by
  have hinner : F.Innermost c j := by
    refine ⟨hc, fun a ha => Finset.card_le_card ?_⟩
    rcases L.nested a j c ha hc with h | h
    · by_contra hne
      exact honly a ha ⟨h, hne⟩
    · exact h
  rw [L.around_eq hinner]
  refine Finset.card_lt_card ⟨fun a ha => ?_, fun hsub => ?_⟩
  · exact mem_around.mpr (mem_supers.mp ha (hij.1 hb))
  · exact hij.2 (mem_supers.mp (hsub (mem_around.mpr hb)))

end LaminarHeads

/-! ## The order in which loops are listed -/

section Order

variable [LinearOrder ι]

/-- The first loop that contains a loop. -/
structure IsFirst (F : LoopFamily ι β) (i o : ι) : Prop where
  subset : F.body i ⊆ F.body o
  first : ∀ j, F.body i ⊆ F.body j → o ≤ j

/-- No loop is listed before the outermost loop that contains it. -/
def OutermostFirst (F : LoopFamily ι β) : Prop :=
  ∀ i j, F.body i ⊆ F.body j → (∀ a, ¬F.body j ⊂ F.body a) → j ≤ i

omit [Fintype ι] [DecidableEq β] in
/-- The first loop that contains a loop is the first that contains itself. -/
theorem IsFirst.idem {o o' : ι} (h : F.IsFirst i o) (h' : F.IsFirst o o') : o' = o :=
  le_antisymm (h'.first o subset_rfl) (h.first o' (h.subset.trans h'.subset))

theorem LaminarHeads.outermostFirst (L : F.LaminarHeads) {outer : ι → ι}
    (hfirst : ∀ i, F.IsFirst i (outer i)) :
    F.OutermostFirst ↔ ∀ i a, ¬F.body (outer i) ⊂ F.body a := by
  constructor
  · intro h i a ha
    obtain ⟨j, hj, hmax⟩ := (F.supers i).exists_max_image (fun j => (F.body j).card)
      ⟨i, mem_supers.mpr subset_rfl⟩
    have hij := mem_supers.mp hj
    have hout : ∀ a, ¬F.body j ⊂ F.body a := fun a ha => by
      have hle := hmax a (mem_supers.mpr (hij.trans ha.1))
      have hlt := Finset.card_lt_card ha
      omega
    obtain ⟨hsub, hleast⟩ := hfirst i
    rcases L.nested (outer i) j _ (hsub (F.head_mem i)) (hij (F.head_mem i)) with hoj | hjo
    · rw [le_antisymm (hleast j hij) (h _ j hoj hout)] at ha
      exact hout a ha
    · exact hout a (Finset.ssubset_of_subset_of_ssubset hjo ha)
  · intro h i j hij hout
    obtain ⟨hsub, hleast⟩ := hfirst i
    have heq : outer i = j := by
      refine L.body_injective ?_
      rcases L.nested (outer i) j _ (hsub (F.head_mem i)) (hij (F.head_mem i)) with hoj | hjo
      · by_contra hne
        exact h i j (Finset.ssubset_iff_subset_ne.mpr ⟨hoj, hne⟩)
      · by_contra hne
        exact hout _ (Finset.ssubset_iff_subset_ne.mpr ⟨hjo, Ne.symm hne⟩)
    exact heq ▸ hleast i subset_rfl

end Order

end LoopFamily

end Pebil

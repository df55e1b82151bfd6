import Mathlib.Logic.Relation
import Mathlib.Tactic.ByContra

/-!
# Reachability and dominance in a graph

`PathAvoiding succ d a b` is a path from `a` to `b` on which `d` does not lie; a vertex
dominates another when no path from the root to the other avoids it. Stated so, the
arguments about dominators are about prolonging paths at either end and about
splitting a path at the first vertex it has to meet (`PathAvoiding.split`).

Dominance is a partial order on the reachable vertices; an unreachable vertex is
dominated by everything.
-/

namespace Pebil

universe u

open Relation (ReflTransGen)

variable {α : Type u} {succ : α → α → Prop}

/-- Some path leads from `a` to `b` and `d` does not lie on it. -/
def PathAvoiding (succ : α → α → Prop) (d a b : α) : Prop :=
  a ≠ d ∧ ReflTransGen (fun x y => succ x y ∧ y ≠ d) a b

/-- Every path from the root `r` to `v` passes `d`. -/
def Dominates (succ : α → α → Prop) (r d v : α) : Prop := ¬ PathAvoiding succ d r v

namespace PathAvoiding

variable {a b c d e : α}

theorem refl (h : a ≠ d) : PathAvoiding succ d a a := ⟨h, .refl⟩

theorem snoc (h : PathAvoiding succ d a b) (hbc : succ b c) (hc : c ≠ d) :
    PathAvoiding succ d a c := ⟨h.1, h.2.tail ⟨hbc, hc⟩⟩

theorem cons (ha : a ≠ d) (hab : succ a b) (h : PathAvoiding succ d b c) :
    PathAvoiding succ d a c := ⟨ha, .head ⟨hab, h.1⟩ h.2⟩

theorem trans (h : PathAvoiding succ d a b) (h' : PathAvoiding succ d b c) :
    PathAvoiding succ d a c := ⟨h.1, h.2.trans h'.2⟩

theorem reach (h : PathAvoiding succ d a b) : ReflTransGen succ a b :=
  ReflTransGen.mono (fun _ _ hxy => hxy.1) _ _ h.2

theorem right_ne (h : PathAvoiding succ d a b) : b ≠ d := by
  cases h.2 with
  | refl => exact h.1
  | tail _ hstep => exact hstep.2

/-- The two ways a path can begin. -/
theorem head_cases (h : PathAvoiding succ d a c) :
    a = c ∨ ∃ b, succ a b ∧ PathAvoiding succ d b c := by
  rcases h.2.cases_head with rfl | ⟨b, ⟨hab, hb⟩, hbc⟩
  · exact .inl rfl
  · exact .inr ⟨b, hab, hb, hbc⟩

/-- A path either avoids `e` as well or has a part that leads to `e`. -/
theorem split (h : PathAvoiding succ d a c) (e : α) :
    PathAvoiding succ e a c ∨ PathAvoiding succ d a e := by
  obtain ⟨ha, h⟩ := h
  induction h with
  | refl =>
    by_cases he : a = e
    · subst he
      exact .inr (refl ha)
    · exact .inl (refl he)
  | @tail b c hab hbc ih =>
    rcases ih with hpath | hpath
    · by_cases hc : c = e
      · subst hc
        -- the step to `e` itself is the end of the part
        exact .inr ⟨ha, hab.tail hbc⟩
      · exact .inl (hpath.snoc hbc.1 hc)
    · exact .inr hpath

/-- A path either avoids `e` as well or has a part that comes from `e`. -/
theorem split_last (h : PathAvoiding succ d a c) (e : α) :
    PathAvoiding succ e a c ∨ PathAvoiding succ d e c := by
  obtain ⟨ha, h⟩ := h
  induction h with
  | refl =>
    by_cases he : a = e
    · subst he
      exact .inr (refl ha)
    · exact .inl (refl he)
  | @tail b c hab hbc ih =>
    by_cases hc : c = e
    · subst hc
      exact .inr (refl hbc.2)
    · rcases ih with hpath | hpath
      · exact .inl (hpath.snoc hbc.1 hc)
      · exact .inr (hpath.snoc hbc.1 hbc.2)

end PathAvoiding

/-! ## Dominance is a partial order -/

variable {r a b c : α}

theorem Dominates.refl (succ : α → α → Prop) (r v : α) : Dominates succ r v v :=
  fun h => h.right_ne rfl

theorem Dominates.trans (hab : Dominates succ r a b) (hbc : Dominates succ r b c) :
    Dominates succ r a c := fun h =>
  (h.split b).elim hbc hab

/-- A path to a reachable vertex meets one of two vertices first, or avoids both. -/
theorem first_of_two (hne : a ≠ b) {v : α} (h : ReflTransGen succ r v) :
    PathAvoiding succ a r b ∨ PathAvoiding succ b r a ∨
      (PathAvoiding succ a r v ∧ PathAvoiding succ b r v) := by
  induction h with
  | refl =>
    by_cases ha : r = a
    · subst ha
      exact .inr (.inl (.refl hne))
    · by_cases hb : r = b
      · subst hb
        exact .inl (.refl (Ne.symm hne))
      · exact .inr (.inr ⟨.refl ha, .refl hb⟩)
  | @tail x y _ hxy ih =>
    rcases ih with h | h | ⟨hx, hx'⟩
    · exact .inl h
    · exact .inr (.inl h)
    · by_cases ha : y = a
      · subst ha
        exact .inr (.inl (hx'.snoc hxy hne))
      · by_cases hb : y = b
        · subst hb
          exact .inl (hx.snoc hxy (Ne.symm hne))
        · exact .inr (.inr ⟨hx.snoc hxy ha, hx'.snoc hxy hb⟩)

theorem Dominates.antisymm (hreach : ReflTransGen succ r a) (hab : Dominates succ r a b)
    (hba : Dominates succ r b a) : a = b := by
  by_contra hne
  rcases first_of_two hne hreach with h | h | ⟨h, -⟩
  · exact hab h
  · exact hba h
  · exact h.right_ne rfl

/-- A dominator of a reachable vertex is reachable. -/
theorem Dominates.reach (hreach : ReflTransGen succ r b) (h : Dominates succ r a b) :
    ReflTransGen succ r a := by
  by_contra hnot
  have hra : r ≠ a := fun heq => hnot (heq ▸ .refl)
  refine h ⟨hra, ?_⟩
  -- every vertex of the path is reachable, so none is `a`
  induction hreach with
  | refl => exact .refl
  | @tail x y hx hxy ih =>
    have hy : y ≠ a := fun heq => hnot (heq ▸ hx.tail hxy)
    exact (ih fun hx' => h (hx'.snoc hxy hy)).tail ⟨hxy, hy⟩

/-- Only the root dominates the root. -/
theorem Dominates.eq_root (h : Dominates succ r a r) : a = r := by
  by_contra hne
  exact h (.refl (Ne.symm hne))

/-- A dominator of a vertex that reaches another vertex without passing the dominator
dominates the other way round: the path's start is dominated too. -/
theorem Dominates.of_pathAvoiding (h : Dominates succ r a c) (hbc : PathAvoiding succ a b c) :
    Dominates succ r a b := fun hb => h (hb.trans hbc)

/-- `d` is the immediate dominator of `v`: the strict dominator of `v` that all strict
dominators of `v` dominate. -/
structure IsImmDominator (succ : α → α → Prop) (r d v : α) : Prop where
  ne : d ≠ v
  dominates : Dominates succ r d v
  closest : ∀ a, Dominates succ r a v → a ≠ v → Dominates succ r a d

/-! ## Renaming the vertices -/

section Map

variable {β : Type u} {succ' : β → β → Prop} {f : α → β} {e : β → α} {d v : α} {r' d' v' : β}

theorem PathAvoiding.map (hf : ∀ x y, ReflTransGen succ r x → succ x y → succ' (f x) (f y))
    (hd : ∀ x, ReflTransGen succ r x → f x = f d → x = d) (h : PathAvoiding succ d r v) :
    PathAvoiding succ' (f d) (f r) (f v) := by
  obtain ⟨hne, hpath⟩ := h
  refine ⟨fun heq => hne (hd r .refl heq), ?_⟩
  induction hpath with
  | refl => exact .refl
  | @tail x y hrx hxy ih =>
    have hx : ReflTransGen succ r x := PathAvoiding.reach ⟨hne, hrx⟩
    exact ih.tail ⟨hf x y hx hxy.1, fun heq => hxy.2 (hd y (hx.tail hxy.1) heq)⟩

/-- Two graphs have the same immediate dominators if what their roots reach is the same but for the
names of the vertices. -/
theorem IsImmDominator.map (hr : f r = r') (hr' : e r' = r)
    (hf : ∀ x y, ReflTransGen succ r x → succ x y → succ' (f x) (f y))
    (he : ∀ x y, ReflTransGen succ' r' x → succ' x y → succ (e x) (e y))
    (hef : ∀ x, ReflTransGen succ r x → e (f x) = x)
    (hfe : ∀ x, ReflTransGen succ' r' x → f (e x) = x) (hv : ReflTransGen succ' r' v')
    (h : IsImmDominator succ' r' d' v') : IsImmDominator succ r (e d') (e v') := by
  have hd := h.dominates.reach hv
  have hreach : ∀ {x}, ReflTransGen succ' r' x → ReflTransGen succ r (e x) := fun hx => by
    induction hx with
    | refl => exact hr' ▸ .refl
    | tail hx hxy ih => exact ih.tail (he _ _ hx hxy)
  have hback : ∀ {a b}, ReflTransGen succ' r' a → ReflTransGen succ' r' b →
      Dominates succ' r' a b → Dominates succ r (e a) (e b) := fun {a b} ha hb hab hpath => by
    have hpath' := hpath.map hf fun x hx heq => by rw [← hef x hx, heq, hfe a ha]
    rw [hfe a ha, hfe b hb, hr] at hpath'
    exact hab hpath'
  refine ⟨fun heq => h.ne ?_, hback hd hv h.dominates, fun a ha hne => ?_⟩
  · rw [← hfe d' hd, heq, hfe v' hv]
  have hra := ha.reach (hreach hv)
  have hforth : Dominates succ' r' (f a) v' := fun hpath => by
    have hpath' := hpath.map he fun x hx heq => by rw [← hfe x hx, heq, hef a hra]
    rw [hef a hra, hr'] at hpath'
    exact ha hpath'
  have hfa := h.closest (f a) hforth fun heq => hne (by rw [← heq, hef a hra])
  have hdom := hback (hforth.reach hv) hd hfa
  rwa [hef a hra] at hdom

end Map

end Pebil

import Mathlib.Data.List.Chain
import Mathlib.Data.List.Iterate
import Mathlib.Data.List.Nodup
import Mathlib.Logic.Function.Basic

/-!
# Circular doubly linked lists in two link functions

`Ring prev next a l` says that the links run once around `a :: l`: from `a` along `l` and
back to `a`. Turning the ring makes the element after `a` the first one; `relinkBefore`
takes an element out and links it in again before `a`, so that it becomes the last one.
-/

namespace CircularList

open List

variable {α : Type*} {prev next prev' next' : α → α} {a b p w z : α} {l us vs : List α}

/-- The links agree between neighbours of `l`. -/
abbrev Linked (prev next : α → α) (l : List α) : Prop :=
  IsChain (fun x y => next x = y ∧ prev y = x) l

/-- The links run once around `a :: l`. -/
structure Ring (prev next : α → α) (a : α) (l : List α) : Prop where
  nodup : (a :: l).Nodup
  linked : Linked prev next (a :: l ++ [a])

/-- Only the `next` links before the last element and the `prev` links after the first
one matter to a chain. -/
theorem Linked.congr (h : Linked prev next l)
    (hnext : ∀ x ∈ l.dropLast, next' x = next x) (hprev : ∀ y ∈ l.tail, prev' y = prev y) :
    Linked prev' next' l := by
  induction l with
  | nil => exact .nil
  | cons x l ih =>
    cases l with
    | nil => exact .singleton x
    | cons y l =>
      obtain ⟨⟨hxy, hyx⟩, htail⟩ := isChain_cons_cons.mp h
      refine isChain_cons_cons.mpr ⟨⟨?_, ?_⟩, ih htail ?_ ?_⟩
      · rw [hnext x (by simp), hxy]
      · rw [hprev y (by simp), hyx]
      · intro v hv
        exact hnext v (by rw [dropLast_cons_cons]; exact mem_cons_of_mem x hv)
      · intro v hv
        exact hprev v (mem_cons_of_mem y hv)

namespace Ring

/-- The ring starts anywhere: here at the element after `a`. -/
theorem rotate (h : Ring prev next a (b :: l)) : Ring prev next b (l ++ [a]) := by
  obtain ⟨hnodup, hlinked⟩ := h
  refine ⟨(@nodup_append_comm _ [a] (b :: l)).mp hnodup, ?_⟩
  obtain ⟨hab, hrest⟩ := isChain_cons_cons.mp hlinked
  rw [Linked, cons_append, append_assoc]
  exact isChain_cons_append_cons_cons.mpr ⟨hrest, hab, .singleton b⟩

theorem next_head (h : Ring prev next a (b :: l)) : next a = b :=
  (isChain_cons_cons.mp h.linked).1.1

/-- Going round the ring visits its elements in order. -/
theorem iterate_eq (h : Ring prev next a l) : List.iterate next a (l.length + 1) = a :: l := by
  have hchain : IsChain (fun x y => next x = y) (a :: l) :=
    (h.linked.left_of_append).imp fun _ _ hxy => hxy.1
  refine ext_getElem (by simp) fun i hi hi' => ?_
  rw [getElem_iterate]
  exact hchain.iterate_eq_of_apply_eq i hi'

/-- Going round the ring ends where it began. -/
theorem iterate_length (h : Ring prev next a l) : next^[l.length + 1] a = a := by
  have hchain : IsChain (fun x y => next x = y) (a :: l ++ [a]) :=
    h.linked.imp fun _ _ hxy => hxy.1
  have := hchain.iterate_eq_of_apply_eq (l.length + 1) (by simp)
  simpa using this

/-- Before `a` stands the last element, which is `a` itself when it is alone. -/
theorem prev_head (h : Ring prev next a l) (hz : z ∈ (a :: l).getLast?) : prev a = z := by
  obtain ⟨us, heq⟩ := getLast?_eq_some_iff.mp hz
  have hlinked := h.linked
  rw [heq, append_assoc] at hlinked
  exact (isChain_append_cons_cons.mp hlinked).2.1.2

/-- The two links of an element of the ring undo each other. -/
theorem inverse (h : Ring prev next a l) (hx : b ∈ a :: l) :
    prev (next b) = b ∧ next (prev b) = b := by
  constructor
  · obtain ⟨us, vs, heq⟩ := append_of_mem hx
    have hlinked := h.linked
    rw [heq, append_assoc, cons_append] at hlinked
    cases vs with
    | nil =>
      obtain ⟨-, hb, -⟩ := isChain_append_cons_cons.mp hlinked
      rw [hb.1, hb.2]
    | cons v vs =>
      obtain ⟨-, hb, -⟩ := isChain_append_cons_cons.mp hlinked
      rw [hb.1, hb.2]
  · have hx' : b ∈ l ++ [a] := by simpa [or_comm] using hx
    obtain ⟨us, vs, heq⟩ := append_of_mem hx'
    have hlinked := h.linked
    rw [cons_append, heq] at hlinked
    cases us using List.reverseRecOn with
    | nil =>
      obtain ⟨hb, -⟩ := isChain_cons_cons.mp hlinked
      rw [hb.2, hb.1]
    | append_singleton us u =>
      rw [append_assoc, singleton_append] at hlinked
      obtain ⟨-, hb, -⟩ := isChain_cons_append_cons_cons.mp hlinked
      rw [hb.2, hb.1]

end Ring

variable [DecidableEq α]

/-- Unlink `w`, and link it in before `a`: the six writes in their order. -/
def relinkBefore (prev next : α → α) (a w : α) : (α → α) × (α → α) :=
  let prev₁ := Function.update prev (next w) (prev w)
  let next₁ := Function.update next (prev₁ w) (next w)
  let prev₂ := Function.update prev₁ w (prev₁ a)
  let prev₃ := Function.update prev₂ a w
  let next₂ := Function.update next₁ w a
  let next₃ := Function.update next₂ (prev₃ w) w
  (prev₃, next₃)

/-- The last element already stands before `a`. -/
theorem relinkBefore_last (h : Ring prev next a (us ++ [w])) :
    relinkBefore prev next a w = (prev, next) := by
  have haw : a ≠ w := fun heq => (nodup_cons.mp h.nodup).1 (by simp [heq])
  have hprev : prev a = w := h.prev_head (by simp [getLast?_cons])
  obtain ⟨hpn, hnp⟩ := h.inverse (b := w) (by simp)
  have hnext : next w = a := by
    rw [← hprev]
    exact (h.inverse (b := a) (by simp)).2
  simp only [relinkBefore, hnext, Function.update_self, Function.update_of_ne haw.symm,
    Prod.mk.injEq]
  constructor
  · funext x
    by_cases hxa : x = a
    · rw [hxa, Function.update_self, hprev]
    · rw [Function.update_of_ne hxa]
      by_cases hxw : x = w
      · rw [hxw, Function.update_self]
      · rw [Function.update_of_ne hxw, Function.update_of_ne hxa]
  · funext x
    by_cases hxp : x = prev w
    · rw [hxp, Function.update_self, hnp]
    · rw [Function.update_of_ne hxp]
      by_cases hxw : x = w
      · rw [hxw, Function.update_self, hnext]
      · rw [Function.update_of_ne hxw, Function.update_of_ne hxp]

/-- What relinking an element `w` between `p` and `b` leaves when `z` was the last one. -/
structure Relinked (prev next prev' next' : α → α) (a p w b z : α) : Prop where
  gap : next' p = b ∧ prev' b = p
  last : next' z = w ∧ prev' w = z
  closed : next' w = a ∧ prev' a = w
  next_eq : ∀ x, x ≠ p → x ≠ w → x ≠ z → next' x = next x
  prev_eq : ∀ x, x ≠ b → x ≠ w → x ≠ a → prev' x = prev x

theorem relinkBefore_middle (hw : prev w = p ∧ next w = b) (ha : prev a = z)
    (hab : a ≠ b) (haw : a ≠ w) (hbw : b ≠ w) (hpw : p ≠ w) (hpz : p ≠ z) (hzw : z ≠ w) :
    Relinked prev next (relinkBefore prev next a w).1 (relinkBefore prev next a w).2 a p w b z := by
  simp only [relinkBefore, hw.1, hw.2, ha, Function.update_of_ne hbw.symm,
    Function.update_of_ne hab, Function.update_of_ne haw.symm, Function.update_self]
  constructor
  case gap =>
    simp [hpz, hpw, hab.symm, hbw]
  case last =>
    simp [haw.symm]
  case closed =>
    simp [hzw.symm]
  case next_eq =>
    intro x hxp hxw hxz
    rw [Function.update_of_ne hxz, Function.update_of_ne hxw, Function.update_of_ne hxp]
  case prev_eq =>
    intro x hxb hxw hxa
    rw [Function.update_of_ne hxa, Function.update_of_ne hxw, Function.update_of_ne hxb]

/-- Relinking an element makes it the last one of the ring. -/
theorem Ring.relinkBefore (h : Ring prev next a (us ++ w :: vs)) :
    Ring (relinkBefore prev next a w).1 (relinkBefore prev next a w).2 a (us ++ vs ++ [w]) := by
  obtain ⟨p, qs, hqs⟩ : ∃ p qs, a :: us = qs ++ [p] :=
    ⟨_, _, (dropLast_append_getLast (cons_ne_nil a us)).symm⟩
  cases vs using List.reverseRecOn with
  | nil =>
    rw [relinkBefore_last h, append_nil]
    exact h
  | append_singleton ts z =>
    -- `b` is the element after `w`, and `z`, perhaps `b` itself, the last one
    obtain ⟨b, rs, hrs⟩ : ∃ b rs, ts ++ [z] = b :: rs := by
      cases ts with
      | nil => exact ⟨z, [], rfl⟩
      | cons t ts => exact ⟨t, ts ++ [z], rfl⟩
    have hnodup := h.nodup
    have hlinked := h.linked
    rw [← cons_append, hqs] at hnodup hlinked
    have hza : prev a = z := h.prev_head (by simp [getLast?_cons])
    -- the old ring without its links at `w` and the closing one
    have hsplit : Linked prev next (qs ++ [p]) ∧ (next p = w ∧ prev w = p) ∧
        (next w = b ∧ prev b = w) ∧ Linked prev next (ts ++ [z]) := by
      simp only [append_assoc, cons_append, nil_append, isChain_append_cons_cons] at hlinked
      obtain ⟨hleft, hpw, hright⟩ := hlinked
      have hw : Linked prev next (w :: (ts ++ [z]) ++ [a]) := by simpa using hright
      have hmid := hw.left_of_append
      rw [hrs] at hmid ⊢
      exact ⟨hleft, hpw, isChain_cons_cons.mp hmid⟩
    obtain ⟨hleft, hpw, hwb, hright⟩ := hsplit
    -- the elements named so far are distinct, and `a` is none of those after the first
    have ha : a ∉ us ++ w :: (ts ++ [z]) := (nodup_cons.mp h.nodup).1
    have haus : a ∉ us := fun hmem => ha (mem_append_left _ hmem)
    have hats : a ∉ ts ++ [z] := fun hmem => ha (mem_append_right _ (mem_cons_of_mem w hmem))
    obtain ⟨hqp, hwts, hdisj⟩ := nodup_append.mp hnodup
    obtain ⟨hwts, hts⟩ := nodup_cons.mp hwts
    have hp : p ∈ qs ++ [p] := by simp
    have hz : z ∈ ts ++ [z] := by simp
    have hb : b ∈ ts ++ [z] := by simp [hrs]
    have hrel := relinkBefore_middle ⟨hpw.2, hwb.1⟩ hza (ne_of_mem_of_not_mem hb hats).symm
      (fun heq => ha (by simp [heq])) (ne_of_mem_of_not_mem hb hwts) (hdisj p hp w (by simp))
      (hdisj p hp z (by simp)) (ne_of_mem_of_not_mem hz hwts)
    generalize (CircularList.relinkBefore prev next a w).1 = prev' at hrel ⊢
    generalize (CircularList.relinkBefore prev next a w).2 = next' at hrel ⊢
    have hleft' : Linked prev' next' (qs ++ [p]) := by
      refine hleft.congr (fun x hx => ?_) (fun y hy => ?_)
      · rw [dropLast_concat] at hx
        have hxqp : x ∈ qs ++ [p] := mem_append_left _ hx
        exact hrel.next_eq x ((nodup_append.mp hqp).2.2 x hx p (by simp))
          (hdisj x hxqp w (by simp)) (hdisj x hxqp z (by simp))
      · have hyqp : y ∈ qs ++ [p] := mem_of_mem_tail hy
        rw [← hqs, tail_cons] at hy
        exact hrel.prev_eq y (hdisj y hyqp b (mem_cons_of_mem w hb)) (hdisj y hyqp w (by simp))
          (ne_of_mem_of_not_mem hy haus)
    have hright' : Linked prev' next' (ts ++ [z]) := by
      refine hright.congr (fun x hx => ?_) (fun y hy => ?_)
      · rw [dropLast_concat] at hx
        have hxts : x ∈ ts ++ [z] := mem_append_left _ hx
        exact hrel.next_eq x (hdisj p hp x (mem_cons_of_mem w hxts)).symm
          (ne_of_mem_of_not_mem hxts hwts) ((nodup_append.mp hts).2.2 x hx z (by simp))
      · have hyts : y ∈ ts ++ [z] := mem_of_mem_tail hy
        rw [hrs] at hy hts
        exact hrel.prev_eq y (ne_of_mem_of_not_mem hy (nodup_cons.mp hts).1)
          (ne_of_mem_of_not_mem hyts hwts) (ne_of_mem_of_not_mem hyts hats)
    constructor
    · refine (Perm.nodup_iff ?_).mp h.nodup
      rw [append_assoc]
      exact ((@perm_append_comm _ [w] _).append_left us).cons a
    · have hlast : Linked prev' next' (ts ++ z :: [w, a]) :=
        isChain_append_cons_cons.mpr ⟨hright', hrel.last, isChain_pair.mpr hrel.closed⟩
      have hlast' : Linked prev' next' (b :: (rs ++ [w, a])) := by
        rw [← cons_append, ← hrs, append_assoc]
        exact hlast
      have hwhole : Linked prev' next' (qs ++ p :: b :: (rs ++ [w, a])) :=
        isChain_append_cons_cons.mpr ⟨hleft', hrel.gap, hlast'⟩
      rw [← cons_append, ← cons_append, hqs, hrs]
      simpa using hwhole

end CircularList

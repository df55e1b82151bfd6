import Mathlib.Logic.Function.Basic

/-!
# Displacing values through slots

A family of slots holds values, `0` in the empty ones. A value is put into a slot
and displaces what was there, which is then put into another slot, and so on. As
long as no value is in two places, counting the one in hand, this stays so
(`Distinct.put`), and the values around stay the same (`held_put`).

A slot whose value is also in hand, because the value was found there and is being
moved elsewhere, is accounted for by regarding it as empty: putting a value there
at the end closes the cycle (`Distinct.put_hole`, `held_put_hole`).
-/

namespace Pebil

universe u

variable {σ : Type u} [DecidableEq σ]

/-- No value but 0 is in two slots, or in a slot and in hand. -/
structure Distinct (f : σ → Nat) (hand : Nat) : Prop where
  slots : ∀ p q, f p ≠ 0 → f p = f q → p = q
  hand : hand ≠ 0 → ∀ p, f p ≠ hand

/-- The values around. -/
def Held (f : σ → Nat) (hand v : Nat) : Prop := (∃ p, f p = v) ∨ hand = v

variable {f : σ → Nat} {hand v : Nat} {p : σ}

/-- Putting the value in hand into a slot and taking what was there. -/
theorem Distinct.put (h : Distinct f hand) (p : σ) :
    Distinct (Function.update f p hand) (f p) := by
  have hother : ∀ q r, q ≠ p → r = p → f q = hand → hand ≠ 0 → False :=
    fun q _ _ _ hval hne => h.hand hne q hval
  constructor
  · intro q r hne heq
    by_cases hq : q = p
    · by_cases hr : r = p
      · rw [hq, hr]
      · rw [hq, Function.update_self] at hne heq
        rw [Function.update_of_ne hr] at heq
        exact (hother r q hr hq heq.symm hne).elim
    · by_cases hr : r = p
      · rw [Function.update_of_ne hq, hr, Function.update_self] at heq
        rw [Function.update_of_ne hq, heq] at hne
        exact (hother q r hq hr heq hne).elim
      · rw [Function.update_of_ne hq] at hne heq
        rw [Function.update_of_ne hr] at heq
        exact h.slots q r hne heq
  · intro hne q
    by_cases hq : q = p
    · rw [hq, Function.update_self]
      exact fun heq => h.hand (heq ▸ hne) p heq.symm
    · rw [Function.update_of_ne hq]
      exact fun heq => hq (h.slots q p (heq ▸ hne) heq)

theorem held_put (f : σ → Nat) (hand : Nat) (p : σ) (v : Nat) :
    Held (Function.update f p hand) (f p) v ↔ Held f hand v := by
  constructor
  · rintro (⟨q, hq⟩ | h)
    · by_cases hqp : q = p
      · rw [hqp, Function.update_self] at hq
        exact .inr hq
      · rw [Function.update_of_ne hqp] at hq
        exact .inl ⟨q, hq⟩
    · exact .inl ⟨p, h⟩
  · rintro (⟨q, hq⟩ | h)
    · by_cases hqp : q = p
      · rw [hqp] at hq
        exact .inr hq
      · exact .inl ⟨q, by rw [Function.update_of_ne hqp, hq]⟩
    · exact .inl ⟨p, by rw [Function.update_self, h]⟩

/-- Closing the cycle: the slot `p` counts as empty. -/
theorem Distinct.put_hole (h : Distinct (Function.update f p 0) hand) :
    Distinct (Function.update f p hand) 0 := by
  have := h.put p
  rwa [Function.update_idem, Function.update_self] at this

theorem held_put_hole (f : σ → Nat) (hand : Nat) (p : σ) (hv : v ≠ 0) :
    (∃ q, Function.update f p hand q = v) ↔ Held (Function.update f p 0) hand v := by
  have h := held_put (Function.update f p 0) hand p v
  rw [Function.update_idem, Function.update_self] at h
  rw [← h]
  constructor
  · exact .inl
  · rintro (hq | hzero)
    · exact hq
    · exact absurd hzero.symm hv

/-- Taking the value of a slot in hand leaves a hole. -/
theorem Distinct.hole (h : Distinct f 0) (p : σ) : Distinct (Function.update f p 0) (f p) :=
  h.put p

theorem held_hole (hv : v ≠ 0) : Held (Function.update f p 0) (f p) v ↔ ∃ q, f q = v := by
  rw [held_put]
  constructor
  · rintro (hq | hzero)
    · exact hq
    · exact absurd hzero.symm hv
  · exact .inl

omit [DecidableEq σ] in
/-- Dropping what is in hand. -/
theorem Distinct.drop (h : Distinct f hand) : Distinct f 0 :=
  ⟨h.slots, fun hne => absurd rfl hne⟩

omit [DecidableEq σ] in
/-- Taking a value from outside in hand. -/
theorem Distinct.take (h : Distinct f 0) (hnew : ∀ p, f p ≠ v) : Distinct f v :=
  ⟨h.slots, fun _ => hnew⟩

end Pebil

import Mathlib.Data.Sum.Basic

/-!
# Fuelled loops and their total-correctness rule

A `while` loop is modelled by a step function into `σ ⊕ ρ`: `inl` is the state
of the next round, `inr` the result with which the loop is left. `loop` runs it
for a bounded number of rounds and is `none` only when the bound was too small;
`Returns` says that some bound is enough and that every larger one gives the
same result, which is what "the loop terminates with result `r`" means.

`loop_total` is the rule every loop of the development is proved with: an
invariant, a natural-number variant that each round decreases, and the
postcondition on leaving.
-/

namespace Pebil

universe u v

variable {σ : Type u} {ρ : Type v}

/-- Run `step` for at most `fuel` rounds. -/
def loop (step : σ → σ ⊕ ρ) : Nat → σ → Option ρ
  | 0, _ => none
  | fuel + 1, s =>
    match step s with
    | .inl s' => loop step fuel s'
    | .inr r => some r

/-- The loop terminates with result `r`: enough fuel gives `r`, and so does more. -/
def Returns (step : σ → σ ⊕ ρ) (s : σ) (r : ρ) : Prop :=
  ∃ N, ∀ fuel, N ≤ fuel → loop step fuel s = some r

theorem loop_inl {step : σ → σ ⊕ ρ} {s s' : σ} (h : step s = .inl s') (fuel : Nat) :
    loop step (fuel + 1) s = loop step fuel s' := by
  simp [loop, h]

theorem loop_inr {step : σ → σ ⊕ ρ} {s : σ} {r : ρ} (h : step s = .inr r) (fuel : Nat) :
    loop step (fuel + 1) s = some r := by
  simp [loop, h]

/-- More fuel never changes a result. -/
theorem loop_mono {step : σ → σ ⊕ ρ} {n : Nat} {s : σ} {r : ρ}
    (h : loop step n s = some r) : ∀ {m}, n ≤ m → loop step m s = some r := by
  induction n generalizing s with
  | zero => exact absurd h (by simp [loop])
  | succ n ih =>
    intro m hm
    obtain ⟨m, rfl⟩ : ∃ m', m = m' + 1 := ⟨m - 1, by omega⟩
    cases hs : step s with
    | inl s' =>
      rw [loop_inl hs] at h ⊢
      exact ih h (by omega)
    | inr r' =>
      rw [loop_inr hs] at h ⊢
      exact h

/-- One fuel that gives a result is a proof of termination. -/
theorem returns_of_loop {step : σ → σ ⊕ ρ} {n : Nat} {s : σ} {r : ρ}
    (h : loop step n s = some r) : Returns step s r :=
  ⟨n, fun _ hm => loop_mono h hm⟩

/-- A round changes nothing about the result. -/
theorem returns_inl {step : σ → σ ⊕ ρ} {s s' : σ} {r : ρ} (h : step s = .inl s') :
    Returns step s r ↔ Returns step s' r := by
  constructor
  · rintro ⟨n, hn⟩
    exact ⟨n, fun fuel hfuel => loop_inl h fuel ▸ hn (fuel + 1) (by omega)⟩
  · rintro ⟨n, hn⟩
    exact returns_of_loop ((loop_inl h n).trans (hn n (Nat.le_refl n)))

/-- Loops are deterministic. -/
theorem Returns.unique {step : σ → σ ⊕ ρ} {s : σ} {r r' : ρ}
    (h : Returns step s r) (h' : Returns step s r') : r = r' := by
  obtain ⟨n, hn⟩ := h
  obtain ⟨m, hm⟩ := h'
  have h₁ := hn (max n m) (Nat.le_max_left n m)
  rw [hm (max n m) (Nat.le_max_right n m)] at h₁
  exact (Option.some.inj h₁).symm

/-- **Total correctness of a loop**: the invariant `I` holds at the start, each
round keeps it and decreases `μ`, and leaving the loop under `I` establishes
`Q`. Then `μ s + 1` rounds are enough and the result satisfies `Q`. -/
theorem loop_total {step : σ → σ ⊕ ρ} (I : σ → Prop) (μ : σ → Nat) (Q : ρ → Prop)
    (hstep : ∀ s, I s → (∃ s', step s = .inl s' ∧ I s' ∧ μ s' < μ s) ∨
      (∃ r, step s = .inr r ∧ Q r)) :
    ∀ {n s}, I s → μ s < n → ∃ r, loop step n s = some r ∧ Q r := by
  intro n
  induction n with
  | zero => intro s _ h; exact absurd h (Nat.not_lt_zero _)
  | succ n ih =>
    intro s hI hμ
    rcases hstep s hI with ⟨s', hs, hI', hlt⟩ | ⟨r, hs, hQ⟩
    · rw [loop_inl hs]
      exact ih hI' (by omega)
    · exact ⟨r, loop_inr hs n, hQ⟩

/-- Total correctness with any well-founded variant. -/
theorem returns_total {step : σ → σ ⊕ ρ} {r : σ → σ → Prop} (hr : WellFounded r) (I : σ → Prop)
    (Q : ρ → Prop)
    (hstep : ∀ s, I s → (∃ s', step s = .inl s' ∧ I s' ∧ r s' s) ∨
      (∃ x, step s = .inr x ∧ Q x)) (s : σ) (hI : I s) : ∃ x, Returns step s x ∧ Q x := by
  induction s using hr.induction with
  | _ s ih =>
    rcases hstep s hI with ⟨s', hs, hI', hlt⟩ | ⟨x, hs, hQ⟩
    · obtain ⟨x, hx, hQ⟩ := ih s' hlt hI'
      exact ⟨x, (returns_inl hs).mpr hx, hQ⟩
    · exact ⟨x, returns_of_loop (loop_inr hs 0), hQ⟩

/-- Partial correctness: whatever the fuel, a result obtained from a state with
the invariant satisfies the postcondition. -/
theorem loop_partial {step : σ → σ ⊕ ρ} (I : σ → Prop) (Q : ρ → Prop)
    (hinl : ∀ s s', I s → step s = .inl s' → I s')
    (hinr : ∀ s r, I s → step s = .inr r → Q r) :
    ∀ {n s r}, I s → loop step n s = some r → Q r := by
  intro n
  induction n with
  | zero => intro s r _ h; exact absurd h (by simp [loop])
  | succ n ih =>
    intro s r hI h
    cases hs : step s with
    | inl s' => exact ih (hinl s s' hI hs) (by rwa [loop_inl hs] at h)
    | inr r' =>
      rw [loop_inr hs] at h
      exact Option.some.inj h ▸ hinr s r' hI hs

end Pebil

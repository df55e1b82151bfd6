import Mathlib.Data.Set.Basic

/-!
# Code that saves and restores

Save code in front of a body and restore code after it form a bracket: whatever the
body does, provided it keeps the frame (the stack pointer and the stack above it),
the restore code leaves the frame below it intact and gives back the locations it is
meant to restore.

`Bracket` states this for one pair with the locations the save code touches, those
the body has to keep for the restore code to work, and those that are restored.
Brackets nest (`Bracket.nest`): the inner one's save code must not destroy what the
outer one needs, and what only the inner one restores must not have been touched by
the outer one before.
-/

namespace Pebil

universe u v w

/-- A state with locations, and what it means for a body to keep the frame of the
state it starts in; the number says how much of the stack counts. -/
structure SaveModel (σ : Type u) (κ : Type v) (V : κ → Type w) where
  get : σ → (k : κ) → V k
  Framed : Nat → σ → σ → Prop

variable {σ : Type u} {κ : Type v} {V : κ → Type w} {M : SaveModel σ κ V}

/-- The save code `pre` and the restore code `post`, which use `depth` of the stack. -/
structure Bracket (M : SaveModel σ κ V) (pre post : σ → σ) (depth : Nat)
    (touched needs restored : Set κ) : Prop where
  /-- The save code touches only what it says. -/
  get_pre : ∀ s k, k ∉ touched → M.get (pre s) k = M.get s k
  /-- A body that keeps the deeper frame leaves the outer one intact. -/
  framed : ∀ n s t, M.Framed (n + depth) (pre s) t → M.Framed n s (post t)
  /-- What is restored has the value from before the save code. -/
  get_restored : ∀ n s t, M.Framed (n + depth) (pre s) t →
    (∀ k ∈ needs, M.get t k = M.get (pre s) k) → ∀ k ∈ restored, M.get (post t) k = M.get s k
  /-- The rest is left as the body left it. -/
  get_other : ∀ n s t, M.Framed (n + depth) (pre s) t →
    ∀ k ∉ restored, M.get (post t) k = M.get t k

/-- No code at all restores what the frame determines. -/
theorem Bracket.nothing {fixed : Set κ}
    (h : ∀ n s t, M.Framed n s t → ∀ k ∈ fixed, M.get t k = M.get s k) :
    Bracket M id id 0 ∅ ∅ fixed where
  get_pre _ _ _ := rfl
  framed _ _ _ hf := hf
  get_restored n s t hf _ := h n s t hf
  get_other _ _ _ _ _ _ := rfl

/-- A bracket may be said to touch more, and what it needs and restores may be said in
another way. -/
theorem Bracket.congr {pre post : σ → σ} {d : Nat}
    {touched touched' needs needs' restored restored' : Set κ}
    (h : Bracket M pre post d touched needs restored) (htouched : touched ⊆ touched')
    (hneeds : needs ⊆ needs') (hrestored : restored = restored') :
    Bracket M pre post d touched' needs' restored' := by
  subst hrestored
  exact
    { get_pre := fun s k hk => h.get_pre s k fun hk' => hk (htouched hk')
      framed := h.framed
      get_restored := fun n s t hf hkept =>
        h.get_restored n s t hf fun k hk => hkept k (hneeds hk)
      get_other := h.get_other }

/-- One bracket inside another. -/
theorem Bracket.nest {pre₁ post₁ pre₂ post₂ : σ → σ} {d₁ d₂ : Nat}
    {touched₁ touched₂ needs₁ needs₂ restored₁ restored₂ : Set κ}
    (h₁ : Bracket M pre₁ post₁ d₁ touched₁ needs₁ restored₁)
    (h₂ : Bracket M pre₂ post₂ d₂ touched₂ needs₂ restored₂)
    (hrestored : ∀ k ∈ restored₂, k ∉ restored₁ → k ∉ touched₁)
    (hneeds : ∀ k ∈ needs₁, k ∉ restored₂ → k ∉ touched₂) :
    Bracket M (pre₂ ∘ pre₁) (post₁ ∘ post₂) (d₁ + d₂) (touched₁ ∪ touched₂)
      (needs₂ ∪ (needs₁ \ restored₂)) (restored₁ ∪ restored₂) where
  get_pre s k hk := by
    rw [Set.mem_union, not_or] at hk
    exact (h₂.get_pre _ k hk.2).trans (h₁.get_pre s k hk.1)
  framed n s t hf := by
    rw [← Nat.add_assoc] at hf
    exact h₁.framed n s _ (h₂.framed (n + d₁) _ t hf)
  get_restored n s t hf hkept k hk := by
    rw [← Nat.add_assoc] at hf
    have hinner := h₂.framed (n + d₁) _ t hf
    have hrestored₂ := h₂.get_restored (n + d₁) _ t hf fun k hk => hkept k (.inl hk)
    by_cases hk₁ : k ∈ restored₁
    · -- the outer restore code finds what it needs: restored by the inner one, or kept
      refine h₁.get_restored n s _ hinner (fun l hl => ?_) k hk₁
      by_cases hl₂ : l ∈ restored₂
      · exact hrestored₂ l hl₂
      · exact ((h₂.get_other _ _ t hf l hl₂).trans (hkept l (.inr ⟨hl, hl₂⟩))).trans
          (h₂.get_pre _ l (hneeds l hl hl₂))
    · have hk₂ := hk.resolve_left hk₁
      exact ((h₁.get_other n s _ hinner k hk₁).trans (hrestored₂ k hk₂)).trans
        (h₁.get_pre s k (hrestored k hk₂ hk₁))
  get_other n s t hf k hk := by
    rw [← Nat.add_assoc] at hf
    rw [Set.mem_union, not_or] at hk
    exact (h₁.get_other n s _ (h₂.framed (n + d₁) _ t hf) k hk.1).trans
      (h₂.get_other _ _ t hf k hk.2)

/-- Running a body inside a bracket: what the bracket restores or neither side touches
has its old value at the end. -/
theorem Bracket.run {pre post body : σ → σ} {depth n : Nat} {touched needs restored : Set κ}
    (h : Bracket M pre post depth touched needs restored) {s : σ}
    (hframe : M.Framed (n + depth) (pre s) (body (pre s)))
    (hneeds : ∀ k ∈ needs, M.get (body (pre s)) k = M.get (pre s) k) {k : κ}
    (hk : k ∈ restored ∨ k ∉ touched ∧ M.get (body (pre s)) k = M.get (pre s) k) :
    M.get (post (body (pre s))) k = M.get s k := by
  by_cases hr : k ∈ restored
  · exact h.get_restored n s _ hframe hneeds k hr
  · obtain ⟨htouched, hbody⟩ := hk.resolve_left hr
    exact ((h.get_other n s _ hframe k hr).trans hbody).trans (h.get_pre s k htouched)

end Pebil

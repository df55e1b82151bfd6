import Mathlib.Data.List.Chain

/-!
# Liveness on a graph

Backward "may" liveness over any graph `succ` of points and any set of
resources: `LiveIn` is the least solution of
`in[n] = use[n] ∪ (out[n] - def[n])`, `out[n] = ⋃ in[succ n]`, and it is the
path property: a resource is live into `n` when some path from `n` reaches a use
with no definition strictly before it (`liveIn_iff_path`).

Three rules serve an iterative analysis: every set closed under the equations
contains `LiveIn` (`liveIn_le`), a simulation of one graph by another carries the
solution over (`LiveIn.simulate`), and so does an embedding of one graph into
another that reaches every successor (`liveIn_map`).
-/

namespace Pebil

universe u v w

section Liveness

variable {α : Type u} {ρ : Type v} (succ : α → α → Prop) (use defn : α → ρ → Prop)

/-- Resource `r` is live into point `i`. -/
inductive LiveIn : α → ρ → Prop where
  | use {i r} : use i r → LiveIn i r
  | step {i j r} : ¬ defn i r → succ i j → LiveIn j r → LiveIn i r

/-- Resource `r` is live out of point `i`. -/
def LiveOut (i : α) (r : ρ) : Prop :=
  ∃ j, succ i j ∧ LiveIn succ use defn j r

/-- Some path starts at `i`, ends at a point that uses `r`, and no point strictly
before the end defines `r`. -/
def LivePath (i : α) (r : ρ) : Prop :=
  ∃ (path : List α) (last : α), (i :: path).IsChain succ ∧
    (i :: path).getLast? = some last ∧ use last r ∧
    ∀ j ∈ (i :: path).dropLast, ¬ defn j r

variable {succ use defn}

theorem LivePath.of_use {i : α} {r : ρ} (h : use i r) : LivePath succ use defn i r :=
  ⟨[], i, by simp, by simp, h, by simp⟩

theorem LivePath.cons {i j : α} {r : ρ} (hdef : ¬ defn i r) (hs : succ i j)
    (h : LivePath succ use defn j r) : LivePath succ use defn i r := by
  obtain ⟨path, last, hchain, hlast, huse, hpre⟩ := h
  refine ⟨j :: path, last, ?_, ?_, huse, ?_⟩
  · exact List.isChain_cons_cons.mpr ⟨hs, hchain⟩
  · rw [List.getLast?_cons_cons]
    exact hlast
  · intro k hk
    rw [List.dropLast_cons_of_ne_nil (List.cons_ne_nil j path)] at hk
    rcases List.mem_cons.mp hk with rfl | hk
    · exact hdef
    · exact hpre k hk

/-- The least solution is the path property. -/
theorem liveIn_iff_path {i : α} {r : ρ} :
    LiveIn succ use defn i r ↔ LivePath succ use defn i r := by
  constructor
  · intro h
    induction h with
    | use hu => exact .of_use hu
    | step hd hs _ ih => exact .cons hd hs ih
  · rintro ⟨path, last, hchain, hlast, huse, hpre⟩
    induction path generalizing i with
    | nil =>
      obtain rfl : i = last := by simpa using hlast
      exact .use huse
    | cons j path ih =>
      obtain ⟨hs, hchain⟩ := List.isChain_cons_cons.mp hchain
      rw [List.getLast?_cons_cons] at hlast
      rw [List.dropLast_cons_of_ne_nil (List.cons_ne_nil j path)] at hpre
      refine .step (hpre i List.mem_cons_self) hs ?_
      exact ih hchain hlast fun k hk => hpre k (List.mem_cons_of_mem i hk)

/-- `LiveIn` solves the equations. -/
theorem liveIn_iff {i : α} {r : ρ} :
    LiveIn succ use defn i r ↔
      use i r ∨ (LiveOut succ use defn i r ∧ ¬ defn i r) := by
  constructor
  · intro h
    cases h with
    | use hu => exact .inl hu
    | step hd hs h => exact .inr ⟨⟨_, hs, h⟩, hd⟩
  · rintro (hu | ⟨⟨j, hs, h⟩, hd⟩)
    · exact .use hu
    · exact .step hd hs h

/-- Every family that is closed under the equations contains `LiveIn`. -/
theorem liveIn_le {S : α → ρ → Prop} (huse : ∀ i r, use i r → S i r)
    (hstep : ∀ i j r, ¬ defn i r → succ i j → S j r → S i r) {i : α} {r : ρ}
    (h : LiveIn succ use defn i r) : S i r := by
  induction h with
  | use hu => exact huse _ _ hu
  | step hd hs _ ih => exact hstep _ _ _ hd hs ih

end Liveness

section Map

variable {α : Type u} {β : Type w} {ρ : Type v}
  {succ : α → α → Prop} {use defn : α → ρ → Prop}
  {succ' : β → β → Prop} {use' defn' : β → ρ → Prop}

/-- A simulation that carries uses over, and definitions back, carries liveness over. -/
theorem LiveIn.simulate {S : α → β → Prop}
    (huse : ∀ i i', S i i' → ∀ r, use i r → use' i' r)
    (hdef : ∀ i i', S i i' → ∀ r, defn' i' r → defn i r)
    (hsucc : ∀ i i' j, S i i' → succ i j → ∃ j', succ' i' j' ∧ S j j')
    {i : α} {i' : β} {r : ρ} (hsim : S i i') (h : LiveIn succ use defn i r) :
    LiveIn succ' use' defn' i' r := by
  induction h generalizing i' with
  | use hu => exact .use (huse _ _ hsim _ hu)
  | step hd hs _ ih =>
    obtain ⟨j', hs', hsim'⟩ := hsucc _ _ _ hsim hs
    exact .step (fun h => hd (hdef _ _ hsim _ h)) hs' (ih hsim')

/-- An embedding `f` of the valid points that keeps uses and definitions, and
under which the successors of `f i` are the images of the successors of `i`,
keeps liveness. -/
theorem liveIn_map (f : α → β) (valid : α → Prop)
    (hsucc : ∀ i, valid i → ∀ j', succ' (f i) j' ↔ ∃ j, succ i j ∧ f j = j')
    (hvalid : ∀ i j, valid i → succ i j → valid j)
    (huse : ∀ i, valid i → ∀ r, use' (f i) r ↔ use i r)
    (hdef : ∀ i, valid i → ∀ r, defn' (f i) r ↔ defn i r)
    {i : α} (hi : valid i) {r : ρ} :
    LiveIn succ' use' defn' (f i) r ↔ LiveIn succ use defn i r := by
  constructor
  · refine LiveIn.simulate (S := fun i' i => valid i ∧ f i = i') ?_ ?_ ?_ ⟨hi, rfl⟩
    · rintro _ i ⟨hi, rfl⟩ r
      exact (huse i hi r).mp
    · rintro _ i ⟨hi, rfl⟩ r
      exact (hdef i hi r).mpr
    · rintro _ i j' ⟨hi, rfl⟩ hs
      obtain ⟨j, hj, hfj⟩ := (hsucc i hi j').mp hs
      exact ⟨j, hj, hvalid i j hi hj, hfj⟩
  · refine LiveIn.simulate (S := fun i i' => valid i ∧ f i = i') ?_ ?_ ?_ ⟨hi, rfl⟩
    · rintro i _ ⟨hi, rfl⟩ r
      exact (huse i hi r).mpr
    · rintro i _ ⟨hi, rfl⟩ r
      exact (hdef i hi r).mp
    · rintro i _ j ⟨hi, rfl⟩ hs
      exact ⟨f j, (hsucc i hi _).mpr ⟨j, hs, rfl⟩, hvalid i j hi hs, rfl⟩

theorem liveOut_map (f : α → β) (valid : α → Prop)
    (hsucc : ∀ i, valid i → ∀ j', succ' (f i) j' ↔ ∃ j, succ i j ∧ f j = j')
    (hvalid : ∀ i j, valid i → succ i j → valid j)
    (huse : ∀ i, valid i → ∀ r, use' (f i) r ↔ use i r)
    (hdef : ∀ i, valid i → ∀ r, defn' (f i) r ↔ defn i r)
    {i : α} (hi : valid i) {r : ρ} :
    LiveOut succ' use' defn' (f i) r ↔ LiveOut succ use defn i r := by
  constructor
  · rintro ⟨j', hs, h⟩
    obtain ⟨j, hj, rfl⟩ := (hsucc i hi j').mp hs
    exact ⟨j, hj, (liveIn_map f valid hsucc hvalid huse hdef (hvalid i j hi hj)).mp h⟩
  · rintro ⟨j, hs, h⟩
    refine ⟨f j, (hsucc i hi (f j)).mpr ⟨j, hs, rfl⟩, ?_⟩
    exact (liveIn_map f valid hsucc hvalid huse hdef (hvalid i j hi hs)).mpr h

end Map

end Pebil

import Mathlib.Data.List.Forall2

/-!
# Rounds over a list

A loop whose every round goes over the whole list and changes each element on its own can as
well treat the elements one after the other, each with all rounds. Both come to nothing if one
change fails. The lemmas on `mapM` say what its result consists of.
-/

namespace Pebil

universe u v

variable {α : Type u} {β : Type v}

theorem mapM_eq_some_iff {γ : Type v} {f : α → Option γ} {l : List α} {l' : List γ} :
    l.mapM f = some l' ↔ List.Forall₂ (fun a b => f a = some b) l l' := by
  induction l generalizing l' with
  | nil => simp [eq_comm]
  | cons a l ih =>
    rw [List.mapM_cons, List.forall₂_cons_left_iff]
    simp only [Option.bind_eq_bind, Option.pure_def, Option.bind_eq_some_iff, Option.some.injEq]
    constructor
    · rintro ⟨b, hb, m, hm, rfl⟩
      exact ⟨b, m, hb, ih.mp hm, rfl⟩
    · rintro ⟨b, m, hb, hm, rfl⟩
      exact ⟨b, hb, m, ih.mpr hm, rfl⟩

theorem mem_mapM_iff {γ : Type v} {f : α → Option γ} {l : List α} {l' : List γ}
    (h : l.mapM f = some l') {b : γ} : b ∈ l' ↔ ∃ a ∈ l, f a = some b := by
  induction mapM_eq_some_iff.mp h with
  | nil => simp
  | cons hab hrest ih =>
    have ih := ih (mapM_eq_some_iff.mpr hrest)
    simp [hab, ih, eq_comm]

theorem exists_of_mem_mapM {γ : Type v} {f : α → Option γ} {l : List α} {l' : List γ}
    (h : l.mapM f = some l') {a : α} (ha : a ∈ l) : ∃ b ∈ l', f a = some b := by
  induction mapM_eq_some_iff.mp h with
  | nil => cases ha
  | @cons a' b l l' hab hrest ih =>
    rcases List.mem_cons.mp ha with rfl | ha
    · exact ⟨b, List.mem_cons_self, hab⟩
    · obtain ⟨b', hb', hab'⟩ := ih (mapM_eq_some_iff.mpr hrest) ha
      exact ⟨b', List.mem_cons_of_mem b hb', hab'⟩

theorem mapM_eq_some_map {γ : Type v} {f : α → Option γ} {g : α → γ} {l : List α}
    (h : ∀ a ∈ l, f a = some (g a)) : l.mapM f = some (l.map g) := by
  rw [mapM_eq_some_iff, List.forall₂_map_right_iff, List.forall₂_same]
  exact h

/-- An element of the result is that of the element at the same position. -/
theorem exists_getElem?_of_mapM {γ : Type v} {f : α → Option γ} {l : List α} {l' : List γ}
    (h : l.mapM f = some l') {i : Nat} {b : γ} (hb : l'[i]? = some b) :
    ∃ a, l[i]? = some a ∧ f a = some b := by
  obtain ⟨hlt, rfl⟩ := List.getElem?_eq_some_iff.mp hb
  have hall := mapM_eq_some_iff.mp h
  have hlt' : i < l.length := hall.length_eq ▸ hlt
  exact ⟨l[i], List.getElem?_eq_getElem hlt', List.Forall₂.get hall hlt' hlt⟩

theorem exists_mapM {γ : Type v} {f : α → Option γ} {l : List α}
    (h : ∀ a ∈ l, ∃ b, f a = some b) : ∃ l', l.mapM f = some l' := by
  induction l with
  | nil => exact ⟨[], rfl⟩
  | cons a l ih =>
    obtain ⟨b, hb⟩ := h a (List.mem_cons_self ..)
    obtain ⟨m, hm⟩ := ih fun x hx => h x (List.mem_cons_of_mem _ hx)
    exact ⟨b :: m, by simp [List.mapM_cons, hb, hm]⟩

theorem mapM_bind_mapM (f g : α → Option α) (l : List α) :
    ((l.mapM f).bind fun l => l.mapM g) = l.mapM fun a => (f a).bind g := by
  induction l with
  | nil => rfl
  | cons a l ih =>
    simp only [List.mapM_cons, Option.bind_eq_bind, Option.pure_def] at ih ⊢
    rw [← ih]
    cases f a with
    | none => rfl
    | some b =>
      cases l.mapM f with
      | none => cases hg : g b <;> simp [hg]
      | some l' => simp

theorem mapM_some (l : List α) : l.mapM (some : α → Option α) = some l := by
  induction l with
  | nil => rfl
  | cons a l ih => simp [List.mapM_cons, ih]

/-- The rounds of one element. -/
def roundsOf (f : β → α → Option α) (xs : List β) (a : α) : Option α :=
  xs.foldlM (fun a x => f x a) a

/-- **Round by round is element by element.** -/
theorem foldlM_mapM (f : β → α → Option α) (xs : List β) (l : List α) :
    xs.foldlM (fun l x => l.mapM (f x)) l = l.mapM (roundsOf f xs) := by
  induction xs generalizing l with
  | nil => exact (mapM_some l).symm
  | cons x xs ih =>
    rw [List.foldlM_cons]
    calc (l.mapM (f x)).bind (fun l => xs.foldlM (fun l x => l.mapM (f x)) l)
      _ = (l.mapM (f x)).bind (fun l => l.mapM (roundsOf f xs)) := by simp only [ih]
      _ = l.mapM (roundsOf f (x :: xs)) := mapM_bind_mapM ..

end Pebil

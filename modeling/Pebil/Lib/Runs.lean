import Mathlib.Data.List.SplitBy
import Mathlib.Order.Defs.LinearOrder
import Mathlib.Order.Lattice

/-!
# Runs of equal keys

A list that is sorted by a key is split into its runs, the stretches of equal key. The keys
of the runs increase, so that a run is everything in the list with its key.
-/

namespace Pebil

namespace Runs

variable {α κ : Type*} [LinearOrder κ] {key : α → κ} {l g : List α} {a b : α}

/-- The runs of a list. -/
def runs (key : α → κ) (l : List α) : List (List α) :=
  l.splitBy fun a b => decide (key a = key b)

variable (key l) in
theorem flatten_runs : (runs key l).flatten = l := List.flatten_splitBy _ _

theorem key_eq_of_mem (hg : g ∈ runs key l) (ha : a ∈ g) (hb : b ∈ g) : key a = key b := by
  have hchain := List.isChain_of_mem_splitBy hg
  have hpairwise : g.Pairwise fun a b => key a = key b := by
    have htrans : Trans (fun a b : α => key a = key b) (fun a b => key a = key b)
      (fun a b => key a = key b) := ⟨fun h h' => h.trans h'⟩
    exact (hchain.imp fun a b h => of_decide_eq_true h).pairwise
  have hflip : g.Pairwise (flip fun a b => key a = key b) := hpairwise.imp fun h => h.symm
  exact List.Pairwise.forall_of_forall_of_flip (R := fun a b => key a = key b) (fun _ _ => rfl)
    hpairwise hflip ha hb

/-- Neighbours with different keys make the keys of all runs increase. -/
theorem pairwise_of_isChain {gs : List (List α)} (hkey : ∀ g ∈ gs, ∀ a ∈ g, ∀ b ∈ g, key a = key b)
    (hle : gs.Pairwise fun g h => ∀ a ∈ g, ∀ b ∈ h, key a ≤ key b)
    (hne : gs.IsChain fun g h => ∃ hg hh, decide (key (g.getLast hg) = key (h.head hh)) = false) :
    gs.Pairwise fun g h => ∀ a ∈ g, ∀ b ∈ h, key a < key b := by
  induction gs with
  | nil => exact .nil
  | cons g gs ih =>
    obtain ⟨hkeyg, hkey⟩ := List.forall_mem_cons.mp hkey
    obtain ⟨hleg, hle⟩ := List.pairwise_cons.mp hle
    refine List.pairwise_cons.mpr ⟨?_, ih hkey hle hne.tail⟩
    cases gs with
    | nil => simp
    | cons next gs =>
      obtain ⟨⟨hg, hh, hlast⟩, -⟩ := List.isChain_cons_cons.mp hne
      obtain ⟨hkeyn, -⟩ := List.forall_mem_cons.mp hkey
      obtain ⟨hnext, -⟩ := List.pairwise_cons.mp hle
      have hfirst : ∀ a ∈ g, key a < key (next.head hh) := by
        intro a ha
        rw [hkeyg a ha _ (List.getLast_mem hg)]
        exact lt_of_le_of_ne (hleg next List.mem_cons_self _ (List.getLast_mem hg) _
          (List.head_mem hh)) (of_decide_eq_false hlast)
      intro h hmem a ha b hb
      rcases List.mem_cons.mp hmem with rfl | hmem
      · rw [hkeyn b hb _ (List.head_mem hh)]
        exact hfirst a ha
      · exact lt_of_lt_of_le (hfirst a ha) (hnext h hmem _ (List.head_mem hh) b hb)

/-- The keys of the runs of a sorted list increase. -/
theorem pairwise_runs (hl : l.Pairwise fun a b => key a ≤ key b) :
    (runs key l).Pairwise fun g h => ∀ a ∈ g, ∀ b ∈ h, key a < key b := by
  rw [← flatten_runs key l] at hl
  exact pairwise_of_isChain (fun g hg a ha b hb => key_eq_of_mem hg ha hb)
    (List.pairwise_flatten.mp hl).2
    (List.isChain_getLast_head_splitBy (fun a b => decide (key a = key b)) l)

/-- A run of a sorted list is what has its key. -/
theorem eq_filter_of_mem (hl : l.Pairwise fun a b => key a ≤ key b) (hg : g ∈ runs key l)
    (ha : a ∈ g) : g = l.filter fun b => decide (key b = key a) := by
  obtain ⟨front, back, hruns⟩ := List.append_of_mem hg
  have hlt := pairwise_runs hl
  rw [hruns] at hlt
  obtain ⟨-, hback, hfront⟩ := List.pairwise_append.mp hlt
  obtain ⟨hback, -⟩ := List.pairwise_cons.mp hback
  have hflat : l = front.flatten ++ (g ++ back.flatten) := by
    rw [← flatten_runs key l, hruns, List.flatten_append, List.flatten_cons]
  have hnone : ∀ b ∈ front.flatten, ¬ decide (key b = key a) = true := by
    intro b hb heq
    obtain ⟨h, hh, hb⟩ := List.mem_flatten.mp hb
    exact (hfront h hh g List.mem_cons_self b hb a ha).ne (of_decide_eq_true heq)
  have hnone' : ∀ b ∈ back.flatten, ¬ decide (key b = key a) = true := by
    intro b hb heq
    obtain ⟨h, hh, hb⟩ := List.mem_flatten.mp hb
    exact (hback h hh a ha b hb).ne' (of_decide_eq_true heq)
  have hall : ∀ b ∈ g, decide (key b = key a) = true := fun b hb =>
    decide_eq_true (key_eq_of_mem hg hb ha)
  rw [hflat, List.filter_append, List.filter_append, List.filter_eq_nil_iff.mpr hnone,
    List.filter_eq_nil_iff.mpr hnone', List.filter_eq_self.mpr hall, List.nil_append,
    List.append_nil]

/-- In a sorted list, what satisfies one of two predicates is what satisfies the first and then
what satisfies the second, if the order is that of the predicates. -/
theorem filter_or_of_pairwise {R : α → α → Prop} {p q : α → Bool} (hl : l.Pairwise R)
    (h : ∀ a b, R a b → q a = true → p b = false) (hdisjoint : ∀ a, q a = true → p a = false) :
    (l.filter fun a => p a || q a) = l.filter p ++ l.filter q := by
  induction l with
  | nil => rfl
  | cons a l ih =>
    obtain ⟨ha, hl⟩ := List.pairwise_cons.mp hl
    have ih := ih hl
    cases hq : q a with
    | true =>
      -- nothing behind satisfies the first
      have hnone : l.filter p = [] := List.filter_eq_nil_iff.mpr fun b hb => by
        simp [h a b (ha b hb) hq]
      rw [hnone, List.nil_append] at ih
      simp [hq, hdisjoint a hq, hnone, ih]
    | false =>
      cases hp : p a with
      | true => simp [hq, hp, ih]
      | false => simp [hq, hp, ih]

theorem ne_nil_of_mem (hg : g ∈ runs key l) : g ≠ [] := List.ne_nil_of_mem_splitBy hg

end Runs

end Pebil

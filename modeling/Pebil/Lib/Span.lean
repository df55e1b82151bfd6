import Mathlib.Order.BoundedOrder.Basic
import Mathlib.Order.Bounds.Basic
import Mathlib.Order.MinMax

/-!
# The least and the greatest of some values

`Span.ofList` keeps the least and the greatest value it has seen. Of no values the least is `⊤`
and the greatest is `⊥`, which leaves every other span as it is.
-/

namespace Pebil

/-- A least and a greatest value. -/
structure Span (α : Type*) where
  least : α
  greatest : α
  deriving DecidableEq

namespace Span

variable {α : Type*} [LinearOrder α]

/-- The span with one more value. -/
def insert (s : Span α) (a : α) : Span α := ⟨min s.least a, max s.greatest a⟩

/-- Two spans are equal if they have the same bounds. -/
theorem ext_bounds {s t : Span α} (hleast : ∀ a, a ≤ s.least ↔ a ≤ t.least)
    (hgreatest : ∀ a, s.greatest ≤ a ↔ t.greatest ≤ a) : s = t := by
  cases s
  cases t
  congr
  · exact eq_of_forall_le_iff hleast
  · exact eq_of_forall_ge_iff hgreatest

variable {β : Type*} {l : List α} {a : α}

theorem le_least_foldl {f : β → α} {s : Span α} {l : List β} :
    a ≤ (l.foldl (fun s x => s.insert (f x)) s).least ↔ a ≤ s.least ∧ ∀ x ∈ l, a ≤ f x := by
  induction l generalizing s with
  | nil => simp
  | cons x l ih => rw [List.foldl_cons, ih, insert, le_min_iff, List.forall_mem_cons, and_assoc]

theorem greatest_foldl_le {f : β → α} {s : Span α} {l : List β} :
    (l.foldl (fun s x => s.insert (f x)) s).greatest ≤ a ↔ s.greatest ≤ a ∧ ∀ x ∈ l, f x ≤ a := by
  induction l generalizing s with
  | nil => simp
  | cons x l ih => rw [List.foldl_cons, ih, insert, max_le_iff, List.forall_mem_cons, and_assoc]

theorem least_foldl_mem (s : Span α) (l : List α) :
    (l.foldl insert s).least = s.least ∨ (l.foldl insert s).least ∈ l := by
  induction l generalizing s with
  | nil => exact .inl rfl
  | cons x l ih =>
    rw [List.foldl_cons, List.mem_cons]
    rcases ih (s.insert x) with h | h
    · rcases min_choice s.least x with hmin | hmin
      · exact .inl (h.trans hmin)
      · exact .inr (.inl (h.trans hmin))
    · exact .inr (.inr h)

theorem greatest_foldl_mem (s : Span α) (l : List α) :
    (l.foldl insert s).greatest = s.greatest ∨ (l.foldl insert s).greatest ∈ l := by
  induction l generalizing s with
  | nil => exact .inl rfl
  | cons x l ih =>
    rw [List.foldl_cons, List.mem_cons]
    rcases ih (s.insert x) with h | h
    · rcases max_choice s.greatest x with hmax | hmax
      · exact .inl (h.trans hmax)
      · exact .inr (.inl (h.trans hmax))
    · exact .inr (.inr h)

variable [BoundedOrder α]

/-- The span of no values. -/
def empty : Span α := ⟨⊤, ⊥⟩

/-- The span of some values. -/
def ofList (l : List α) : Span α := l.foldl insert empty

theorem le_least_iff : a ≤ (ofList l).least ↔ ∀ x ∈ l, a ≤ x := by
  have h := @le_least_foldl α _ α a id empty l
  rwa [show a ≤ (empty : Span α).least ↔ True from iff_true_intro le_top, true_and] at h

theorem greatest_le_iff : (ofList l).greatest ≤ a ↔ ∀ x ∈ l, x ≤ a := by
  have h := @greatest_foldl_le α _ α a id empty l
  rwa [show (empty : Span α).greatest ≤ a ↔ True from iff_true_intro bot_le, true_and] at h

/-- The least and the greatest value, as the order has them. -/
theorem isLeast (h : l ≠ []) : IsLeast {x | x ∈ l} (ofList l).least := by
  refine ⟨?_, fun x hx => le_least_iff.mp (le_refl _) x hx⟩
  rcases least_foldl_mem empty l with htop | hmem
  · -- nothing is below `⊤`, so every value is `⊤`
    obtain ⟨x, hx⟩ := List.exists_mem_of_ne_nil l h
    have hle : (ofList l).least ≤ x := le_least_iff.mp (le_refl _) x hx
    rw [ofList, htop] at hle ⊢
    rwa [top_le_iff.mp hle] at hx
  · exact hmem

theorem isGreatest (h : l ≠ []) : IsGreatest {x | x ∈ l} (ofList l).greatest := by
  refine ⟨?_, fun x hx => greatest_le_iff.mp (le_refl _) x hx⟩
  rcases greatest_foldl_mem empty l with hbot | hmem
  · obtain ⟨x, hx⟩ := List.exists_mem_of_ne_nil l h
    have hle : x ≤ (ofList l).greatest := greatest_le_iff.mp (le_refl _) x hx
    rw [ofList, hbot] at hle ⊢
    rwa [le_bot_iff.mp hle] at hx
  · exact hmem

end Span

end Pebil

import Mathlib.Data.Finset.Card
import Mathlib.Data.List.Nodup

/-!
# The order of last use

A history is a list with the newest element first. `recency` has each element of it once, at its
last use, and `reuseDistance` counts the different elements from the last use of an element on. A
window that is only told what is used, one element after the other, and drops the least recently
used element when it is full, is the first part of `recency`: so what it has an element at is its
reuse distance, for every limit.
-/

namespace Recency

open List

variable {α : Type} [DecidableEq α] {a b : α} {hist w : List α} {limit : Option Nat}

/-- The elements of a history, the last one used first. -/
def recency : List α → List α
  | [] => []
  | a :: hist => a :: (recency hist).filter (· ≠ a)

@[simp] theorem mem_recency : a ∈ recency hist ↔ a ∈ hist := by
  induction hist with
  | nil => exact Iff.rfl
  | cons b hist ih =>
    rw [recency, mem_cons, mem_cons, mem_filter, ih, decide_eq_true_eq]
    by_cases hab : a = b
    · simp [hab]
    · simp [hab]

theorem nodup_recency (hist : List α) : (recency hist).Nodup := by
  induction hist with
  | nil => exact nodup_nil
  | cons a hist ih =>
    refine nodup_cons.mpr ⟨fun h => ?_, ih.filter _⟩
    exact absurd rfl (of_decide_eq_true (mem_filter.mp h).2)

/-- How many different elements have been used since the last use of an element, with itself. -/
def reuseDistance (hist : List α) (a : α) : Nat := (hist.takeWhile (· ≠ a)).toFinset.card + 1

/-- What is used after the last use of `a` stands before `a`. -/
theorem takeWhile_recency (hist : List α) (a : α) :
    (recency hist).takeWhile (· ≠ a) = recency (hist.takeWhile (· ≠ a)) := by
  induction hist with
  | nil => rfl
  | cons b hist ih =>
    by_cases hba : b = a
    · rw [recency, takeWhile_cons_of_neg (by simpa using hba),
        takeWhile_cons_of_neg (by simpa using hba)]
      rfl
    · -- filtering `b` out does not change where `a` is
      have hfilter : ∀ l : List α, (l.filter (· ≠ b)).takeWhile (· ≠ a) =
          (l.takeWhile (· ≠ a)).filter (· ≠ b) := by
        intro l
        induction l with
        | nil => rfl
        | cons c l ihl =>
          by_cases hcb : c = b
          · subst hcb
            rw [filter_cons_of_neg (by simp), takeWhile_cons_of_pos (by simpa using hba),
              filter_cons_of_neg (by simp), ihl]
          · rw [filter_cons_of_pos (by simpa using hcb)]
            by_cases hca : c = a
            · rw [takeWhile_cons_of_neg (by simpa using hca),
                takeWhile_cons_of_neg (by simpa using hca)]
              rfl
            · rw [takeWhile_cons_of_pos (by simpa using hca),
                takeWhile_cons_of_pos (by simpa using hca), filter_cons_of_pos (by simpa using hcb),
                ihl]
      rw [recency, takeWhile_cons_of_pos (by simpa using hba), hfilter, ih,
        takeWhile_cons_of_pos (by simpa using hba), recency]

theorem idxOf_eq_length_takeWhile (a : α) (l : List α) :
    l.idxOf a = (l.takeWhile (· ≠ a)).length := by
  induction l with
  | nil => rfl
  | cons b l ih =>
    by_cases hba : b = a
    · rw [takeWhile_cons_of_neg (by simpa using hba), hba, idxOf_cons_self]
      rfl
    · rw [takeWhile_cons_of_pos (by simpa using hba), idxOf_cons_ne l hba, ih, length_cons]

/-- The place of an element in the order of last use is its reuse distance. -/
theorem idxOf_recency (hist : List α) (a : α) :
    (recency hist).idxOf a + 1 = reuseDistance hist a := by
  have hset : (hist.takeWhile (· ≠ a)).toFinset = (recency (hist.takeWhile (· ≠ a))).toFinset := by
    ext b
    rw [mem_toFinset, mem_toFinset, mem_recency]
  rw [idxOf_eq_length_takeWhile, takeWhile_recency, reuseDistance, hset,
    toFinset_card_of_nodup (nodup_recency _)]

/-- As much of a list as the limit lets through. -/
def keep : Option Nat → List α → List α
  | none, l => l
  | some n, l => l.take n

omit [DecidableEq α] in
theorem isPrefix_keep (limit : Option Nat) (l : List α) : keep limit l <+: l := by
  cases limit with
  | none => exact prefix_rfl
  | some n => exact take_prefix n l

/-- A window after an element is used: the element comes to the front, and where it was not in the
window and the window is full, the last element goes. -/
def use (limit : Option Nat) (a : α) (w : List α) : List α :=
  if a ∈ w then a :: w.filter (· ≠ a)
  else if limit = some w.length then a :: w.dropLast
  else a :: w

theorem filter_take {l : List α} {n : Nat} (ha : a ∈ l.take (n + 1)) (hnodup : l.Nodup) :
    (l.take (n + 1)).filter (· ≠ a) = (l.filter (· ≠ a)).take n := by
  induction l generalizing n with
  | nil => exact absurd ha not_mem_nil
  | cons b l ih =>
    obtain ⟨hb, hnodup⟩ := nodup_cons.mp hnodup
    by_cases hba : b = a
    · subst hba
      have hself : ∀ m, (l.take m).filter (· ≠ b) = l.take m := fun m => by
        refine filter_eq_self.mpr fun c hc => ?_
        have hne : c ≠ b := fun h => hb (h ▸ mem_of_mem_take hc)
        exact decide_eq_true hne
      have hall : l.filter (· ≠ b) = l := by
        have hlen := hself l.length
        rwa [take_length] at hlen
      rw [take_succ_cons, filter_cons_of_neg (by simp), filter_cons_of_neg (by simp), hself, hall]
    · cases n with
      | zero =>
        have hab : a = b := by simpa using ha
        exact absurd hab.symm hba
      | succ n =>
        have ha' : a ∈ l.take (n + 1) := by
          rw [take_succ_cons] at ha
          exact (mem_cons.mp ha).resolve_left (Ne.symm hba)
        rw [take_succ_cons, filter_cons_of_pos (by simpa using hba),
          filter_cons_of_pos (by simpa using hba), take_succ_cons, ih ha' hnodup]

theorem take_filter {l : List α} {n : Nat} (ha : a ∉ l.take n) :
    (l.filter (· ≠ a)).take n = l.take n := by
  have hself : (l.take n).filter (· ≠ a) = l.take n := by
    refine filter_eq_self.mpr fun c hc => ?_
    have hne : c ≠ a := fun h => ha (h ▸ hc)
    exact decide_eq_true hne
  by_cases hn : n ≤ l.length
  · calc (l.filter (· ≠ a)).take n
        = ((l.take n).filter (· ≠ a) ++ (l.drop n).filter (· ≠ a)).take n := by
          rw [← filter_append, take_append_drop]
      _ = l.take n := by rw [hself, take_left' (length_take_of_le hn)]
  · rw [take_of_length_le (Nat.le_of_not_le hn)] at hself
    rw [hself]

/-- The window is the first part of the order of last use, for every limit. -/
theorem use_keep (hlimit : limit ≠ some 0) (a : α) (hist : List α) :
    use limit a (keep limit (recency hist)) = keep limit (recency (a :: hist)) := by
  rw [use, recency]
  cases limit with
  | none =>
    rw [keep, keep]
    split
    · rfl
    · rename_i ha
      have hself : (recency hist).filter (· ≠ a) = recency hist := by
        have htake := take_filter (n := (recency hist).length) (by rwa [take_length])
        rwa [take_length, take_of_length_le (length_filter_le _ _)] at htake
      rw [if_neg (Option.some_ne_none _ ∘ Eq.symm), hself]
  | some n =>
    obtain _ | n := n
    · exact absurd rfl hlimit
    rw [keep, keep, take_succ_cons]
    split
    · rename_i hin
      rw [filter_take hin (nodup_recency hist)]
    · rename_i hout
      have hout' : a ∉ (recency hist).take n := fun h =>
        hout (take_subset_take_left _ (Nat.le_succ n) h)
      rw [take_filter hout']
      split
      · rename_i hfull
        have hlen : n + 1 ≤ (recency hist).length := by
          have hmin := Option.some.inj hfull
          rw [length_take] at hmin
          omega
        rw [dropLast_take_eq_take_dropLast, Nat.add_sub_cancel, dropLast_eq_take, take_take,
          Nat.min_eq_left (Nat.le_sub_of_add_le hlen)]
      · rename_i hfree
        have hlen : (recency hist).length ≤ n := by
          have hmin : n + 1 ≠ ((recency hist).take (n + 1)).length := fun h => hfree (congrArg some h)
          rw [length_take] at hmin
          omega
        rw [take_of_length_le hlen, take_of_length_le (Nat.le_succ_of_le hlen)]

/-- The window has the elements whose reuse distance is within the limit. -/
theorem mem_keep_recency :
    a ∈ keep limit (recency hist) ↔ a ∈ hist ∧ ∀ n ∈ limit, reuseDistance hist a ≤ n := by
  cases limit with
  | none => simp [keep]
  | some n =>
    constructor
    · intro h
      have hmem : a ∈ recency hist := mem_of_mem_take h
      refine ⟨mem_recency.mp hmem, fun m hm => ?_⟩
      obtain rfl := Option.mem_some_iff.mp hm
      rw [← idxOf_recency]
      exact (mem_take_iff_idxOf_lt hmem).mp h
    · rintro ⟨hmem, hle⟩
      refine (mem_take_iff_idxOf_lt (mem_recency.mpr hmem)).mpr ?_
      have hn := hle n (Option.mem_some_self n)
      rwa [← idxOf_recency] at hn

/-- Where the window has an element, it is at its reuse distance. -/
theorem idxOf_keep_recency (ha : a ∈ keep limit (recency hist)) :
    (keep limit (recency hist)).idxOf a + 1 = reuseDistance hist a := by
  rw [(isPrefix_keep limit _).idxOf_eq_of_mem ha, idxOf_recency]

theorem nodup_keep (limit : Option Nat) (hist : List α) : (keep limit (recency hist)).Nodup :=
  (isPrefix_keep limit _).sublist.nodup (nodup_recency hist)

theorem length_keep_le (limit : Option Nat) (hist : List α) :
    (keep limit (recency hist)).length ≤ hist.length := by
  have hle : (recency hist).length ≤ hist.length := by
    rw [← toFinset_card_of_nodup (nodup_recency hist),
      show (recency hist).toFinset = hist.toFinset by ext; simp]
    exact toFinset_card_le hist
  exact (isPrefix_keep limit _).length_le.trans hle

end Recency

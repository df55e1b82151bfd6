import Mathlib.Data.List.Basic

/-!
# Lists cut into pieces

Some pieces make up a list, `List.flatten`. A `Cut` is a position between two pieces, and
`patch` replaces a stretch of a list by one of the same length. If the pieces between two
cuts are replaced by others of the same total length, the list is patched, and the cuts
outside stay (`Cut.replace`).
-/

namespace Pebil

namespace Pieces

variable {α : Type*} {ps front own own' back : List (List α)} {s t : Nat}

/-- A position between two pieces, or at one of the ends. -/
def Cut (ps : List (List α)) (s : Nat) : Prop :=
  ∃ front back, ps = front ++ back ∧ front.flatten.length = s

/-- `new` in the place of what is at a position. -/
def patch (bytes : List α) (s : Nat) (new : List α) : List α :=
  bytes.take s ++ (new ++ bytes.drop (s + new.length))

theorem Cut.le_length (h : Cut ps s) : s ≤ ps.flatten.length := by
  obtain ⟨front, back, rfl, rfl⟩ := h
  rw [List.flatten_append, List.length_append]
  exact Nat.le_add_right _ _

/-- The pieces between two cuts. -/
theorem Cut.between (hs : Cut ps s) (ht : Cut ps t) (hst : s ≤ t) : ∃ front own back,
    ps = front ++ (own ++ back) ∧ front.flatten.length = s ∧ own.flatten.length = t - s := by
  obtain ⟨front, back, rfl, hfront⟩ := hs
  obtain ⟨front', back', heq, hfront'⟩ := ht
  rcases List.append_eq_append_iff.mp heq with ⟨own, rfl, rfl⟩ | ⟨own, rfl, rfl⟩
  · refine ⟨front, own, back', rfl, hfront, ?_⟩
    rw [List.flatten_append, List.length_append] at hfront'
    omega
  · -- the second cut is not before the first, so there is nothing between them
    rw [List.flatten_append, List.length_append] at hfront
    refine ⟨front', [], own ++ back, by simp, ?_, ?_⟩
    · omega
    · simp
      omega

/-- A cut outside of what is replaced is still one. -/
theorem Cut.replace (h : Cut (front ++ (own ++ back)) s)
    (hsame : own'.flatten.length = own.flatten.length)
    (houtside : s ≤ front.flatten.length ∨
      front.flatten.length + own.flatten.length ≤ s) : Cut (front ++ (own' ++ back)) s := by
  obtain ⟨front₁, back₁, heq, hs⟩ := h
  rcases houtside with hbefore | hbehind
  · rcases List.append_eq_append_iff.mp heq with ⟨rest, rfl, -⟩ | ⟨rest, rfl, -⟩
    · rw [List.flatten_append, List.length_append] at hs
      exact ⟨front, own' ++ back, rfl, by omega⟩
    · exact ⟨front₁, rest ++ (own' ++ back), by simp, hs⟩
  · rw [← List.append_assoc] at heq
    rcases List.append_eq_append_iff.mp heq with ⟨rest, rfl, rfl⟩ | ⟨rest, hfront, -⟩
    · refine ⟨front ++ (own' ++ rest), back₁, by simp, ?_⟩
      simp only [List.flatten_append, List.length_append] at hs ⊢
      omega
    · have hlength := congrArg (fun l => l.flatten.length) hfront
      simp only [List.flatten_append, List.length_append] at hlength
      refine ⟨front ++ own', back, by simp, ?_⟩
      simp only [List.flatten_append, List.length_append]
      omega

theorem cut_of_append (front own back : List (List α)) :
    Cut (front ++ (own ++ back)) front.flatten.length ∧
      Cut (front ++ (own ++ back)) (front.flatten.length + own.flatten.length) :=
  ⟨⟨front, own ++ back, rfl, rfl⟩, ⟨front ++ own, back, by simp, by simp⟩⟩

/-! ## Patches -/

section Patch

variable {before old new behind : List α}

theorem patch_append (hlength : new.length = old.length) :
    patch (before ++ (old ++ behind)) before.length new = before ++ (new ++ behind) := by
  unfold patch
  rw [List.take_left, hlength, List.drop_length_add_append, List.drop_left]

/-- A patch behind the front leaves the front alone. -/
theorem patch_append_right (before bytes : List α) (s : Nat) (new : List α) :
    patch (before ++ bytes) (before.length + s) new = before ++ patch bytes s new := by
  unfold patch
  rw [List.take_length_add_append, Nat.add_assoc, List.drop_length_add_append, List.append_assoc]

/-- A patch within the front leaves the rest alone. -/
theorem patch_append_left {bytes : List α} (behind : List α) (h : s + new.length ≤ bytes.length) :
    patch (bytes ++ behind) s new = patch bytes s new ++ behind := by
  unfold patch
  rw [List.take_append_of_le_length (by omega), List.drop_append_of_le_length h]
  simp

end Patch

end Pieces

end Pebil

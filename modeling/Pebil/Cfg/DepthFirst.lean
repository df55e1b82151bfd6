import Pebil.Base.BitSet
import Pebil.Lib.DepthFirst

/-!
# `FlowGraph::depthFirstSearch` (src/FlowGraph.C:1065–1096)

The one search of the class serves two callers. `connectGraph` removes the reachable
blocks from a full set and passes neither a completed set nor a list; `buildLoops` inserts
into empty sets and collects back edges. `visitedMarkOnSet` says which of the two
readings a bit has, `track` whether the completed set and the list are there.

`depthFirstSearch_represents`: read with its flag, the bit sets and the list are those of
`DepthFirst.search`.
-/

namespace Pebil

/-- The sets and the list a search works on. A list entry is an edge; the source pushes
the target first, so the edge comes out source first. -/
structure SearchSets (n : Nat) where
  visitedSet : BitSet n
  completedSet : BitSet n
  backEdges : List (Nat × Nat)

namespace SearchSets

variable {n : Nat}

/-- Set a bit or clear it, as `visitedMarkOnSet` says. -/
def mark (visitedMarkOnSet : Bool) (b : BitSet n) (i : Nat) : BitSet n :=
  if visitedMarkOnSet then b.insert i else b.remove i

/-- `FlowGraph::depthFirstSearch`; each call takes one unit of fuel. -/
def depthFirstSearch (targets : Nat → List Nat) (visitedMarkOnSet track : Bool) :
    Nat → Nat → SearchSets n → SearchSets n
  | 0, _, s => s
  | fuel + 1, root, s =>
    let s := (targets root).foldl (fun s target =>
        if visitedMarkOnSet != s.visitedSet.contains target then
          depthFirstSearch targets visitedMarkOnSet track fuel target s
        else if track && (visitedMarkOnSet != s.completedSet.contains target) then
          { s with backEdges := (root, target) :: s.backEdges }
        else s)
      { s with visitedSet := mark visitedMarkOnSet s.visitedSet root }
    if track then { s with completedSet := mark visitedMarkOnSet s.completedSet root } else s

theorem mark_contains (visitedMarkOnSet : Bool) (b : BitSet n) {i j : Nat} (hi : i < n) :
    (visitedMarkOnSet == (mark visitedMarkOnSet b i).contains j) =
      Function.update (fun j => visitedMarkOnSet == b.contains j) i true j := by
  by_cases hij : j = i
  · subst hij
    cases visitedMarkOnSet <;>
      simp [mark, BitSet.contains_insert, BitSet.contains_remove, hi]
  · cases visitedMarkOnSet <;>
      simp [mark, BitSet.contains_insert, BitSet.contains_remove, Function.update, hij]

/-- The bit sets and the list represent a state of the search on the blocks below `n`. -/
structure Represents (visitedMarkOnSet track : Bool) (s : SearchSets n) (d : DepthFirst Nat) :
    Prop where
  visited : ∀ b < n, d.visited b = (visitedMarkOnSet == s.visitedSet.contains b)
  completed : track = true → ∀ b < n, d.completed b = (visitedMarkOnSet == s.completedSet.contains b)
  backEdges : track = true → d.backEdges = s.backEdges

variable {targets : Nat → List Nat} {visitedMarkOnSet track : Bool}

theorem bne_iff_eq_false (a b : Bool) : (a != b) = true ↔ (a == b) = false := by
  cases a <;> cases b <;> decide

/-- One turn of the loop over the edges of `root`. -/
def turn (targets : Nat → List Nat) (visitedMarkOnSet track : Bool) (fuel root : Nat)
    (s : SearchSets n) (target : Nat) : SearchSets n :=
  if visitedMarkOnSet != s.visitedSet.contains target then
    depthFirstSearch targets visitedMarkOnSet track fuel target s
  else if track && (visitedMarkOnSet != s.completedSet.contains target) then
    { s with backEdges := (root, target) :: s.backEdges }
  else s

theorem depthFirstSearch_succ (fuel root : Nat) (s : SearchSets n) :
    depthFirstSearch targets visitedMarkOnSet track (fuel + 1) root s =
      let s' := (targets root).foldl (turn targets visitedMarkOnSet track fuel root)
        { s with visitedSet := mark visitedMarkOnSet s.visitedSet root }
      if track then
        { s' with completedSet := mark visitedMarkOnSet s'.completedSet root }
      else s' := rfl

/-- What the induction on the fuel provides. -/
def SearchRepresents (n : Nat) (targets : Nat → List Nat) (visitedMarkOnSet track : Bool)
    (fuel : Nat) : Prop :=
  ∀ (root : Nat) (s : SearchSets n) (d : DepthFirst Nat), root < n →
    Represents visitedMarkOnSet track s d →
    Represents visitedMarkOnSet track
      (depthFirstSearch targets visitedMarkOnSet track fuel root s)
      (DepthFirst.search targets fuel root d)

theorem turn_represents {fuel root t : Nat} {s : SearchSets n} {d : DepthFirst Nat}
    (ih : SearchRepresents n targets visitedMarkOnSet track fuel) (ht : t < n)
    (h : Represents visitedMarkOnSet track s d) :
    Represents visitedMarkOnSet track (turn targets visitedMarkOnSet track fuel root s t)
      (DepthFirst.turn targets fuel root d t) := by
  rw [turn, DepthFirst.turn]
  by_cases hv : d.visited t = false
  · rw [if_pos hv, if_pos ((bne_iff_eq_false _ _).mpr (h.visited t ht ▸ hv))]
    exact ih t s d ht h
  · rw [if_neg hv, if_neg (mt (bne_iff_eq_false _ _).mp (h.visited t ht ▸ hv))]
    cases track with
    | false =>
      -- only the sets that are not there may differ
      rw [Bool.false_and, if_neg Bool.false_ne_true]
      split
      · exact ⟨h.visited, fun htrack => absurd htrack Bool.false_ne_true,
          fun htrack => absurd htrack Bool.false_ne_true⟩
      · exact h
    | true =>
      rw [Bool.true_and]
      by_cases hc : d.completed t = false
      · rw [if_pos hc, if_pos ((bne_iff_eq_false _ _).mpr (h.completed rfl t ht ▸ hc))]
        exact ⟨h.visited, h.completed, fun _ => congrArg _ (h.backEdges rfl)⟩
      · rw [if_neg hc, if_neg (mt (bne_iff_eq_false _ _).mp (h.completed rfl t ht ▸ hc))]
        exact h

theorem turns_represents {fuel root : Nat} {ts : List Nat} {s : SearchSets n}
    {d : DepthFirst Nat} (ih : SearchRepresents n targets visitedMarkOnSet track fuel)
    (hts : ∀ t ∈ ts, t < n) (h : Represents visitedMarkOnSet track s d) :
    Represents visitedMarkOnSet track
      (ts.foldl (turn targets visitedMarkOnSet track fuel root) s)
      (ts.foldl (DepthFirst.turn targets fuel root) d) := by
  induction ts generalizing s d with
  | nil => exact h
  | cons t ts iht =>
    obtain ⟨ht, hts⟩ := List.forall_mem_cons.mp hts
    exact iht hts (turn_represents ih ht h)

theorem update_represents {b : BitSet n} {f : Nat → Bool} {root : Nat} (hroot : root < n)
    (h : ∀ i < n, f i = (visitedMarkOnSet == b.contains i)) {i : Nat} (hi : i < n) :
    Function.update f root true i = (visitedMarkOnSet == (mark visitedMarkOnSet b root).contains i) := by
  rw [mark_contains _ _ hroot]
  by_cases hir : i = root
  · simp [hir]
  · simp [Function.update, hir, h i hi]

/-- The search on bit sets follows `DepthFirst.search`. -/
theorem depthFirstSearch_represents (hlt : ∀ a, ∀ t ∈ targets a, t < n) (fuel : Nat) :
    SearchRepresents n targets visitedMarkOnSet track fuel := by
  induction fuel with
  | zero => intro root s d _ h; exact h
  | succ fuel ih =>
    intro root s d hroot h
    have hmarked : Represents visitedMarkOnSet track
        { s with visitedSet := mark visitedMarkOnSet s.visitedSet root }
        { d with visited := Function.update d.visited root true } :=
      ⟨fun _ hb => update_represents hroot h.visited hb, h.completed, h.backEdges⟩
    have hturns : Represents visitedMarkOnSet track
        ((targets root).foldl (turn targets visitedMarkOnSet track fuel root) _)
        ((targets root).foldl (DepthFirst.turn targets fuel root) _) :=
      turns_represents ih (hlt root) hmarked
    rw [DepthFirst.search_succ, depthFirstSearch_succ]
    cases track with
    | false => exact ⟨hturns.visited, nofun, nofun⟩
    | true =>
      exact ⟨hturns.visited, fun _ _ hb => update_represents hroot (hturns.completed rfl) hb,
        hturns.backEdges⟩

/-- A search that clears bits keeps the count of the visited set right. -/
theorem depthFirstSearch_counted (fuel : Nat) : ∀ (root : Nat) (s : SearchSets n),
    s.visitedSet.Counted →
    (depthFirstSearch targets false track fuel root s).visitedSet.Counted := by
  induction fuel with
  | zero => exact fun _ _ h => h
  | succ fuel ih =>
    intro root s h
    have hturns : ∀ (ts : List Nat) (s : SearchSets n), s.visitedSet.Counted →
        (ts.foldl (turn targets false track fuel root) s).visitedSet.Counted := by
      intro ts
      induction ts with
      | nil => exact fun _ h => h
      | cons t ts iht =>
        refine fun s h => iht _ ?_
        rw [turn]
        split
        · exact ih t s h
        · split <;> exact h
    have hmarked := hturns (targets root)
      { s with visitedSet := mark false s.visitedSet root } (BitSet.counted_remove h root)
    rw [depthFirstSearch_succ]
    cases track <;> exact hmarked

end SearchSets

end Pebil

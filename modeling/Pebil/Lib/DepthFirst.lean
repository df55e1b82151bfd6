import Mathlib.Data.Finset.Card
import Pebil.Lib.Dominance

/-!
# Depth-first search with back edges

A recursive visit marks a vertex when it is entered and completes it when it is left.
An edge to a vertex that is entered but not left is a back edge and is recorded.

`Explores` is what any part of a search does, and parts compose (`Explores.trans`);
`search_explores` is proved from it by induction on the fuel, with an inner
induction along the edges of the vertex. The vertices that are entered but not
left are exactly those on the path of recursive calls, so each vertex that is not one of
them is avoided by a path from the start (`hpath`): this is why an edge to a
dominator is always recorded.
-/

namespace Pebil

universe u

open Relation (ReflTransGen)

/-- The sets and the list a search works on. -/
structure DepthFirst (α : Type u) where
  visited : α → Bool
  completed : α → Bool
  backEdges : List (α × α)

namespace DepthFirst

variable {α : Type u} (targets : α → List α)

/-- Visit `root`; each visit takes one unit of fuel. -/
def search [DecidableEq α] : Nat → α → DepthFirst α → DepthFirst α
  | 0, _, s => s
  | fuel + 1, root, s =>
    let s := (targets root).foldl (fun s target =>
        if s.visited target = false then search fuel target s
        else if s.completed target = false then
          { s with backEdges := (root, target) :: s.backEdges }
        else s)
      { s with visited := Function.update s.visited root true }
    { s with completed := Function.update s.completed root true }

/-- The edges of the graph as a relation. -/
def Succ (a b : α) : Prop := b ∈ targets a

/-- Entered, but not left. -/
def Open (s : DepthFirst α) (b : α) : Prop := s.visited b = true ∧ s.completed b = false

/-- The edges a part of a search from `s` to `s'` has looked at: those in `extra`, and all
edges of the vertices it has entered. -/
def Looked (extra : List (α × α)) (s s' : DepthFirst α) (b t : α) : Prop :=
  (b, t) ∈ extra ∨ (s'.visited b = true ∧ s.visited b = false ∧ t ∈ targets b)

/-- A part of a search that starts in `s` and ends in `s'`. -/
structure Explores (r : α) (extra : List (α × α)) (s s' : DepthFirst α) : Prop where
  visited_mono : ∀ b, s.visited b = true → s'.visited b = true
  completed_mono : ∀ b, s.completed b = true → s'.completed b = true
  left_all : ∀ b, s'.visited b = true → s'.completed b = false → s.visited b = true
  completed_new : ∀ b, s'.completed b = true →
    s.completed b = true ∨ (s.visited b = false ∧ s'.visited b = true)
  reach : ∀ b, s'.visited b = true → s.visited b = false → ReflTransGen (Succ targets) r b
  looked_visited : ∀ b t, Looked targets extra s s' b t → s'.visited t = true
  edges : ∃ new, s'.backEdges = new ++ s.backEdges ∧ new.Nodup ∧
    (∀ b t, (b, t) ∈ new → Looked targets extra s s' b t) ∧
    ∀ b t, Looked targets extra s s' b t → Dominates (Succ targets) r t b → (b, t) ∈ new

variable {targets} {r : α}

theorem Explores.refl (s : DepthFirst α) : Explores targets r [] s s where
  visited_mono _ h := h
  completed_mono _ h := h
  left_all _ h _ := h
  completed_new _ h := .inl h
  reach b h h' := by simp [h] at h'
  looked_visited b t h := by
    rcases h with h | ⟨h, h', -⟩
    · cases h
    · simp [h] at h'
  edges := by
    refine ⟨[], rfl, .nil, fun _ _ h => absurd h List.not_mem_nil, fun b t h _ => ?_⟩
    rcases h with h | ⟨h, h', -⟩
    · cases h
    · simp [h] at h'

/-- The open vertices stay open and no others are left open. -/
theorem Explores.open_iff {extra : List (α × α)} {s s' : DepthFirst α}
    (h : Explores targets r extra s s') (b : α) : s'.Open b ↔ s.Open b := by
  constructor
  · rintro ⟨hv, hc⟩
    refine ⟨h.left_all b hv hc, ?_⟩
    by_contra hcomp
    rw [Bool.not_eq_false] at hcomp
    simp [h.completed_mono b hcomp] at hc
  · rintro ⟨hv, hc⟩
    refine ⟨h.visited_mono b hv, ?_⟩
    by_contra hcomp
    rw [Bool.not_eq_false] at hcomp
    rcases h.completed_new b hcomp with h' | ⟨h', -⟩
    · simp [hc] at h'
    · simp [hv] at h'

/-- Whether a vertex entered on the way from `s` to `s''` was entered before `s'`. -/
theorem entered_cases {s s'' : DepthFirst α} (s' : DepthFirst α) {b : α} (h : s''.visited b = true)
    (h' : s.visited b = false) :
    (s'.visited b = true ∧ s.visited b = false) ∨ (s''.visited b = true ∧ s'.visited b = false) := by
  cases hb : s'.visited b with
  | true => exact .inl ⟨rfl, h'⟩
  | false => exact .inr ⟨h, rfl⟩

theorem Looked.trans_cases {e e' : List (α × α)} {s s'' : DepthFirst α} {b t : α}
    (h : Looked targets (e ++ e') s s'' b t) (s' : DepthFirst α) :
    Looked targets e s s' b t ∨ Looked targets e' s' s'' b t := by
  rcases h with hmem | ⟨hv, hn, ht⟩
  · exact (List.mem_append.mp hmem).imp .inl .inl
  · exact (entered_cases s' hv hn).imp (fun h => .inr ⟨h.1, h.2, ht⟩)
      fun h => .inr ⟨h.1, h.2, ht⟩

/-- Two parts of a search, one after the other. -/
theorem Explores.trans {e e' : List (α × α)} {s s' s'' : DepthFirst α}
    (h : Explores targets r e s s') (h' : Explores targets r e' s' s'')
    (he : ∀ x ∈ e ++ e', s.visited x.1 = true) (hdisj : ∀ x ∈ e, x ∉ e') :
    Explores targets r (e ++ e') s s'' where
  visited_mono b hb := h'.visited_mono b (h.visited_mono b hb)
  completed_mono b hb := h'.completed_mono b (h.completed_mono b hb)
  left_all b hv hc := ((h.open_iff b).mp ((h'.open_iff b).mp ⟨hv, hc⟩)).1
  completed_new b hc := by
    rcases h'.completed_new b hc with hc' | ⟨hn, hv⟩
    · exact (h.completed_new b hc').imp_right fun hn => ⟨hn.1, h'.visited_mono b hn.2⟩
    · refine .inr ⟨?_, hv⟩
      by_contra hs
      rw [Bool.not_eq_false] at hs
      simp [h.visited_mono b hs] at hn
  reach b hv hn := by
    rcases entered_cases s' hv hn with hb | hb
    · exact h.reach b hb.1 hb.2
    · exact h'.reach b hb.1 hb.2
  looked_visited b t hl := by
    rcases hl.trans_cases s' with hl | hl
    · exact h'.visited_mono t (h.looked_visited b t hl)
    · exact h'.looked_visited b t hl
  edges := by
    obtain ⟨new, heq, hnodup, hlooked, hall⟩ := h.edges
    obtain ⟨new', heq', hnodup', hlooked', hall'⟩ := h'.edges
    refine ⟨new' ++ new, by rw [heq', heq, List.append_assoc], ?_, ?_, ?_⟩
    · refine List.Nodup.append hnodup' hnodup fun ⟨b, t⟩ hx' hx => ?_
      -- the two parts look at different edges
      rcases hlooked b t hx with hmem | ⟨hv, hn, -⟩
      · rcases hlooked' b t hx' with hmem' | ⟨-, hn', -⟩
        · exact hdisj _ hmem hmem'
        · have hvis := h.visited_mono b (he _ (List.mem_append_left _ hmem))
          simp [hvis] at hn'
      · rcases hlooked' b t hx' with hmem' | ⟨-, hn', -⟩
        · have hvis : s.visited b = true := he _ (List.mem_append_right _ hmem')
          simp [hvis] at hn
        · simp [hv] at hn'
    · intro b t hx
      rcases List.mem_append.mp hx with hx | hx
      · rcases hlooked' b t hx with hmem | ⟨hv, hn, ht⟩
        · exact .inl (List.mem_append_right _ hmem)
        · refine .inr ⟨hv, ?_, ht⟩
          by_contra hs
          rw [Bool.not_eq_false] at hs
          simp [h.visited_mono b hs] at hn
      · rcases hlooked b t hx with hmem | ⟨hv, hn, ht⟩
        · exact .inl (List.mem_append_left _ hmem)
        · exact .inr ⟨h'.visited_mono b hv, hn, ht⟩
    · intro b t hl hdom
      rcases hl.trans_cases s' with hl | hl
      · exact List.mem_append_right _ (hall b t hl hdom)
      · exact List.mem_append_left _ (hall' b t hl hdom)

/-! ## The visit of a vertex -/

section search

variable [DecidableEq α]

/-- One turn of the loop over the edges of `root`. -/
def turn (targets : α → List α) (fuel : Nat) (root : α) (s : DepthFirst α) (target : α) :
    DepthFirst α :=
  if s.visited target = false then search targets fuel target s
  else if s.completed target = false then
    { s with backEdges := (root, target) :: s.backEdges }
  else s

theorem search_succ (fuel : Nat) (root : α) (s : DepthFirst α) :
    search targets (fuel + 1) root s =
      let s' := (targets root).foldl (turn targets fuel root)
        { s with visited := Function.update s.visited root true }
      { s' with completed := Function.update s'.completed root true } := rfl

/-- The vertices of `V` that have not been entered. -/
def unvisited (V : Finset α) (s : DepthFirst α) : Finset α := V.filter (s.visited · = false)

omit [DecidableEq α] in
theorem unvisited_subset {V : Finset α} {s s' : DepthFirst α}
    (h : ∀ b, s.visited b = true → s'.visited b = true) : s'.unvisited V ⊆ s.unvisited V := by
  intro b hb
  obtain ⟨hV, hb⟩ := Finset.mem_filter.mp hb
  refine Finset.mem_filter.mpr ⟨hV, ?_⟩
  by_contra hs
  rw [Bool.not_eq_false] at hs
  simp [h b hs] at hb

/-- What a visit of `root` from `s` needs: it is a new vertex, reachable, there is fuel for
it, every vertex that is not open is avoided by a path to it, and completed vertices
have been entered. -/
structure Ready (targets : α → List α) (r : α) (V : Finset α) (fuel : Nat) (root : α)
    (s : DepthFirst α) : Prop where
  mem : root ∈ V
  fresh : s.visited root = false
  fuel_le : (s.unvisited V).card ≤ fuel
  reach : ReflTransGen (Succ targets) r root
  path : ∀ d, ¬ s.Open d → d ≠ root → PathAvoiding (Succ targets) d r root
  completed_visited : ∀ b, s.completed b = true → s.visited b = true

/-- What the loop over the edges of `root` needs, the vertex being open. -/
structure InVisit (targets : α → List α) (r : α) (V : Finset α) (fuel : Nat) (root : α)
    (s : DepthFirst α) : Prop where
  is_open : s.Open root
  fuel_le : (s.unvisited V).card ≤ fuel
  reach : ReflTransGen (Succ targets) r root
  path : ∀ d, ¬ s.Open d → PathAvoiding (Succ targets) d r root
  completed_visited : ∀ b, s.completed b = true → s.visited b = true

omit [DecidableEq α] in
theorem InVisit.step {V : Finset α} {fuel : Nat} {root : α} {e : List (α × α)}
    {s s' : DepthFirst α} (h : InVisit targets r V fuel root s)
    (h' : Explores targets r e s s') : InVisit targets r V fuel root s' where
  is_open := (h'.open_iff root).mpr h.is_open
  fuel_le := (Finset.card_le_card (unvisited_subset h'.visited_mono)).trans h.fuel_le
  reach := h.reach
  path d hd := h.path d fun hopen => hd ((h'.open_iff d).mpr hopen)
  completed_visited b hb := by
    rcases h'.completed_new b hb with hc | ⟨-, hv⟩
    · exact h'.visited_mono b (h.completed_visited b hc)
    · exact hv

omit [DecidableEq α] in
/-- A dominator of an open vertex at the end of the path is open itself. -/
theorem InVisit.open_of_dominates {V : Finset α} {fuel : Nat} {root t : α} {s : DepthFirst α}
    (h : InVisit targets r V fuel root s) (hdom : Dominates (Succ targets) r t root) :
    s.Open t := by
  by_contra hopen
  exact hdom (h.path t hopen)

/-- What the induction on the fuel provides for the vertices behind the edges. -/
def SearchExplores (targets : α → List α) (r : α) (V : Finset α) (fuel : Nat) : Prop :=
  ∀ root s, Ready targets r V fuel root s →
    Explores targets r [] s (search targets fuel root s) ∧
      (search targets fuel root s).visited root = true

/-- A turn of the loop looks at one edge. -/
theorem turn_explores {V : Finset α} {fuel : Nat} {root t : α} {s : DepthFirst α}
    (ih : SearchExplores targets r V fuel) (h : InVisit targets r V fuel root s) (hV : t ∈ V)
    (ht : t ∈ targets root) :
    Explores targets r [(root, t)] s (turn targets fuel root s t) := by
  by_cases hv : s.visited t = false
  · -- the edge leads to a new vertex, which is no dominator
    have hready : Ready targets r V fuel t s :=
      { mem := hV, fresh := hv, fuel_le := h.fuel_le, reach := h.reach.tail ht
        path := fun d hd hne => (h.path d hd).snoc ht (Ne.symm hne)
        completed_visited := h.completed_visited }
    obtain ⟨hexp, hvis⟩ := ih t s hready
    have hnot : ¬ Dominates (Succ targets) r t root := fun hdom => by
      simp [(h.open_of_dominates hdom).1] at hv
    rw [turn, if_pos hv]
    refine { hexp with looked_visited := ?_, edges := ?_ }
    · intro b u hl
      rcases hl with hmem | hl
      · obtain ⟨rfl, rfl⟩ := Prod.mk.inj (List.mem_singleton.mp hmem)
        exact hvis
      · exact hexp.looked_visited b u (.inr hl)
    · obtain ⟨new, heq, hnodup, hlooked, hall⟩ := hexp.edges
      refine ⟨new, heq, hnodup, fun b u hx => ?_, fun b u hl hdom => ?_⟩
      · exact .inr ((hlooked b u hx).resolve_left List.not_mem_nil)
      · rcases hl with hmem | hl
        · obtain ⟨rfl, rfl⟩ := Prod.mk.inj (List.mem_singleton.mp hmem)
          exact absurd hdom hnot
        · exact hall b u (.inr hl) hdom
  · rw [Bool.not_eq_false] at hv
    -- nothing is entered; only the list can change
    have hentered : ∀ {s' : DepthFirst α}, s'.visited = s.visited → ∀ b u,
        Looked targets [(root, t)] s s' b u → b = root ∧ u = t := by
      intro s' heq b u hl
      rcases hl with hmem | ⟨hvis, hn, -⟩
      · exact Prod.mk.inj (List.mem_singleton.mp hmem)
      · simp [heq, hn] at hvis
    by_cases hc : s.completed t = false
    · rw [turn, if_neg (by simp [hv]), if_pos hc]
      refine { Explores.refl s with looked_visited := ?_, edges := ?_ }
      · intro b u hl
        obtain ⟨-, rfl⟩ := hentered rfl b u hl
        exact hv
      · refine ⟨[(root, t)], rfl, List.nodup_singleton _, fun b u hx => .inl hx, ?_⟩
        intro b u hl _
        obtain ⟨rfl, rfl⟩ := hentered rfl b u hl
        exact List.mem_singleton_self _
    · rw [turn, if_neg (by simp [hv]), if_neg hc]
      refine { Explores.refl s with looked_visited := ?_, edges := ?_ }
      · intro b u hl
        obtain ⟨-, rfl⟩ := hentered rfl b u hl
        exact hv
      · refine ⟨[], rfl, .nil, fun _ _ hx => absurd hx List.not_mem_nil, fun b u hl hdom => ?_⟩
        obtain ⟨rfl, rfl⟩ := hentered rfl b u hl
        -- a completed vertex is not open, so it is no dominator
        exact absurd (h.open_of_dominates hdom).2 hc

/-- The loop over the edges of a vertex. -/
theorem turns_explores {V : Finset α} {fuel : Nat} {root : α} {ts : List α} {s : DepthFirst α}
    (ih : SearchExplores targets r V fuel) (h : InVisit targets r V fuel root s)
    (hV : ∀ t ∈ ts, t ∈ V) (hts : ∀ t ∈ ts, t ∈ targets root) (hnodup : ts.Nodup) :
    Explores targets r (ts.map fun t => (root, t)) s (ts.foldl (turn targets fuel root) s) := by
  induction ts generalizing s with
  | nil => exact Explores.refl s
  | cons t ts iht =>
    obtain ⟨hVt, hVts⟩ := List.forall_mem_cons.mp hV
    obtain ⟨ht, hts⟩ := List.forall_mem_cons.mp hts
    obtain ⟨hnot, hnodup⟩ := List.nodup_cons.mp hnodup
    have hturn := turn_explores ih h hVt ht
    refine hturn.trans (iht (h.step hturn) hVts hts hnodup) (fun x hx => ?_) fun x hx hx' => ?_
    · obtain ⟨u, -, rfl⟩ : ∃ u ∈ t :: ts, (root, u) = x := List.mem_map.mp hx
      exact h.is_open.1
    · obtain ⟨u, hu, rfl⟩ := List.mem_map.mp hx'
      obtain ⟨-, rfl⟩ := Prod.mk.inj (List.mem_singleton.mp hx)
      exact hnot hu

/-- **What a visit does.** -/
theorem search_explores {V : Finset α} (hclosed : ∀ b ∈ V, ∀ t ∈ targets b, t ∈ V)
    (hnodup : ∀ b, (targets b).Nodup) (fuel : Nat) : SearchExplores targets r V fuel := by
  induction fuel with
  | zero =>
    intro root s h
    have hmem : root ∈ s.unvisited V := Finset.mem_filter.mpr ⟨h.mem, h.fresh⟩
    exact absurd (Finset.card_pos.mpr ⟨root, hmem⟩) (by have := h.fuel_le; omega)
  | succ fuel ih =>
    intro root s h
    generalize hs₀ : ({ s with visited := Function.update s.visited root true } : DepthFirst α) = s₀
    have hvisited : ∀ b, s₀.visited b = true ↔ b = root ∨ s.visited b = true := by
      intro b
      rw [← hs₀]
      by_cases hb : b = root <;> simp [Function.update, hb]
    have hcompleted : s₀.completed = s.completed := by rw [← hs₀]
    have hroot : s.completed root = false := by
      by_contra hc
      rw [Bool.not_eq_false] at hc
      have hv := h.completed_visited root hc
      simp [h.fresh] at hv
    have hvisit : InVisit targets r V fuel root s₀ := by
      refine ⟨⟨(hvisited root).mpr (.inl rfl), by rw [hcompleted, hroot]⟩, ?_, h.reach, ?_, ?_⟩
      · -- one vertex fewer is left
        have hlt : (s₀.unvisited V).card < (s.unvisited V).card := by
          refine Finset.card_lt_card (Finset.ssubset_iff_subset_ne.mpr
            ⟨unvisited_subset fun b hb => (hvisited b).mpr (.inr hb), fun heq => ?_⟩)
          have hmem : root ∈ s₀.unvisited V :=
            heq ▸ Finset.mem_filter.mpr ⟨h.mem, h.fresh⟩
          simp [(hvisited root).mpr (.inl rfl), unvisited] at hmem
        have := h.fuel_le
        omega
      · intro d hd
        have hne : d ≠ root := by
          rintro rfl
          exact hd ⟨(hvisited d).mpr (.inl rfl), by rw [hcompleted, hroot]⟩
        refine h.path d (fun hopen => hd ⟨(hvisited d).mpr (.inr hopen.1), ?_⟩) hne
        rw [hcompleted]
        exact hopen.2
      · intro b hb
        rw [hcompleted] at hb
        exact (hvisited b).mpr (.inr (h.completed_visited b hb))
    have hturns := turns_explores ih hvisit (hclosed root h.mem) (fun t ht => ht) (hnodup root)
    rw [search_succ, hs₀]
    generalize (targets root).foldl (turn targets fuel root) s₀ = s₁ at hturns
    -- leaving `root` completes it
    have hlooked : ∀ b t, Looked targets [] s
        { s₁ with completed := Function.update s₁.completed root true } b t →
        Looked targets ((targets root).map fun t => (root, t)) s₀ s₁ b t := by
      rintro b t (hmem | ⟨hv, hn, ht⟩)
      · cases hmem
      · by_cases hb : b = root
        · subst hb
          exact .inl (List.mem_map.mpr ⟨t, ht, rfl⟩)
        · refine .inr ⟨hv, ?_, ht⟩
          by_contra hs
          rw [Bool.not_eq_false] at hs
          rcases (hvisited b).mp hs with rfl | hs
          · exact hb rfl
          · simp [hn] at hs
    have hrootv : s₁.visited root = true :=
      hturns.visited_mono root ((hvisited root).mpr (.inl rfl))
    refine ⟨⟨?_, ?_, ?_, ?_, ?_, ?_, ?_⟩, hrootv⟩
    · intro b hb
      exact hturns.visited_mono b ((hvisited b).mpr (.inr hb))
    · intro b hb
      by_cases hbr : b = root
      · simp [hbr]
      · simp only [Function.update_of_ne hbr]
        exact hturns.completed_mono b (hcompleted ▸ hb)
    · intro b hv hc
      by_cases hbr : b = root
      · simp [hbr] at hc
      · simp only [Function.update_of_ne hbr] at hc
        exact ((hvisited b).mp (hturns.left_all b hv hc)).resolve_left hbr
    · intro b hb
      by_cases hbr : b = root
      · subst hbr
        exact .inr ⟨h.fresh, hrootv⟩
      · simp only [Function.update_of_ne hbr] at hb
        rcases hturns.completed_new b hb with hc | ⟨hn, hv⟩
        · exact .inl (hcompleted ▸ hc)
        · refine .inr ⟨?_, hv⟩
          by_contra hs
          rw [Bool.not_eq_false] at hs
          simp [(hvisited b).mpr (.inr hs)] at hn
    · intro b hv hn
      by_cases hbr : b = root
      · subst hbr
        exact h.reach
      · refine hturns.reach b hv ?_
        by_contra hs
        rw [Bool.not_eq_false] at hs
        rcases (hvisited b).mp hs with rfl | hs
        · exact hbr rfl
        · simp [hn] at hs
    · intro b t hl
      exact hturns.looked_visited b t (hlooked b t hl)
    · obtain ⟨new, heq, hnd, hnew, hall⟩ := hturns.edges
      refine ⟨new, by rw [show s.backEdges = s₀.backEdges by rw [← hs₀]]; exact heq, hnd, ?_, ?_⟩
      · intro b t hx
        rcases hnew b t hx with hmem | ⟨hv, hn, ht⟩
        · obtain ⟨u, hu, heq'⟩ := List.mem_map.mp hmem
          obtain ⟨rfl, rfl⟩ := Prod.mk.inj heq'
          exact .inr ⟨hrootv, h.fresh, hu⟩
        · refine .inr ⟨hv, ?_, ht⟩
          by_contra hs
          rw [Bool.not_eq_false] at hs
          simp [(hvisited b).mpr (.inr hs)] at hn
      · intro b t hl hdom
        exact hall b t (hlooked b t hl) hdom

/-! ## A search from scratch -/

/-- Nothing entered, nothing recorded. -/
def start : DepthFirst α where
  visited _ := false
  completed _ := false
  backEdges := []

/-- **A search from `r`** enters the reachable vertices; the list it leaves has no duplicates,
holds only edges of reachable vertices, and among them every edge that leads to a
dominator of its source. -/
theorem search_start {V : Finset α} (hr : r ∈ V) (hclosed : ∀ b ∈ V, ∀ t ∈ targets b, t ∈ V)
    (hnodup : ∀ b, (targets b).Nodup) {fuel : Nat} (hfuel : V.card ≤ fuel) :
    let s := search targets fuel r start
    (∀ b, s.visited b = true ↔ ReflTransGen (Succ targets) r b) ∧ s.backEdges.Nodup ∧
      (∀ b t, (b, t) ∈ s.backEdges → ReflTransGen (Succ targets) r b ∧ t ∈ targets b) ∧
      ∀ b t, ReflTransGen (Succ targets) r b → t ∈ targets b →
        Dominates (Succ targets) r t b → (b, t) ∈ s.backEdges := by
  intro s
  have hready : Ready targets r V fuel r start :=
    { mem := hr, fresh := rfl, fuel_le := (Finset.card_filter_le ..).trans hfuel, reach := .refl
      path := fun d _ hne => .refl (Ne.symm hne)
      completed_visited := fun b hb => hb }
  obtain ⟨hexp, hroot⟩ := search_explores hclosed hnodup fuel r start hready
  have hvisited : ∀ b, s.visited b = true ↔ ReflTransGen (Succ targets) r b := by
    intro b
    refine ⟨fun hv => hexp.reach b hv rfl, fun hreach => ?_⟩
    induction hreach with
    | refl => exact hroot
    | tail _ hstep ih => exact hexp.looked_visited _ _ (.inr ⟨ih, rfl, hstep⟩)
  obtain ⟨new, heq, hnd, hnew, hall⟩ := hexp.edges
  have heq : s.backEdges = new := heq.trans (List.append_nil new)
  rw [heq]
  refine ⟨hvisited, hnd, fun b t hx => ?_, fun b t hreach ht hdom => ?_⟩
  · obtain ⟨hv, -, ht⟩ := (hnew b t hx).resolve_left List.not_mem_nil
    exact ⟨(hvisited b).mp hv, ht⟩
  · exact hall b t (.inr ⟨(hvisited b).mpr hreach, rfl, ht⟩) hdom

end search

end DepthFirst

end Pebil

import Mathlib.Data.List.Nodup
import Mathlib.Data.List.Infix
import Mathlib.Data.List.Perm.Subperm
import Mathlib.Data.List.ProdSigma
import Mathlib.Data.Nat.Find
import Mathlib.Tactic.ByContra

/-!
# Searching for uses along paths

A search starts at `root` with some values. It follows paths until a node uses a value that is
still alive, or none is alive any more; values die at the nodes that kill them. The cheapest path
that is pending is always popped next. Nodes that lead a run of nodes are entered once, whatever
the path to them and the values alive on it; entering one of them, the `head`, costs `extra`.

`Inv` is what holds of the pending and the popped paths of such a search. From it follows that a
path that ends in a use has no cycle and enters the head at most once (`Inv.cost_used`). Where the
values alive at a node do not depend on the path to it, the search finds every node by a cheapest
path (`Inv.exists_entry`, `Inv.cheapest`).

A path is the list of its nodes, the last one first.
-/

namespace Pebil

universe u v

/-- A graph to be searched. -/
structure PathSearch (ν : Type u) (χ : Type v) where
  root : ν
  next : ν → List ν
  leads : ν → Bool
  head : Option ν
  extra : Nat
  start : List χ
  kills : ν → χ → Bool
  uses : ν → χ → Bool
  head_leads : ∀ a, head = some a → leads a = true
  next_unique : ∀ a b c, b ∈ next a → leads b = false → c ∈ next a → c = b
  origin_unique : ∀ a b c, c ∈ next a → c ∈ next b → leads c = false → a = b
  kills_root : leads root = false → ∀ a, root ∈ next a → ∀ x ∈ start, kills a x = true

namespace PathSearch

variable {ν : Type u} {χ : Type v} (S : PathSearch ν χ)

/-- No node of the path kills the value. -/
def Survives (r : List ν) (x : χ) : Prop := x ∈ S.start ∧ ∀ a ∈ r, S.kills a x = false

/-- The last node uses a value that the nodes before it have not killed. -/
def Used (r : List ν) : Prop := ∃ a x, r.head? = some a ∧ S.Survives r.tail x ∧ S.uses a x = true

/-- The paths that the search follows: up to the first use, and as long as a value is alive. -/
inductive Open : List ν → Prop where
  | root {x} : x ∈ S.start → Open [S.root]
  | step {a b r x} : Open (a :: r) → ¬S.Used (a :: r) → b ∈ S.next a → S.Survives (a :: r) x →
      Open (b :: a :: r)

variable {S} {a b : ν} {r r' q : List ν} {x : χ}

theorem Survives.suffix (h : S.Survives r x) (hs : r' <:+ r) : S.Survives r' x :=
  ⟨h.1, fun a ha => h.2 a (hs.subset ha)⟩

theorem survives_cons : S.Survives (a :: r) x ↔ S.kills a x = false ∧ S.Survives r x := by
  simp only [Survives, List.forall_mem_cons]
  tauto

theorem Open.ne_nil (h : S.Open r) : r ≠ [] := by
  cases h <;> exact List.cons_ne_nil _ _

/-- What a path goes on from. -/
structure Extends (S : PathSearch ν χ) (b a : ν) (r : List ν) : Prop where
  path : S.Open (a :: r)
  unused : ¬S.Used (a :: r)
  next : b ∈ S.next a
  survives : ∃ x, S.Survives (a :: r) x

theorem Open.follows (h : S.Open (b :: a :: r)) : S.Extends b a r := by
  cases h with
  | step hr hunused hnext hsurvives => exact ⟨hr, hunused, hnext, _, hsurvives⟩

/-- Something is alive on the path. -/
theorem Open.survives (h : S.Open (a :: r)) : ∃ x, S.Survives r x := by
  cases h with
  | root hx => exact ⟨_, hx, nofun⟩
  | step _ _ _ hx => exact ⟨_, hx⟩

theorem Open.suffix (h : S.Open r) (hs : q <:+ r) (hq : q ≠ []) :
    S.Open q ∧ (q ≠ r → ¬S.Used q) := by
  induction h with
  | root hx =>
    rcases List.suffix_cons_iff.mp hs with rfl | hs
    · exact ⟨.root hx, fun hne => absurd rfl hne⟩
    · exact absurd (List.suffix_nil.mp hs) hq
  | @step a b r x hr hunused hnext hsurvives ih =>
    rcases List.suffix_cons_iff.mp hs with rfl | hs
    · exact ⟨.step hr hunused hnext hsurvives, fun hne => absurd rfl hne⟩
    · obtain ⟨hopen, hproper⟩ := ih hs
      refine ⟨hopen, fun _ => ?_⟩
      rcases eq_or_ne q (a :: r) with rfl | hne
      · exact hunused
      · exact hproper hne

/-- A node is not used if it was passed before on the same path. -/
theorem Open.not_mem_of_used (h : S.Open (a :: r)) (hused : S.Used (a :: r)) : a ∉ r := by
  intro hmem
  obtain ⟨s, t, rfl⟩ := List.append_of_mem hmem
  obtain ⟨_, x, ha, hx, huses⟩ := hused
  obtain rfl := Option.some.inj ha
  have hs : a :: t <:+ a :: (s ++ a :: t) := ⟨a :: s, rfl⟩
  refine (h.suffix hs (List.cons_ne_nil _ _)).2 (fun heq => ?_) ⟨a, x, rfl, ?_, huses⟩
  · have hlen := congrArg List.length heq
    rw [List.length_cons, List.length_cons, List.length_append, List.length_cons] at hlen
    omega
  · exact Survives.suffix hx ⟨s ++ [a], by simp⟩

/-! ## Costs -/

section Cost

variable [DecidableEq ν]

/-- What entering a node costs more than the others. -/
def penalty (S : PathSearch ν χ) (a : ν) : Nat := if S.head = some a then S.extra else 0

/-- The number of nodes, and `extra` for each time the head is entered behind the first node. -/
def cost (S : PathSearch ν χ) : List ν → Nat
  | [] => 0
  | [_] => 1
  | a :: b :: r => S.cost (b :: r) + 1 + S.penalty a

theorem cost_cons (h : r ≠ []) : S.cost (a :: r) = S.cost r + 1 + S.penalty a := by
  cases r with
  | nil => exact absurd rfl h
  | cons b r => rfl

theorem cost_eq (r : List ν) :
    S.cost r = r.length + S.extra * r.dropLast.countP (fun a => S.head = some a) := by
  match r with
  | [] => rfl
  | [a] => rfl
  | a :: b :: r =>
    rw [cost, cost_eq (b :: r), List.dropLast_cons_of_ne_nil (List.cons_ne_nil b r),
      List.countP_cons, penalty]
    simp only [List.length_cons, decide_eq_true_eq]
    by_cases h : S.head = some a
    · rw [if_pos h, if_pos h, Nat.mul_add, Nat.mul_one]
      omega
    · simp only [if_neg h, Nat.add_zero]
      omega

theorem cost_le_of_suffix (hs : q <:+ r) : S.cost q ≤ S.cost r := by
  induction r with
  | nil => rw [List.suffix_nil.mp hs]
  | cons a r ih =>
    rcases List.suffix_cons_iff.mp hs with rfl | hs
    · exact Nat.le_refl _
    · refine Nat.le_trans (ih hs) ?_
      by_cases hr : r = []
      · simp [hr, cost]
      · rw [cost_cons hr]
        omega

end Cost

/-- The pending paths and those that were popped. -/
structure Frontier (ν : Type u) where
  pending : List (List ν)
  popped : List (List ν)

/-- All paths so far. -/
def Frontier.entries (c : Frontier ν) : List (List ν) := c.pending ++ c.popped

/-- What holds of the paths during a search. -/
structure Inv [DecidableEq ν] (S : PathSearch ν χ) (c : Frontier ν) : Prop where
  root : [S.root] ∈ c.entries
  paths : ∀ r ∈ c.entries, S.Open r
  nodup : c.entries.Nodup
  parent : ∀ a b r, b :: a :: r ∈ c.entries → a :: r ∈ c.popped
  sorted : ∀ p ∈ c.popped, ∀ g ∈ c.pending, S.cost p ≤ S.cost g
  once : ∀ b q q', S.leads b = true → q ≠ [] → q' ≠ [] → b :: q ∈ c.entries →
    b :: q' ∈ c.entries → q = q'
  closed : ∀ a b r, a :: r ∈ c.popped → S.Extends b a r →
    if S.leads b then ∃ q ≠ [], b :: q ∈ c.entries ∧ S.cost q ≤ S.cost (a :: r)
    else b :: a :: r ∈ c.entries

/-- What is pushed when a path is popped: the nodes that follow, less those that lead a run and
have been entered. -/
structure Expands (S : PathSearch ν χ) (c : Frontier ν) (a : ν) (r cs : List ν) : Prop where
  nodup : cs.Nodup
  follows : ∀ b ∈ cs, S.Extends b a r
  fresh : ∀ b ∈ cs, S.leads b = true → ∀ q ≠ [], b :: q ∉ c.entries
  complete : ∀ b, S.Extends b a r → b ∈ cs ∨ S.leads b = true ∧ ∃ q ≠ [], b :: q ∈ c.entries

/-- Nothing follows a path that ends in a use, or on which nothing is alive any more. -/
theorem expands_nil {c : Frontier ν} (h : ∀ b, ¬S.Extends b a r) : S.Expands c a r [] where
  nodup := .nil
  follows := nofun
  fresh := nofun
  complete b hb := absurd hb (h b)

namespace Inv

variable [DecidableEq ν] {c : Frontier ν}

/-- At the start, the root is pending. -/
theorem start (hx : x ∈ S.start) : S.Inv ⟨[[S.root]], []⟩ where
  root := List.mem_singleton_self _
  paths r hr := by
    obtain rfl := List.mem_singleton.mp hr
    exact .root hx
  nodup := List.nodup_singleton _
  parent a b r h := by simp [Frontier.entries] at h
  sorted := nofun
  once b q q' _ hq _ h := by simp [Frontier.entries, hq] at h
  closed := nofun

/-- Popping a cheapest path and pushing what follows it keeps the invariant. -/
theorem pop (h : S.Inv c) {rest pending' : List (List ν)} {cs : List ν}
    (hpop : c.pending.Perm ((a :: r) :: rest)) (hmin : ∀ g ∈ rest, S.cost (a :: r) ≤ S.cost g)
    (hcs : S.Expands c a r cs) (hpush : pending'.Perm (cs.map (· :: a :: r) ++ rest)) :
    S.Inv ⟨pending', (a :: r) :: c.popped⟩ := by
  have hmem : ∀ q, q ∈ (Frontier.mk pending' ((a :: r) :: c.popped)).entries ↔
      (∃ b ∈ cs, q = b :: a :: r) ∨ q ∈ c.entries := by
    intro q
    simp only [Frontier.entries, List.mem_append, hpush.mem_iff, hpop.mem_iff, List.mem_map,
      List.mem_cons, eq_comm (a := q)]
    grind
  have hnotpopped : a :: r ∉ c.popped := by
    have hnodup := (List.nodup_append.mp h.nodup).2.2
    exact fun hpopped => hnodup _ (hpop.mem_iff.mpr List.mem_cons_self) _ hpopped rfl
  have hnew : ∀ b, b :: a :: r ∉ c.entries := fun b hb => hnotpopped (h.parent a b r hb)
  constructor
  · exact (hmem _).mpr (.inr h.root)
  · intro q hq
    rcases (hmem q).mp hq with ⟨b, hb, rfl⟩ | hq
    · obtain ⟨hopen, hunused, hnext, x, hx⟩ := hcs.follows b hb
      exact .step hopen hunused hnext hx
    · exact h.paths q hq
  · have hold : (cs.map (· :: a :: r) ++ c.entries).Nodup := by
      refine List.nodup_append.mpr ⟨hcs.nodup.map fun b b' heq => (List.cons.inj heq).1, h.nodup, ?_⟩
      rintro _ hq q' hq' rfl
      obtain ⟨b, -, rfl⟩ := List.mem_map.mp hq
      exact hnew b hq'
    refine (List.Perm.nodup_iff ?_).mpr hold
    refine (hpush.append_right _).trans ?_
    rw [List.append_assoc]
    refine .append_left _ ?_
    exact List.perm_middle.trans (hpop.symm.append_right c.popped)
  · intro a' b q hq
    rcases (hmem _).mp hq with ⟨b', -, heq⟩ | hq
    · rw [(List.cons.inj heq).2]
      exact List.mem_cons_self
    · exact List.mem_cons_of_mem _ (h.parent a' b q hq)
  · intro p hp g hg
    have hlow : S.cost p ≤ S.cost (a :: r) := by
      rcases List.mem_cons.mp hp with rfl | hp
      · exact Nat.le_refl _
      · exact h.sorted p hp _ (hpop.mem_iff.mpr List.mem_cons_self)
    rcases List.mem_append.mp (hpush.mem_iff.mp hg) with hg | hg
    · obtain ⟨b, -, rfl⟩ := List.mem_map.mp hg
      exact Nat.le_trans hlow (cost_le_of_suffix ⟨[b], rfl⟩)
    · exact Nat.le_trans hlow (hmin g hg)
  · intro b q q' hb hq hq' hbq hbq'
    rcases (hmem _).mp hbq with ⟨b₁, hb₁, heq⟩ | hold <;>
      rcases (hmem _).mp hbq' with ⟨b₂, hb₂, heq'⟩ | hold'
    · rw [(List.cons.inj heq).2, (List.cons.inj heq').2]
    · obtain rfl := (List.cons.inj heq).1
      exact absurd hold' (hcs.fresh b hb₁ hb q' hq')
    · obtain rfl := (List.cons.inj heq').1
      exact absurd hold (hcs.fresh b hb₂ hb q hq)
    · exact h.once b q q' hb hq hq' hold hold'
  · intro a' b q hq hext
    rcases List.mem_cons.mp hq with heq | hq
    · obtain ⟨rfl, rfl⟩ := List.cons.inj heq
      have hpending : a' :: q ∈ c.pending := hpop.mem_iff.mpr List.mem_cons_self
      rcases hcs.complete b hext with hb | ⟨hb, q', hq', hentered⟩
      · have hpushed := (hmem (b :: a' :: q)).mpr (.inl ⟨b, hb, rfl⟩)
        split
        · exact ⟨a' :: q, List.cons_ne_nil _ _, hpushed, Nat.le_refl _⟩
        · exact hpushed
      · -- whoever entered it was popped before
        obtain ⟨a₀, q₀, rfl⟩ := List.exists_cons_of_ne_nil hq'
        have hle := h.sorted _ (h.parent _ _ _ hentered) _ hpending
        rw [if_pos hb]
        exact ⟨a₀ :: q₀, hq', (hmem _).mpr (.inr hentered), hle⟩
    · have hclosed := h.closed a' b q hq hext
      split at hclosed
      next hb =>
        obtain ⟨q', hq', hentered, hle⟩ := hclosed
        rw [if_pos hb]
        exact ⟨q', hq', (hmem _).mpr (.inr hentered), hle⟩
      next hb =>
        rw [if_neg hb]
        exact (hmem _).mpr (.inr hclosed)

theorem suffix (h : S.Inv c) (hr : r ∈ c.entries) (hs : q <:+ r) (hq : q ≠ []) (hne : q ≠ r) :
    q ∈ c.popped := by
  induction r with
  | nil => exact absurd (List.suffix_nil.mp hs) hq
  | cons b r ih =>
    rcases List.suffix_cons_iff.mp hs with heq | hs
    · exact absurd heq hne
    · cases r with
      | nil => exact absurd (List.suffix_nil.mp hs) hq
      | cons a r =>
        have hpopped := h.parent a b r hr
        by_cases heq : q = a :: r
        · rwa [heq]
        · exact ih (List.mem_append_right _ hpopped) hs heq

theorem not_pending (h : S.Inv c) (hr : r ∈ c.popped) : r ∉ c.pending :=
  fun hp => (List.nodup_append.mp h.nodup).2.2 r hp r hr rfl

end Inv

/-! ## No cycles -/

theorem Open.eq_root (h : S.Open [a]) : a = S.root := by
  cases h
  rfl

/-- A node in the middle of a run is not entered a second time. -/
theorem Open.nodup_cons (h : S.Open (b :: r)) (hb : S.leads b = false) (hr : r.Nodup) :
    (b :: r).Nodup := by
  refine List.nodup_cons.mpr ⟨fun hmem => ?_, hr⟩
  cases r with
  | nil => cases hmem
  | cons a r =>
    obtain ⟨-, -, hnext, x, hx⟩ := h.follows
    obtain ⟨s, t, heq⟩ := List.append_of_mem hmem
    have hs : b :: t <:+ b :: a :: r := heq ▸ ⟨b :: s, rfl⟩
    have hopen := (h.suffix hs (List.cons_ne_nil _ _)).1
    cases t with
    | nil =>
      -- it is the root, before which everything is killed
      obtain rfl := hopen.eq_root
      have hkilled := S.kills_root hb a hnext x hx.1
      rw [hx.2 a List.mem_cons_self] at hkilled
      cases hkilled
    | cons a' t =>
      obtain rfl := S.origin_unique a a' b hnext hopen.follows.next hb
      refine (List.nodup_cons.mp hr).1 ?_
      cases s with
      | nil =>
        rw [(List.cons.inj heq).2]
        exact List.mem_cons_self
      | cons s₀ s =>
        rw [(List.cons.inj heq).2]
        simp

/-- The path has entered a run of nodes. -/
def Entered (S : PathSearch ν χ) (r : List ν) : Prop := ∃ a ∈ r.dropLast, S.leads a = true

theorem not_entered_singleton : ¬S.Entered [a] := fun ⟨_, h, _⟩ => nomatch h

theorem entered_cons (hr : r ≠ []) : S.Entered (b :: r) ↔ S.leads b = true ∨ S.Entered r := by
  rw [Entered, Entered, List.dropLast_cons_of_ne_nil hr, List.exists_mem_cons_iff]

theorem Open.nodup_of_not_entered (h : S.Open r) (hr : ¬S.Entered r) : r.Nodup := by
  induction h with
  | root => exact List.nodup_singleton _
  | @step a b r x hopen hunused hnext hsurvives ih =>
    rw [entered_cons (List.cons_ne_nil a r), not_or, Bool.not_eq_true] at hr
    exact Open.nodup_cons (.step hopen hunused hnext hsurvives) hr.1 (ih hr.2)

/-- No path without a cycle is longer than the head costs. -/
def Sized (S : PathSearch ν χ) : Prop := ∀ r, S.Open r → r.Nodup → r.length ≤ S.extra

section Cost

variable [DecidableEq ν]

theorem cost_le_of_not_entered (hsize : S.Sized) (h : S.Open r) (hr : ¬S.Entered r) :
    S.cost r ≤ S.extra := by
  have hcount : r.dropLast.countP (fun a => decide (S.head = some a)) = 0 := by
    refine List.countP_eq_zero.mpr fun a ha hhead => hr ⟨a, ha, S.head_leads a ?_⟩
    exact of_decide_eq_true hhead
  rw [cost_eq, hcount]
  exact hsize r h (h.nodup_of_not_entered hr)

/-- The cost of a path without a cycle. -/
theorem cost_of_nodup (hr : r.Nodup) :
    (S.cost r = r.length ∧ ∀ a ∈ r.dropLast, S.head ≠ some a) ∨ S.cost r = r.length + S.extra := by
  rw [cost_eq]
  cases hhead : S.head with
  | none => exact .inl ⟨by simp, nofun⟩
  | some h =>
    have hcount : r.dropLast.countP (fun a => some h = some a) = r.dropLast.count h := by
      rw [List.count]
      refine List.countP_congr fun a _ => ?_
      rw [decide_eq_true_iff, beq_iff_eq, Option.some.injEq, eq_comm]
    rw [hcount]
    have hle := List.nodup_iff_count_le_one.mp (hr.sublist (List.dropLast_sublist r)) h
    rcases Nat.le_one_iff_eq_zero_or_eq_one.mp hle with h0 | h1
    · rw [h0]
      refine .inl ⟨rfl, fun a ha heq => ?_⟩
      rw [Option.some.inj heq] at h0
      exact List.count_eq_zero.mp h0 ha
    · rw [h1, Nat.mul_one]
      exact .inr rfl

end Cost

namespace Inv

variable [DecidableEq ν] {c : Frontier ν}

/-- Only the last node of a path can have been passed before. -/
theorem nodup_or_mem (h : S.Inv c) (hr : r ∈ c.entries) : r.Nodup ∨ ∃ a q, r = a :: q ∧ a ∈ q := by
  induction r with
  | nil => exact .inl .nil
  | cons b r ih =>
    cases r with
    | nil => exact .inl (List.nodup_singleton b)
    | cons a r =>
      have hopen := h.paths _ hr
      have hpopped := h.parent a b r hr
      by_cases hmem : b ∈ a :: r
      · exact .inr ⟨b, a :: r, rfl, hmem⟩
      rcases ih (List.mem_append_right _ hpopped) with hnodup | ⟨_, _, heq, ha⟩
      · exact .inl (List.nodup_cons.mpr ⟨hmem, hnodup⟩)
      -- the path left `a` before, by a node that it has passed
      obtain ⟨rfl, rfl⟩ := List.cons.inj heq
      obtain ⟨s, t, rfl⟩ := List.append_of_mem ha
      obtain ⟨s', m, hm⟩ := List.eq_nil_or_concat (a :: s) |>.resolve_left (List.cons_ne_nil _ _)
      have hsplit : a :: (s ++ a :: t) = s' ++ m :: a :: t := by
        rw [← List.cons_append, hm, List.concat_eq_append, List.append_assoc]
        rfl
      have hleft := (hopen.follows.path.suffix (q := m :: a :: t) ⟨s', hsplit.symm⟩
        (List.cons_ne_nil _ _)).1.follows
      cases hb : S.leads b with
      | false =>
        obtain rfl := S.next_unique a b m hopen.follows.next hb hleft.next
        exact absurd (hsplit ▸ by simp) hmem
      | true =>
        obtain ⟨x, hx⟩ := hopen.follows.survives
        have hs : a :: t <:+ s ++ a :: t := ⟨s, rfl⟩
        have hlow : S.cost (a :: t) < S.cost (a :: (s ++ a :: t)) := by
          rw [cost_cons (List.append_ne_nil_of_right_ne_nil s (List.cons_ne_nil a t))]
          have hle := cost_le_of_suffix (S := S) hs
          omega
        have hext : S.Extends b a t :=
          ⟨hleft.path, hleft.unused, hopen.follows.next, x, hx.suffix (hs.trans ⟨[a], rfl⟩)⟩
        have hpopped' : a :: t ∈ c.popped := by
          refine h.suffix (List.mem_append_right _ hpopped) (hs.trans ⟨[a], rfl⟩)
            (List.cons_ne_nil _ _) fun heq => ?_
          exact absurd (congrArg S.cost heq) (Nat.ne_of_lt hlow)
        have hclosed := h.closed a b t hpopped' hext
        rw [if_pos hb] at hclosed
        obtain ⟨q, hq, hentered, hle⟩ := hclosed
        obtain rfl := h.once b q _ hb hq (List.cons_ne_nil _ _) hentered hr
        omega

theorem used_nodup (h : S.Inv c) (hr : r ∈ c.entries) (hused : S.Used r) : r.Nodup := by
  rcases h.nodup_or_mem hr with hnodup | ⟨a, q, rfl, ha⟩
  · exact hnodup
  · exact absurd ha ((h.paths _ hr).not_mem_of_used hused)

/-- The number of nodes of a path to a use can be told from its cost. -/
theorem cost_used (h : S.Inv c) (hsize : S.Sized) (hr : r ∈ c.entries) (hused : S.Used r) :
    r.length ≤ S.extra ∧ (S.cost r = r.length ∨ S.cost r = r.length + S.extra) := by
  have hnodup := h.used_nodup hr hused
  refine ⟨hsize r (h.paths r hr) hnodup, ?_⟩
  exact (cost_of_nodup hnodup).imp_left fun hcost => hcost.1

end Inv

/-! ## Cheapest paths -/

/-- What is alive at a node does not depend on the path to it. -/
def Uniform (S : PathSearch ν χ) : Prop :=
  ∀ a r r', S.Open (a :: r) → S.Open (a :: r') → ∀ x, S.Survives r x → S.Survives r' x

/-- The paths end at the same node, both in the first run or both behind it. -/
def SamePlace (S : PathSearch ν χ) (r r' : List ν) : Prop :=
  r.head? = r'.head? ∧ (S.Entered r ↔ S.Entered r')

theorem SamePlace.symm (h : S.SamePlace r r') : S.SamePlace r' r := ⟨h.1.symm, h.2.symm⟩

/-- A single value is alive on every path that is followed. -/
theorem uniform_of_single (h : S.start = [x]) : S.Uniform := by
  intro a r r' _ hr' y hy
  obtain ⟨z, hz⟩ := hr'.survives
  have hmem := hy.1
  have hmem' := hz.1
  rw [h, List.mem_singleton] at hmem hmem'
  rwa [hmem, ← hmem']

theorem Uniform.used (h : S.Uniform) (hr : S.Open r) (hr' : S.Open r') (hhead : r.head? = r'.head?)
    (hused : S.Used r) : S.Used r' := by
  obtain ⟨a, x, ha, hx, huses⟩ := hused
  cases r with
  | nil => cases ha
  | cons b r =>
    cases r' with
    | nil => cases hhead
    | cons b' r' =>
      obtain rfl : b = b' := Option.some.inj hhead
      exact ⟨a, x, ha, h b r r' hr hr' x hx, huses⟩

section Cost

variable [DecidableEq ν]

/-- Outside loops, a path costs what it is long. -/
theorem cost_of_no_head (h : S.head = none) (r : List ν) : S.cost r = r.length := by
  rw [cost_eq, h]
  simp

/-- No path to the same place costs less. -/
def Cheapest (S : PathSearch ν χ) (r : List ν) : Prop :=
  ∀ q, S.Open q → S.SamePlace q r → S.cost r ≤ S.cost q

/-- A cheapest path to a use. -/
structure Counted (S : PathSearch ν χ) (r : List ν) : Prop where
  path : S.Open r
  used : S.Used r
  cheapest : S.Cheapest r

/-- If a use is reached at all, it is reached by a counted path, at no more cost. -/
theorem exists_counted (hunif : S.Uniform) (hr : S.Open r) (hused : S.Used r) :
    ∃ q, S.Counted q ∧ S.cost q ≤ S.cost r := by
  have hex : ∃ n q, S.Open q ∧ S.SamePlace q r ∧ S.cost q = n := ⟨_, r, hr, ⟨rfl, Iff.rfl⟩, rfl⟩
  classical
  obtain ⟨q, hq, hplace, hcost⟩ := Nat.find_spec hex
  have hmin : ∀ q', S.Open q' → S.SamePlace q' r → S.cost q ≤ S.cost q' := fun q' hq' hplace' =>
    hcost ▸ Nat.find_min' hex ⟨q', hq', hplace', rfl⟩
  exact ⟨q, ⟨hq, hunif.used hr hq hplace.1.symm hused, fun q' hq' hplace' =>
    hmin q' hq' ⟨hplace'.1.trans hplace.1, hplace'.2.trans hplace.2⟩⟩, hmin r hr ⟨rfl, Iff.rfl⟩⟩

/-- The cheapest of the uses behind the head is alone: no other node is reached at the same
cost. -/
def Alone (S : PathSearch ν χ) : Prop :=
  ∀ r, S.Counted r → S.extra < S.cost r →
    (∀ q, S.Counted q → S.extra < S.cost q → S.cost r ≤ S.cost q) →
    ∀ q, S.Open q → S.Cheapest q → S.cost q = S.cost r → q.head? = r.head?

end Cost

namespace Inv

variable [DecidableEq ν] {c : Frontier ν}

/-- A place is reached once. -/
theorem eq_of_samePlace (h : S.Inv c) (hr : r ∈ c.entries) (hr' : r' ∈ c.entries)
    (hplace : S.SamePlace r r') : r = r' := by
  -- nothing is alive at the root, if it is in the middle of a run, when it is entered again
  have hroot : ∀ a q, S.Open (S.root :: a :: q) → S.Entered (S.root :: a :: q) := by
    intro a q hq
    rw [entered_cons (List.cons_ne_nil a q)]
    by_contra hentered
    rw [not_or, Bool.not_eq_true] at hentered
    obtain ⟨x, hx⟩ := hq.follows.survives
    have hkilled := S.kills_root hentered.1 a hq.follows.next x hx.1
    rw [hx.2 a List.mem_cons_self] at hkilled
    cases hkilled
  induction r generalizing r' with
  | nil => exact absurd rfl (h.paths _ hr).ne_nil
  | cons b q ih =>
    obtain ⟨b', q', rfl⟩ := List.exists_cons_of_ne_nil (h.paths _ hr').ne_nil
    obtain rfl : b = b' := Option.some.inj hplace.1
    cases q with
    | nil =>
      cases q' with
      | nil => rfl
      | cons a' q' =>
        obtain rfl := (h.paths _ hr).eq_root
        exact absurd (hplace.2.mpr (hroot a' q' (h.paths _ hr'))) not_entered_singleton
    | cons a q =>
      cases q' with
      | nil =>
        obtain rfl := (h.paths _ hr').eq_root
        exact absurd (hplace.2.mp (hroot a q (h.paths _ hr))) not_entered_singleton
      | cons a' q' =>
        cases hb : S.leads b with
        | true => rw [h.once b (a :: q) (a' :: q') hb (List.cons_ne_nil _ _) (List.cons_ne_nil _ _) hr hr']
        | false =>
          obtain rfl := S.origin_unique a a' b (h.paths _ hr).follows.next
            (h.paths _ hr').follows.next hb
          have hentered := hplace.2
          rw [entered_cons (List.cons_ne_nil _ _), entered_cons (List.cons_ne_nil _ _), hb] at hentered
          rw [ih (List.mem_append_right _ (h.parent _ _ _ hr))
            (List.mem_append_right _ (h.parent _ _ _ hr')) ⟨rfl, by simpa using hentered⟩]

/-- There are no more paths than places. -/
theorem length_popped_le (h : S.Inv c) {nodes : List ν}
    (hnodes : ∀ r, S.Open r → ∀ a ∈ r, a ∈ nodes) : c.popped.length ≤ 2 * nodes.length := by
  have hplaces : (c.entries.map fun r => (r.head?, r.dropLast.any S.leads)).Nodup := by
    refine List.Nodup.map_on (fun r hr r' hr' heq => ?_) h.nodup
    obtain ⟨hhead, hany⟩ := Prod.mk.inj heq
    refine h.eq_of_samePlace hr hr' ⟨hhead, ?_⟩
    have hentered : ∀ q, S.Entered q ↔ q.dropLast.any S.leads = true := fun q =>
      List.any_eq_true.symm
    rw [hentered, hentered, hany]
  have hsub : (c.entries.map fun r => (r.head?, r.dropLast.any S.leads)) ⊆
      nodes.map some ×ˢ [true, false] := by
    intro place hplace
    obtain ⟨r, hr, rfl⟩ := List.mem_map.mp hplace
    obtain ⟨a, q, rfl⟩ := List.exists_cons_of_ne_nil (h.paths r hr).ne_nil
    have ha := hnodes _ (h.paths _ hr) a List.mem_cons_self
    refine List.mem_product.mpr ⟨List.mem_map_of_mem ha, ?_⟩
    cases (a :: q).dropLast.any S.leads <;> simp
  have hle := (List.subperm_of_subset hplaces hsub).length_le
  rw [List.length_map, List.length_product, List.length_map, Frontier.entries,
    List.length_append] at hle
  rw [show [true, false].length = 2 from rfl] at hle
  omega

/-- A path that costs no more than what is pending leads to a place that has been reached, and at
no less cost. -/
theorem exists_entry (h : S.Inv c) (hunif : S.Uniform) (hq : S.Open q)
    (hlow : ∀ g ∈ c.pending, S.cost q ≤ S.cost g) :
    ∃ e ∈ c.entries, S.SamePlace e q ∧ S.cost e ≤ S.cost q := by
  induction hq with
  | root => exact ⟨[S.root], h.root, ⟨rfl, Iff.rfl⟩, Nat.le_refl _⟩
  | @step a b q x hopen hunused hnext hx ih =>
    have hcost : S.cost (b :: a :: q) = S.cost (a :: q) + 1 + S.penalty b := rfl
    obtain ⟨e, he, hplace, hle⟩ := ih fun g hg => Nat.le_trans (by omega) (hlow g hg)
    obtain ⟨a', e, rfl⟩ := List.exists_cons_of_ne_nil (h.paths _ he).ne_nil
    obtain rfl : a' = a := Option.some.inj hplace.1
    have hpopped : a' :: e ∈ c.popped := by
      refine (List.mem_append.mp he).resolve_left fun hpending => ?_
      have hlow' := hlow _ hpending
      omega
    have hext : S.Extends b a' e := by
      refine ⟨h.paths _ he, fun hused => hunused ?_, hnext, x, ?_⟩
      · exact hunif.used (h.paths _ he) hopen rfl hused
      · rw [survives_cons] at hx ⊢
        exact ⟨hx.1, hunif a' q e hopen (h.paths _ he) x hx.2⟩
    have hclosed := h.closed a' b e hpopped hext
    split at hclosed
    next hb =>
      obtain ⟨q', hq', hentered, hle'⟩ := hclosed
      refine ⟨b :: q', hentered, ⟨rfl, ?_⟩, ?_⟩
      · rw [entered_cons hq', entered_cons (List.cons_ne_nil _ _), hb]
        simp
      · rw [cost_cons hq', hcost]
        omega
    next hb =>
      refine ⟨b :: a' :: e, hclosed, ⟨rfl, ?_⟩, ?_⟩
      · rw [entered_cons (List.cons_ne_nil _ _), entered_cons (List.cons_ne_nil _ _), hplace.2]
      · rw [cost_cons (List.cons_ne_nil _ _), hcost]
        omega

/-- What has been reached has been reached by a cheapest path. -/
theorem cheapest (h : S.Inv c) (hunif : S.Uniform) (hr : r ∈ c.entries)
    (hlow : ∀ g ∈ c.pending, S.cost r ≤ S.cost g) : S.Cheapest r := by
  intro q hq hplace
  by_contra hlt
  obtain ⟨e, he, hplace', hle⟩ := h.exists_entry hunif hq fun g hg =>
    Nat.le_trans (by omega) (hlow g hg)
  obtain rfl := h.eq_of_samePlace he hr ⟨hplace'.1.trans hplace.1, hplace'.2.trans hplace.2⟩
  omega

/-- While only uses before the head have been popped, what is cheapest among the pending costs no
more than a counted path behind the head. -/
theorem cost_le_counted (h : S.Inv c) (hunif : S.Uniform)
    (hlow : ∀ g ∈ c.pending, S.cost r ≤ S.cost g)
    (hpast : ∀ p ∈ c.popped, S.Used p → S.cost p ≤ S.extra) (hq : S.Counted q)
    (hcost : S.extra < S.cost q) : S.cost r ≤ S.cost q := by
  by_contra hlt
  obtain ⟨e, he, hplace, hle⟩ := h.exists_entry hunif hq.path fun g hg =>
    Nat.le_trans (by omega) (hlow g hg)
  have hpopped : e ∈ c.popped := by
    refine (List.mem_append.mp he).resolve_left fun hpending => ?_
    have hle' := hlow e hpending
    omega
  have hpast' := hpast e hpopped (hunif.used hq.path (h.paths e he) hplace.1.symm hq.used)
  have hcheap := hq.cheapest e (h.paths e he) hplace
  omega

/-- What is reached at the cost of a counted path that is alone is that path. -/
theorem eq_of_cost_eq (h : S.Inv c) (hsize : S.Sized) (hunif : S.Uniform) (halone : S.Alone)
    (hr : r ∈ c.entries) (hlow : ∀ g ∈ c.pending, S.cost r ≤ S.cost g) (hused : S.Used r)
    (hcost : S.extra < S.cost r) (hpast : ∀ p ∈ c.popped, S.Used p → S.cost p ≤ S.extra)
    (hq : q ∈ c.entries) (heq : S.cost q = S.cost r) : q = r := by
  have hcounted : S.Counted r := ⟨h.paths r hr, hused, h.cheapest hunif hr hlow⟩
  have hcheap : S.Cheapest q := h.cheapest hunif hq fun g hg => heq ▸ hlow g hg
  -- paths that dear have entered the head
  have hentered : ∀ p, S.Open p → S.cost p = S.cost r → S.Entered p := by
    intro p hp hpr
    by_contra hnot
    have hle := cost_le_of_not_entered hsize hp hnot
    omega
  exact h.eq_of_samePlace hq hr
    ⟨halone r hcounted hcost (fun p => h.cost_le_counted hunif hlow hpast) q (h.paths q hq) hcheap
        heq,
      iff_of_true (hentered q (h.paths q hq) heq) (hentered r (h.paths r hr) rfl)⟩

/-- A path without repetition that costs more than all the nodes goes on behind the head. -/
theorem exists_head_of_extra_lt (h : S.Inv c) (hsize : S.Sized) (hr : r ∈ c.entries)
    (hnodup : r.Nodup) (hcost : S.extra < S.cost r) :
    ∃ b ∈ r.dropLast, S.head = some b := by
  have hle := hsize r (h.paths r hr) hnodup
  rcases cost_of_nodup (S := S) hnodup with ⟨hlen, -⟩ | hlen
  · omega
  · by_contra hnot
    have hcount : r.dropLast.countP (fun a => decide (S.head = some a)) = 0 :=
      List.countP_eq_zero.mpr fun a ha hd => hnot ⟨a, ha, of_decide_eq_true hd⟩
    rw [cost_eq, hcount] at hcost
    omega

omit [DecidableEq ν] in
/-- What a path has gone through before its start ends a longer suffix of it. -/
theorem exists_suffix_of_mem_dropLast {b : ν} {r : List ν} (hb : b ∈ r.dropLast) :
    ∃ t, t ≠ [] ∧ b :: t <:+ r := by
  have hne : r ≠ [] := by
    rintro rfl
    cases hb
  obtain ⟨s, t, hst⟩ := List.append_of_mem hb
  refine ⟨t ++ [r.getLast hne], by simp, s, ?_⟩
  conv_rhs => rw [← List.dropLast_append_getLast hne, hst]
  simp

/-- When a use behind the head is popped first, and it is alone, nothing else is pending. -/
theorem rest_eq_nil (h : S.Inv c) (hsize : S.Sized) (hunif : S.Uniform) (halone : S.Alone)
    {rest : List (List ν)} (hpop : c.pending.Perm (r :: rest))
    (hmin : ∀ g ∈ rest, S.cost r ≤ S.cost g) (hused : S.Used r) (hcost : S.extra < S.cost r)
    (hpast : ∀ p ∈ c.popped, S.Used p → S.cost p ≤ S.extra) : rest = [] := by
  have hpending : r ∈ c.pending := hpop.mem_iff.mpr List.mem_cons_self
  have hr : r ∈ c.entries := List.mem_append_left _ hpending
  have hlow : ∀ g ∈ c.pending, S.cost r ≤ S.cost g := by
    intro g hg
    rcases List.mem_cons.mp (hpop.mem_iff.mp hg) with rfl | hg
    · exact Nat.le_refl _
    · exact hmin g hg
  have halone' : ∀ e ∈ c.entries, S.cost e = S.cost r → e = r := fun e he =>
    h.eq_of_cost_eq hsize hunif halone hr hlow hused hcost hpast he
  have hnodup : (r :: rest).Nodup :=
    hpop.nodup_iff.mp (List.nodup_append.mp h.nodup).1
  refine List.eq_nil_iff_forall_not_mem.mpr fun g hg => ?_
  have hgpending : g ∈ c.pending := hpop.mem_iff.mpr (List.mem_cons_of_mem _ hg)
  have hgentry : g ∈ c.entries := List.mem_append_left _ hgpending
  have hne : g ≠ r := fun heq => (List.nodup_cons.mp hnodup).1 (heq ▸ hg)
  have hlt : S.cost r < S.cost g :=
    Nat.lt_of_le_of_ne (hmin g hg) fun heq => hne (halone' g hgentry heq.symm)
  obtain ⟨b, p, rfl⟩ := List.exists_cons_of_ne_nil (h.paths g hgentry).ne_nil
  cases p with
  | nil =>
    have hone : S.cost [b] = 1 := rfl
    omega
  | cons a p =>
    have hpopped := h.parent a b p hgentry
    have hle := h.sorted _ hpopped r hpending
    have hcons : S.cost (b :: a :: p) = S.cost (a :: p) + 1 + S.penalty b := rfl
    have hne' : S.cost (a :: p) ≠ S.cost r := fun heq =>
      h.not_pending hpopped (halone' _ (List.mem_append_right _ hpopped) heq ▸ hpending)
    -- only the head is entered at a cost, and the popped path has entered it
    have hhead : S.head = some b := by
      by_contra hnot
      rw [penalty, if_neg hnot] at hcons
      omega
    obtain ⟨b', hb', heq⟩ := h.exists_head_of_extra_lt hsize hr (h.used_nodup hr hused) hcost
    obtain rfl : b = b' := Option.some.inj (hhead.symm.trans heq)
    obtain ⟨t, ht, hsuffix⟩ := exists_suffix_of_mem_dropLast hb'
    have hentry : b :: t ∈ c.entries ∧ b :: t ≠ b :: a :: p := by
      by_cases heq' : b :: t = r
      · rw [heq']
        exact ⟨hr, hne.symm⟩
      · have hpopped' := h.suffix hr hsuffix (List.cons_ne_nil _ _) heq'
        refine ⟨List.mem_append_right _ hpopped', fun hsame => ?_⟩
        exact h.not_pending hpopped' (hsame ▸ hgpending)
    refine hentry.2 ?_
    rw [h.once b t (a :: p) (S.head_leads b hhead) ht (List.cons_ne_nil _ _) hentry.1 hgentry]

/-- When nothing is pending, no counted path is shorter than all those that were found. -/
theorem exists_used_le (h : S.Inv c) (hpending : c.pending = []) (hsize : S.Sized)
    (hunif : S.Uniform) (hr : S.Counted r) :
    ∃ e ∈ c.popped, S.Used e ∧ e.length ≤ r.length := by
  obtain ⟨e, he, hplace, hle⟩ := h.exists_entry hunif hr.path fun g hg => by
    rw [hpending] at hg
    cases hg
  have hpopped : e ∈ c.popped := by
    rwa [Frontier.entries, hpending, List.nil_append] at he
  have hused := hunif.used hr.path (h.paths e he) hplace.1.symm hr.used
  refine ⟨e, hpopped, hused, ?_⟩
  have hle' := hr.cheapest e (h.paths e he) hplace
  obtain ⟨hlen, hcost⟩ := h.cost_used hsize he hused
  have hpos := List.length_pos_iff.mpr hr.path.ne_nil
  have hcount := cost_eq (S := S) r
  generalize r.dropLast.countP (fun a => decide (S.head = some a)) = k at hcount
  match k with
  | 0 => omega
  | 1 => omega
  | k + 2 =>
    have htwice := Nat.mul_le_mul_left S.extra (show 2 ≤ k + 2 by omega)
    omega

end Inv

end PathSearch

end Pebil

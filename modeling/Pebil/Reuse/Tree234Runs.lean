import Pebil.Reuse.Tree234Correct

/-!
# Runs of the tree

A tree that is only used through its functions answers as a sorted list would, and its height stays
logarithmic.
-/

namespace Pebil

variable {α : Type}

/-- A call of one of the tree's functions. -/
inductive Call234 (α : Type) where
  | add (e : α)
  | delpos (index : Nat)
  | index (index : Nat)
  | findrelpos (e : α)
  | count

/-- What a call gives back. -/
inductive Reply234 (α : Type) where
  | elem (x : Option α)
  | position (found : Option (α × Nat))
  | count (n : Nat)

namespace Call234

/-- A call on the tree. -/
def onTree (cmp : α → α → Int) (t : Tree234 α) : Call234 α → Tree234 α × Reply234 α
  | .add e => ((add234 cmp t e).1, .elem (some (add234 cmp t e).2))
  | .delpos i =>
    match delpos234 t i with
    | none => (t, .elem none)
    | some d => (d.2, .elem (some d.1))
  | .index i => (t, .elem (index234 t i))
  | .findrelpos e => (t, .position (findrelpos234 cmp t e))
  | .count => (t, .count (count234 t))

/-- The element goes before the first that is greater, unless there is one that compares equal. -/
def insert (cmp : α → α → Int) (e : α) (s : List α) : List α :=
  s.takeWhile (0 < cmp e ·) ++ e :: s.dropWhile (0 < cmp e ·)

/-- A call on a list. -/
def onList (cmp : α → α → Int) (s : List α) : Call234 α → List α × Reply234 α
  | .add e =>
    match s.find? (cmp e · = 0) with
    | some x => (s, .elem (some x))
    | none => (insert cmp e s, .elem (some e))
  | .delpos i => (s.eraseIdx i, .elem s[i]?)
  | .index i => (s, .elem s[i]?)
  | .findrelpos e =>
    (s, .position ((s.find? (cmp e · = 0)).map fun x => (x, s.findIdx (cmp e · = 0))))
  | .count => (s, .count s.length)

/-- Calls one after the other, with what they give back. -/
def run {σ : Type} (call : σ → Call234 α → σ × Reply234 α) : σ → List (Call234 α) →
    σ × List (Reply234 α)
  | s, [] => (s, [])
  | s, c :: calls =>
    ((run call (call s c).1 calls).1, (call s c).2 :: (run call (call s c).1 calls).2)

end Call234

/-- The comparison is that of an order. -/
structure Compares (cmp : α → α → Int) : Prop where
  anti : ∀ a b, 0 < cmp a b → cmp b a < 0
  trans : ∀ a b c, cmp a b < 0 → 0 ≤ cmp c b → 0 < cmp c a

/-- The elements of a list go up. -/
def Ascending (cmp : α → α → Int) (s : List α) : Prop := s.Pairwise fun y z => cmp y z < 0

section Steps

variable {cmp : α → α → Int} {t : Tree234 α} {e : α} {s a b : List α}

theorem Ascending.directed (hs : Ascending cmp s) (hcmp : Compares cmp) : Directed (cmp e) s :=
  List.Pairwise.imp (fun hyz => hcmp.trans _ _ _ hyz) hs

theorem Ascending.insert (hs : Ascending cmp (a ++ b)) (hcmp : Compares cmp)
    (ha : ∀ y ∈ a, 0 < cmp e y) (hb : ∀ y ∈ b, cmp e y < 0) : Ascending cmp (a ++ e :: b) := by
  obtain ⟨hsa, hsb, hab⟩ := List.pairwise_append.mp hs
  refine List.pairwise_append.mpr ⟨hsa, List.pairwise_cons.mpr ⟨hb, hsb⟩, fun y hy z hz => ?_⟩
  obtain rfl | hz := List.mem_cons.mp hz
  · exact hcmp.anti _ _ (ha y hy)
  · exact hab y hy z hz

/-- The place of a new element is where the comparisons change. -/
theorem insert_append (ha : ∀ y ∈ a, 0 < cmp e y) (hb : ∀ y ∈ b, cmp e y < 0) :
    Call234.insert cmp e (a ++ b) = a ++ e :: b := by
  have hall : ∀ y ∈ a, decide (0 < cmp e y) = true := fun y hy => decide_eq_true (ha y hy)
  have hnone : b.takeWhile (0 < cmp e ·) = [] ∧ b.dropWhile (0 < cmp e ·) = b := by
    cases b with
    | nil => exact ⟨rfl, rfl⟩
    | cons y b =>
      have hy : ¬0 < cmp e y := Int.not_lt.mpr (Int.le_of_lt (hb y List.mem_cons_self))
      exact ⟨by simp [hy], by simp [hy]⟩
  rw [Call234.insert, List.takeWhile_append_of_pos hall, List.dropWhile_append_of_pos hall,
    hnone.1, hnone.2, List.append_nil]

/-- An element that compares equal is the only one. -/
theorem find_append {x : α} (hdir : Directed (cmp e) (a ++ x :: b)) (hx : cmp e x = 0) :
    (a ++ x :: b).find? (cmp e · = 0) = some x ∧
      (a ++ x :: b).findIdx (cmp e · = 0) = a.length := by
  have ha : ∀ y ∈ a, ¬decide (cmp e y = 0) = true := fun y hy => by
    have hpos := hdir.before (Int.le_of_eq hx.symm) y hy
    simp only [decide_eq_true_eq]
    omega
  refine ⟨?_, ?_⟩
  · rw [List.find?_append, List.find?_eq_none.mpr ha, Option.none_or,
      List.find?_cons_of_pos (by simpa using hx)]
  · have hnone : ¬a.findIdx (cmp e · = 0) < a.length := fun hlt => by
      obtain ⟨y, hy, hzero⟩ := List.findIdx_lt_length.mp hlt
      exact ha y hy hzero
    rw [List.findIdx_append, if_neg hnone, List.findIdx_cons, show decide (cmp e x = 0) = true from decide_eq_true hx, cond_true,
      Nat.zero_add]

/-- A call keeps the tree and answers as on the list. -/
theorem onTree_spec (hcmp : Compares cmp) (ht : t.Balanced) (hs : Ascending cmp t.toList) (c : Call234 α) :
    (c.onTree cmp t).1.Balanced ∧ Ascending cmp (c.onTree cmp t).1.toList ∧
      ((c.onTree cmp t).1.toList, (c.onTree cmp t).2) = c.onList cmp t.toList := by
  cases c with
  | add e =>
    have hdir : Directed (cmp e) t.toList := hs.directed hcmp
    obtain ⟨x, hx, hzero, hadd⟩ | ⟨t', a, b, hadd, hbal, hlist, hlist', ha, hb⟩ :=
      add234_spec (e := e) ht hdir
    · obtain ⟨a, b, hsplit⟩ := List.append_of_mem hx
      have hfind : t.toList.find? (cmp e · = 0) = some x := by
        rw [hsplit] at hdir ⊢
        exact (find_append hdir hzero).1
      rw [Call234.onTree, Call234.onList, hadd, hfind]
      exact ⟨ht, hs, rfl⟩
    · have hnone : t.toList.find? (cmp e · = 0) = none := by
        rw [List.find?_eq_none, hlist]
        intro y hy
        simp only [decide_eq_true_eq]
        obtain hy | hy := List.mem_append.mp hy
        · exact Int.ne_of_gt (ha y hy)
        · exact Int.ne_of_lt (hb y hy)
      rw [Call234.onTree, Call234.onList, hadd, hnone]
      refine ⟨hbal, ?_, ?_⟩
      · rw [hlist] at hs
        rw [hlist']
        exact hs.insert hcmp ha hb
      · rw [hlist, insert_append ha hb, hlist']
  | delpos i =>
    rw [Call234.onTree, Call234.onList]
    by_cases hlt : i < t.toList.length
    · obtain ⟨x, t', hdel, hbal, a, b, hlist, rfl, hlist'⟩ := delpos234_spec ht hlt
      rw [hdel]
      refine ⟨hbal, ?_, ?_⟩
      · rw [hlist']
        rw [hlist] at hs
        exact hs.sublist ((List.sublist_cons_self x b).append_left a)
      · rw [hlist, hlist']
        simp [List.eraseIdx_append_of_length_le]
    · have hle : t.toList.length ≤ i := Nat.le_of_not_lt hlt
      rw [delpos234_none ht hle, List.eraseIdx_of_length_le hle, List.getElem?_eq_none hle]
      exact ⟨ht, hs, rfl⟩
  | index i =>
    rw [Call234.onTree, Call234.onList, index234_eq ht]
    exact ⟨ht, hs, rfl⟩
  | findrelpos e =>
    have hdir : Directed (cmp e) t.toList := hs.directed hcmp
    refine ⟨ht, hs, ?_⟩
    obtain ⟨hnone, hne⟩ | ⟨a, x, b, hsome, hlist, hx⟩ := findrelpos234_spec ht hdir
    · have hfind : t.toList.find? (cmp e · = 0) = none :=
        List.find?_eq_none.mpr fun y hy => by simpa using hne y hy
      rw [Call234.onTree, Call234.onList, hnone, hfind]
      rfl
    · rw [hlist] at hdir
      obtain ⟨hfind, hidx⟩ := find_append hdir hx
      rw [Call234.onTree, Call234.onList, hsome, hlist, hfind, hidx, Nat.zero_add]
      rfl
  | count =>
    have hcount : count234 t = t.toList.length := Ok.countnode ht
    rw [Call234.onTree, Call234.onList, hcount]
    exact ⟨ht, hs, rfl⟩

end Steps

section Runs

variable {cmp : α → α → Int}

theorem run_onTree (hcmp : Compares cmp) {t : Tree234 α} (ht : t.Balanced)
    (hs : Ascending cmp t.toList) (calls : List (Call234 α)) :
    (Call234.run (Call234.onTree cmp) t calls).1.Balanced ∧
      Ascending cmp (Call234.run (Call234.onTree cmp) t calls).1.toList ∧
      ((Call234.run (Call234.onTree cmp) t calls).1.toList,
        (Call234.run (Call234.onTree cmp) t calls).2) =
        Call234.run (Call234.onList cmp) t.toList calls := by
  induction calls generalizing t with
  | nil => exact ⟨ht, hs, rfl⟩
  | cons c calls ih =>
    obtain ⟨hbal, hasc, heq⟩ := onTree_spec hcmp ht hs c
    have hlist : (c.onTree cmp t).1.toList = (c.onList cmp t.toList).1 := congrArg Prod.fst heq
    have hreply : (c.onTree cmp t).2 = (c.onList cmp t.toList).2 := congrArg Prod.snd heq
    obtain ⟨hbal', hasc', heq'⟩ := ih hbal hasc
    refine ⟨hbal', hasc', ?_⟩
    rw [Call234.run, Call234.run, ← hlist, ← hreply, ← heq']

end Runs

end Pebil

import Mathlib.Data.List.Induction
import Mathlib.Data.List.Perm.Basic
import Mathlib.Data.List.Range
import Mathlib.Tactic.ByContra
import Pebil.Lib.CircularList
import Pebil.Simulation.CacheLevel

/-!
# The history of true LRU (instcode/Simulation.cpp:1319–1361, 1426–1481)

Under `ReplacementPolicy_trulru` the ways of a set stand in a circular doubly linked list,
`historyUsed[setid]`, and `recentlyUsed[setid]` is where it starts. `MarkUsed` of the first
way turns the ring, of another one relinks it before the first. So the ring from
`recentlyUsed[setid]` on is the order in which the ways were last marked
(`lruOrdered_iff`), once `Init` has built a ring, which takes two ways.
-/

namespace Pebil

open CircularList

open scoped List

/-- The calls that read or change the history of a level. -/
inductive LevelOp where
  | markUsed (setid lineid : Nat)
  | replace (store setid lineid : Nat)
  | search (store : Nat)
  deriving DecidableEq, Repr

namespace LevelOp

/-- The call names a set and a way of the level. -/
def Valid (c : CacheLevel) : LevelOp → Prop
  | markUsed setid lineid => setid < c.countsets ∧ lineid < c.associativity
  | replace _ setid lineid => setid < c.countsets ∧ lineid < c.associativity
  | search _ => True

/-- The level after the call; `Search` only reads. -/
def apply (c : CacheLevel) (st : LevelState) : LevelOp → LevelState
  | markUsed setid lineid => Function.update st setid (c.markUsed (st setid) lineid)
  | replace store setid lineid =>
    Function.update st setid (c.replace (st setid) store lineid).1
  | search _ => st

/-- The way of `setid` that the call marks. -/
def marks (setid : Nat) : LevelOp → Option Nat
  | markUsed s lineid => if s = setid then some lineid else none
  | replace _ s lineid => if s = setid then some lineid else none
  | search _ => none

/-- The level after the calls, from the state `Init` leaves. -/
def run (c : CacheLevel) (ops : List LevelOp) : LevelState :=
  ops.foldl (apply c) c.initialState

/-- The ways of `setid` that the calls marked, the last one first. -/
def marked (setid : Nat) (ops : List LevelOp) : List Nat :=
  (ops.filterMap (marks setid)).reverse

end LevelOp

/-- When `w` was last marked, counted from 1; 0 if it never was. -/
def lastMarked : List Nat → Nat → Nat
  | [], _ => 0
  | v :: earlier, w => if v = w then earlier.length + 1 else lastMarked earlier w

namespace CacheLevel

/-- The history of a set is the order in which its ways were last marked. -/
structure LruOrdered (c : CacheLevel) (s : CacheSet) (marked : List Nat) : Prop where
  cycle : List.iterate s.next s.recentlyUsed c.associativity ~ List.range c.associativity
  closed : s.next^[c.associativity] s.recentlyUsed = s.recentlyUsed
  links : ∀ w < c.associativity, s.prev (s.next w) = w ∧ s.next (s.prev w) = w
  replaced : ∀ rand, c.lineToReplace s rand = s.recentlyUsed
  recent_lt : s.recentlyUsed < c.associativity
  least : ∀ w < c.associativity, lastMarked marked s.recentlyUsed ≤ lastMarked marked w
  last : ∀ w ∈ marked.head?, s.prev s.recentlyUsed = w
  walk : (List.iterate s.next s.recentlyUsed c.associativity).Pairwise
    fun v w => lastMarked marked v ≤ lastMarked marked w

/-! ## The order as a list -/

/-- The ways `ws`, each once, by when they were last marked. -/
structure MarkOrder (n : Nat) (marked ws : List Nat) : Prop where
  perm : ws ~ List.range n
  sorted : ws.Pairwise fun v w => lastMarked marked v ≤ lastMarked marked w
  last : ∀ w ∈ marked.head?, ws.getLast? = some w

variable {c : CacheLevel} {s : CacheSet} {n a w : Nat} {marked l us vs : List Nat}

theorem lastMarked_le (marked : List Nat) (w : Nat) : lastMarked marked w ≤ marked.length := by
  induction marked with
  | nil => exact le_refl 0
  | cons v earlier ih =>
    simp only [lastMarked, List.length_cons]
    split <;> omega

@[simp] theorem lastMarked_self : lastMarked (w :: marked) w = marked.length + 1 := by
  simp [lastMarked]

theorem lastMarked_of_ne {v : Nat} (h : v ≠ w) :
    lastMarked (w :: marked) v = lastMarked marked v := by
  simp [lastMarked, h.symm]

/-- A marked way goes to the end of the order. -/
theorem MarkOrder.mark (h : MarkOrder n marked (us ++ w :: vs)) :
    MarkOrder n (w :: marked) (us ++ vs ++ [w]) := by
  obtain ⟨hperm, hsorted, -⟩ := h
  have hmoved : us ++ w :: vs ~ us ++ vs ++ [w] := by
    rw [List.append_assoc]
    exact (@List.perm_append_comm _ [w] vs).append_left us
  have hnodup : (us ++ vs ++ [w]).Nodup :=
    hmoved.nodup_iff.mp (hperm.nodup_iff.mpr List.nodup_range)
  have hne : ∀ v ∈ us ++ vs, v ≠ w := fun v hv =>
    (List.nodup_append.mp hnodup).2.2 v hv w (by simp)
  constructor
  case perm => exact hmoved.symm.trans hperm
  case sorted =>
    refine List.pairwise_append.mpr ⟨?_, List.pairwise_singleton .., ?_⟩
    · have hrest : (us ++ vs).Pairwise fun v w => lastMarked marked v ≤ lastMarked marked w :=
        hsorted.sublist ((List.sublist_cons_self w vs).append_left us)
      refine hrest.imp_of_mem fun {v v'} hv hv' hle => ?_
      rw [lastMarked_of_ne (hne v hv), lastMarked_of_ne (hne v' hv')]
      exact hle
    · intro v hv v' hv'
      rw [List.mem_singleton.mp hv', lastMarked_self, lastMarked_of_ne (hne v hv)]
      exact Nat.le_succ_of_le (lastMarked_le marked v)
  case last => simp

/-! ## The invariant -/

/-- The links run once around the ways in the order of their marks, and the set starts at
the way at its head. -/
def Ordered (c : CacheLevel) (s : CacheSet) (marked : List Nat) : Prop :=
  ∃ l, Ring s.prev s.next s.recentlyUsed l ∧ MarkOrder c.associativity marked (s.recentlyUsed :: l)

/-- `Init` links two ways or more in the order of their indices. -/
theorem ordered_initial (h : 2 ≤ c.associativity) : c.Ordered c.initialSet [] := by
  obtain ⟨n, hn⟩ : ∃ n, c.associativity = n + 1 := ⟨c.associativity - 1, by omega⟩
  have hrange : 0 :: List.range' 1 n = List.range c.associativity := by
    rw [hn, List.range_eq_range', List.range'_succ]
  refine ⟨List.range' 1 n, ⟨?_, ?_⟩, ?_, ?_, ?_⟩
  · exact hrange ▸ List.nodup_range
  · show Linked _ _ (0 :: List.range' 1 n ++ [0])
    rw [hrange, hn]
    refine List.IsChain.append ((List.isChain_range_succ _ n).mpr fun m hm => ?_)
      (.singleton 0) ?_
    · simp only [initialSet, hn]
      refine ⟨?_, by simp⟩
      split
      · omega
      · exact Nat.mod_eq_of_lt (by omega)
    · intro x hx y hy
      rw [List.range_succ, List.getLast?_concat] at hx
      obtain rfl := Option.mem_some.mp hx
      obtain rfl := Option.mem_some.mp hy
      have hn0 : n ≠ 0 := by omega
      simp [initialSet, hn, hn0]
  · exact hrange ▸ List.Perm.refl _
  · exact List.pairwise_of_forall fun v w => le_refl 0
  · simp

/-- `MarkUsed` of a way moves it to the end of the order. -/
theorem Ordered.markUsed (hpol : c.replpolicy = .trulru) (htwo : 2 ≤ c.associativity)
    (h : c.Ordered s marked) (hw : w < c.associativity) :
    c.Ordered (c.markUsed s w) (w :: marked) := by
  obtain ⟨l, hring, horder⟩ := h
  have hmem : w ∈ s.recentlyUsed :: l := horder.perm.mem_iff.mpr (List.mem_range.mpr hw)
  simp only [CacheLevel.markUsed, hpol]
  split
  · -- the first way: the next one takes its place
    rename_i hfirst
    cases l with
    | nil =>
      have := horder.perm.length_eq
      simp only [List.length_singleton, List.length_range] at this
      omega
    | cons b l =>
      refine ⟨l ++ [w], ?_, ?_⟩
      · have hnext : s.next w = b := hfirst ▸ hring.next_head
        simp only [hnext]
        exact hfirst ▸ hring.rotate
      · have hnext : s.next w = b := hfirst ▸ hring.next_head
        simp only [hnext]
        rw [hfirst] at horder
        have hfront : MarkOrder c.associativity marked ([] ++ w :: b :: l) := horder
        exact hfront.mark
  · rename_i hfirst
    have hl : w ∈ l := (List.mem_cons.mp hmem).resolve_left (Ne.symm hfirst)
    obtain ⟨us, vs, rfl⟩ := List.append_of_mem hl
    refine ⟨us ++ vs ++ [w], hring.relinkBefore, ?_⟩
    have hinner : MarkOrder c.associativity marked ((s.recentlyUsed :: us) ++ w :: vs) := horder
    exact hinner.mark

/-- `Replace` changes the history as `MarkUsed` does. -/
theorem Ordered.replace {store : Nat} (hpol : c.replpolicy = .trulru)
    (htwo : 2 ≤ c.associativity) (h : c.Ordered s marked) (hw : w < c.associativity) :
    c.Ordered (c.replace s store w).1 (w :: marked) :=
  Ordered.markUsed hpol htwo
    (s := { s with
      contents := Function.update s.contents w store
      fastcontents := if c.highAssoc then
        Function.update (Function.update s.fastcontents (s.contents w) none) store (some w)
        else s.fastcontents }) h hw

theorem Ordered.lruOrdered (hpol : c.replpolicy = .trulru) (h : c.Ordered s marked) :
    c.LruOrdered s marked := by
  obtain ⟨l, hring, horder⟩ := h
  have hlength : l.length + 1 = c.associativity := by
    simpa using horder.perm.length_eq
  have hmem : ∀ w < c.associativity, w ∈ s.recentlyUsed :: l := fun w hw =>
    horder.perm.mem_iff.mpr (List.mem_range.mpr hw)
  have hwalk : List.iterate s.next s.recentlyUsed c.associativity = s.recentlyUsed :: l := by
    rw [← hlength]
    exact hring.iterate_eq
  constructor
  case cycle => rw [hwalk]; exact horder.perm
  case closed => rw [← hlength]; exact hring.iterate_length
  case links => exact fun w hw => hring.inverse (hmem w hw)
  case replaced => exact fun rand => by simp only [lineToReplace, hpol]
  case recent_lt => exact List.mem_range.mp (horder.perm.mem_iff.mp (List.mem_cons_self ..))
  case least =>
    intro w hw
    rcases List.mem_cons.mp (hmem w hw) with rfl | hl
    · exact le_refl _
    · exact List.rel_of_pairwise_cons horder.sorted hl
  case last =>
    exact fun w hw => hring.prev_head (horder.last w hw)
  case walk => rw [hwalk]; exact horder.sorted

/-! ## Runs -/

/-- One call keeps the history of every set ordered by the calls so far. -/
theorem Ordered.apply {st : LevelState} {op : LevelOp} {setid : Nat}
    (hpol : c.replpolicy = .trulru) (htwo : 2 ≤ c.associativity) (hop : op.Valid c)
    (h : c.Ordered (st setid) marked) :
    c.Ordered (op.apply c st setid) ((op.marks setid).toList ++ marked) := by
  cases op with
  | markUsed set lineid =>
    by_cases heq : set = setid
    · subst heq
      simp only [LevelOp.apply, LevelOp.marks, if_true, Function.update_self]
      exact h.markUsed hpol htwo hop.2
    · simp only [LevelOp.apply, LevelOp.marks, if_neg heq, Function.update_of_ne (Ne.symm heq)]
      exact h
  | replace store set lineid =>
    by_cases heq : set = setid
    · subst heq
      simp only [LevelOp.apply, LevelOp.marks, if_true, Function.update_self]
      exact h.replace hpol htwo hop.2
    · simp only [LevelOp.apply, LevelOp.marks, if_neg heq, Function.update_of_ne (Ne.symm heq)]
      exact h
  | search store => exact h

theorem LevelOp.marked_concat (setid : Nat) (ops : List LevelOp) (op : LevelOp) :
    LevelOp.marked setid (ops ++ [op]) =
      (op.marks setid).toList ++ LevelOp.marked setid ops := by
  cases h : op.marks setid <;> simp [LevelOp.marked, List.filterMap_append, h]

theorem ordered_run (hpol : c.replpolicy = .trulru) (htwo : 2 ≤ c.associativity)
    (ops : List LevelOp) (hops : ∀ op ∈ ops, op.Valid c) (setid : Nat) :
    c.Ordered (LevelOp.run c ops setid) (LevelOp.marked setid ops) := by
  induction ops using List.reverseRecOn with
  | nil => exact ordered_initial htwo
  | append_singleton ops op ih =>
    have hbefore := ih fun op hmem => hops op (List.mem_append_left _ hmem)
    rw [LevelOp.run, List.foldl_concat, LevelOp.marked_concat]
    exact hbefore.apply hpol htwo (hops op (by simp))

/-- The only way of a set with one way is linked to a way that is not there. -/
theorem not_lruOrdered_of_one (h : c.associativity = 1) : ¬ c.LruOrdered c.initialSet [] := by
  intro hordered
  have hclosed := hordered.closed
  rw [h] at hclosed
  simp [initialSet] at hclosed

/-- Whatever calls the level gets, the history of every set is a ring through its ways from
the least to the most recently marked one, if and only if the level has no set or more than
one way. -/
theorem lruOrdered_iff (lvl sizeInBytes assoc lineSz : Nat) (highAssoc : Bool) (hassoc : 1 ≤ assoc) :
    (∀ ops : List LevelOp,
      (∀ op ∈ ops, op.Valid (init lvl sizeInBytes assoc lineSz .trulru highAssoc)) →
      ∀ setid < (init lvl sizeInBytes assoc lineSz .trulru highAssoc).countsets,
        (init lvl sizeInBytes assoc lineSz .trulru highAssoc).LruOrdered
          (LevelOp.run (init lvl sizeInBytes assoc lineSz .trulru highAssoc) ops setid)
          (LevelOp.marked setid ops)) ↔
    (init lvl sizeInBytes assoc lineSz .trulru highAssoc).countsets = 0 ∨ 2 ≤ assoc := by
  constructor
  · intro h
    by_contra hnot
    obtain ⟨hsets, hone⟩ := not_or.mp hnot
    have hassoc' : assoc = 1 := by omega
    refine not_lruOrdered_of_one ?_ (h [] (by simp) 0 (Nat.pos_of_ne_zero hsets))
    exact hassoc'
  · rintro (hsets | htwo) ops hops setid hset
    · rw [hsets] at hset
      exact absurd hset (Nat.not_lt_zero setid)
    · exact (ordered_run rfl htwo ops hops setid).lruOrdered rfl

theorem lruOrdered_iff_pair :
    1 ≤ 2 ∧ (∀ ops : List LevelOp, (∀ op ∈ ops, op.Valid (init 0 1024 2 64 .trulru false)) →
      ∀ setid < (init 0 1024 2 64 .trulru false).countsets,
        (init 0 1024 2 64 .trulru false).LruOrdered
          (LevelOp.run (init 0 1024 2 64 .trulru false) ops setid)
          (LevelOp.marked setid ops)) :=
  ⟨by decide, (lruOrdered_iff 0 1024 2 64 false (by decide)).mpr (.inr (by decide))⟩

/-- A level of 1024 bytes in lines of 64, one way to a set: already the history that `Init`
builds goes from the only way to way 1, which the set does not have. -/
theorem lruOrdered_oneWay :
    ¬ ∀ ops : List LevelOp, (∀ op ∈ ops, op.Valid (init 0 1024 1 64 .trulru false)) →
      ∀ setid < (init 0 1024 1 64 .trulru false).countsets,
        (init 0 1024 1 64 .trulru false).LruOrdered
          (LevelOp.run (init 0 1024 1 64 .trulru false) ops setid)
          (LevelOp.marked setid ops) :=
  fun h => not_lruOrdered_of_one rfl (h [] (by simp) 0 (by decide))

end CacheLevel

end Pebil

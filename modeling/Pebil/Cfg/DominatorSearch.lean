import Mathlib.Data.Finset.Card
import Mathlib.Data.Finset.Range
import Mathlib.Order.Interval.Finset.Nat
import Pebil.Cfg.LengauerTarjan
import Pebil.Lib.Semidominator

/-!
# What the search of `LengauerTarjan` numbers (src/LengauerTarjan.C:35–60, 136–202)

The constructor gives every block a place (`new_placed`). The search then numbers the places it
finds, and what a part of it does is `Grows`: the new places get the next numbers, each hangs under
a place numbered before, and whatever is numbered between a place and the head of one of its edges
hangs under nothing before that place. Parts compose (`Grows.trans`), and a call is a part of its
caller's loop (`Grows.call`). The whole search numbers what the root reaches, and so gives a
depth-first tree of it (`depthFirstSearch_spec`).
-/

namespace Pebil

open Relation (ReflTransGen)
open Function (update)

namespace LengauerTarjan

/-! ## Places -/

/-- Every block has a place, the reachable blocks the first ones. -/
structure Placed (t : LengauerTarjan) (n : Nat) (isUnreachable : Nat → Bool) : Prop where
  count : t.nodeCount = n
  le : t.reachableCount ≤ n
  null : t.locToBasicBlock 0 = none
  block : ∀ v, 0 < v → v ≤ n → ∃ b < n, t.locToBasicBlock v = some b ∧ t.basicBlockToLoc b = v ∧
    (isUnreachable b = true ↔ t.reachableCount < v)
  loc : ∀ b < n, 0 < t.basicBlockToLoc b ∧ t.basicBlockToLoc b ≤ n ∧
    t.locToBasicBlock (t.basicBlockToLoc b) = some b

/-- The tables after `i` blocks. -/
structure Placing (n : Nat) (isUnreachable : Nat → Bool) (i : Nat) (p : LengauerTarjan × Nat) :
    Prop where
  node : p.1.nodeCount = n
  total : p.1.reachableCount + n = p.2 + i
  last_le : p.2 ≤ n
  null : p.1.locToBasicBlock 0 = none
  block : ∀ v, 0 < v → v ≤ p.1.reachableCount ∨ p.2 < v → v ≤ n → ∃ b < i,
    p.1.locToBasicBlock v = some b ∧ p.1.basicBlockToLoc b = v ∧
      (isUnreachable b = true ↔ p.2 < v)
  loc : ∀ b < i, 0 < p.1.basicBlockToLoc b ∧ p.1.basicBlockToLoc b ≤ n ∧
    (p.1.basicBlockToLoc b ≤ p.1.reachableCount ∨ p.2 < p.1.basicBlockToLoc b) ∧
    p.1.locToBasicBlock (p.1.basicBlockToLoc b) = some b

theorem Placing.place {n i : Nat} {isUnreachable : Nat → Bool} {p : LengauerTarjan × Nat}
    (h : Placing n isUnreachable i p) (hi : i < n) :
    Placing n isUnreachable (i + 1) (place isUnreachable p i) := by
  have htotal := h.total
  have hlast := h.last_le
  rw [LengauerTarjan.place]
  -- the new place is one that no block has, whichever end it is at
  have hupdate : ∀ k, 0 < k → k ≤ n → p.1.reachableCount < k → k ≤ p.2 →
      (∀ v, 0 < v → v ≤ p.1.reachableCount ∨ p.2 < v → v ≤ n → ∃ b < i,
        update p.1.locToBasicBlock k (some i) v = some b ∧
          update p.1.basicBlockToLoc i k b = v ∧ (isUnreachable b = true ↔ p.2 < v)) ∧
      ∀ b < i, update p.1.basicBlockToLoc i k b = p.1.basicBlockToLoc b ∧
        update p.1.locToBasicBlock k (some i) (p.1.basicBlockToLoc b) = some b := by
    intro k hk hkn hck hkl
    refine ⟨fun v hv hside hvn => ?_, fun b hb => ?_⟩
    · obtain ⟨b, hb, hloc, hback, hflag⟩ := h.block v hv hside hvn
      refine ⟨b, hb, ?_, ?_, hflag⟩
      · rw [Function.update_of_ne (by omega), hloc]
      · rw [Function.update_of_ne (Nat.ne_of_lt hb), hback]
    · obtain ⟨hpos, hle, hside, hloc⟩ := h.loc b hb
      rw [Function.update_of_ne (Nat.ne_of_lt hb), Function.update_of_ne (by omega), hloc]
      exact ⟨rfl, rfl⟩
  by_cases hflag : isUnreachable i = true
  · rw [if_pos hflag]
    obtain ⟨hblock, hloc⟩ := hupdate p.2 (by omega) hlast (by omega) (Nat.le_refl _)
    have hself : update p.1.locToBasicBlock p.2 (some i) p.2 = some i := Function.update_self _ _ _
    have hback : update p.1.basicBlockToLoc i p.2 i = p.2 := Function.update_self _ _ _
    refine ⟨h.node, by dsimp only; omega, by dsimp only; omega, ?_, fun v hv hside hvn => ?_,
      fun b hb => ?_⟩
    · exact (Function.update_of_ne (by omega) _ _).trans h.null
    · dsimp only at hside ⊢
      by_cases hvp : v = p.2
      · subst hvp
        exact ⟨i, Nat.lt_succ_self i, hself, hback, iff_of_true hflag (by omega)⟩
      · obtain ⟨b, hb, hloc, hback, hiff⟩ := hblock v hv (by omega) hvn
        refine ⟨b, Nat.lt_succ_of_lt hb, hloc, hback, hiff.trans ?_⟩
        omega
    · dsimp only
      rcases Nat.lt_succ_iff_lt_or_eq.mp hb with hb | rfl
      · obtain ⟨hpos, hle, hside, -⟩ := h.loc b hb
        rw [(hloc b hb).1]
        exact ⟨hpos, hle, by omega, (hloc b hb).2⟩
      · rw [hback]
        exact ⟨by omega, hlast, .inr (by omega), hself⟩
  · rw [if_neg hflag]
    obtain ⟨hblock, hloc⟩ :=
      hupdate (p.1.reachableCount + 1) (by omega) (by omega) (by omega) (by omega)
    have hself : update p.1.locToBasicBlock (p.1.reachableCount + 1) (some i)
        (p.1.reachableCount + 1) = some i := Function.update_self _ _ _
    have hback : update p.1.basicBlockToLoc i (p.1.reachableCount + 1) i =
        p.1.reachableCount + 1 := Function.update_self _ _ _
    refine ⟨h.node, by dsimp only; omega, hlast, ?_, fun v hv hside hvn => ?_, fun b hb => ?_⟩
    · show update p.1.locToBasicBlock (p.1.reachableCount + 1) (some i) 0 = none
      rw [Function.update_of_ne (Nat.succ_ne_zero _).symm, h.null]
    · dsimp only at hside ⊢
      by_cases hvc : v = p.1.reachableCount + 1
      · subst hvc
        exact ⟨i, Nat.lt_succ_self i, hself, hback, iff_of_false hflag (by omega)⟩
      · obtain ⟨b, hb, hloc, hback, hiff⟩ := hblock v hv (by omega) hvn
        exact ⟨b, Nat.lt_succ_of_lt hb, hloc, hback, hiff⟩
    · dsimp only
      rcases Nat.lt_succ_iff_lt_or_eq.mp hb with hb | rfl
      · obtain ⟨hpos, hle, hside, -⟩ := h.loc b hb
        rw [(hloc b hb).1]
        exact ⟨hpos, hle, by omega, (hloc b hb).2⟩
      · rw [hback]
        exact ⟨by omega, by omega, .inl (Nat.le_refl _), hself⟩

theorem foldl_placing {n : Nat} {isUnreachable : Nat → Bool} {p : LengauerTarjan × Nat}
    (h : Placing n isUnreachable 0 p) {i : Nat} (hi : i ≤ n) :
    Placing n isUnreachable i ((List.range i).foldl (place isUnreachable) p) := by
  induction i with
  | zero => exact h
  | succ i ih =>
    rw [List.range_succ, List.foldl_append]
    exact (ih (Nat.le_of_succ_le hi)).place hi

/-- The constructor fails no assertion and gives every block a place. -/
theorem new_placed (n root : Nat) (isUnreachable : Nat → Bool) (heap : LengauerTarjan) :
    ∃ t, new n root isUnreachable heap = some t ∧ t.Placed n isUnreachable ∧
      t.rootLoc = t.basicBlockToLoc root := by
  have hstart : Placing n isUnreachable 0 ({ heap with
      reachableCount := 0
      nodeCount := n
      locToBasicBlock := update heap.locToBasicBlock 0 none
      basicBlockToLoc := update heap.basicBlockToLoc n 0 }, n) :=
    ⟨rfl, Nat.zero_add n, Nat.le_refl n, by simp,
      fun v hv hside hvn => by dsimp only at hside; omega,
      fun b hb => absurd hb (Nat.not_lt_zero b)⟩
  have h := foldl_placing hstart (Nat.le_refl n)
  rw [new]
  dsimp only
  generalize (List.range n).foldl (place isUnreachable) _ = p at h
  have htotal := h.total
  have hmeet : p.2 = p.1.reachableCount := by omega
  rw [if_pos hmeet]
  refine ⟨_, rfl, ⟨h.node, hmeet ▸ h.last_le, h.null, fun v hv hvn => ?_, fun b hb => ?_⟩, rfl⟩
  · obtain ⟨b, hb, hloc, hback, hiff⟩ := h.block v hv (by omega) hvn
    exact ⟨b, hb, hloc, hback, hmeet ▸ hiff⟩
  · obtain ⟨hpos, hle, -, hloc⟩ := h.loc b hb
    exact ⟨hpos, hle, hloc⟩

/-! ## Parts of the search -/

variable {t : LengauerTarjan} {g : CodeGraph} {u v w x : Nat}
  {p p' p'' : DominatorArrays × Nat}

/-- The edges between places. -/
def Succ (t : LengauerTarjan) (g : CodeGraph) (v w : Nat) : Prop :=
  ∃ a b, t.locToBasicBlock v = some a ∧ b ∈ g.links.targetBlocks a ∧ t.basicBlockToLoc b = w

/-- The numbers are below the count, and the numbered places are alone in their trees. -/
structure Numbered (p : DominatorArrays × Nat) : Prop where
  le : ∀ x, p.1.semi x ≤ p.2
  alone : ∀ x, p.1.semi x ≠ 0 → p.1.label x = x ∧ p.1.ancestor x = 0 ∧ p.1.child x = 0

/-- Numbered in a part of the search. -/
def New (p p' : DominatorArrays × Nat) (x : Nat) : Prop := p.1.semi x = 0 ∧ p'.1.semi x ≠ 0

/-- What is new in two parts is new in one of them. -/
theorem New.cases (p' : DominatorArrays × Nat) (hx : New p p'' x) :
    New p p' x ∨ New p' p'' x := by
  by_cases hx' : p'.1.semi x = 0
  · exact .inr ⟨hx', hx.2⟩
  · exact .inl ⟨hx.1, hx'⟩

/-- A part of the search in which the new places hang under `v`. -/
structure Grows (t : LengauerTarjan) (g : CodeGraph) (v : Nat) (p p' : DominatorArrays × Nat) :
    Prop where
  count : p.2 ≤ p'.2
  kept : ∀ x, p.1.semi x ≠ 0 → p'.1.semi x = p.1.semi x ∧ p'.1.parent x = p.1.parent x
  vertex_kept : ∀ j ≤ p.2, p'.1.vertex j = p.1.vertex j
  bucket_kept : p'.1.bucket = p.1.bucket
  number : ∀ x, New p p' x →
    p.2 < p'.1.semi x ∧ p'.1.semi x ≤ p'.2 ∧ p'.1.vertex (p'.1.semi x) = x
  vertex : ∀ j, p.2 < j → j ≤ p'.2 → p.1.semi (p'.1.vertex j) = 0 ∧ p'.1.semi (p'.1.vertex j) = j
  parent : ∀ x, New p p' x → t.Succ g (p'.1.parent x) x ∧
    (p'.1.parent x = v ∨ New p p' (p'.1.parent x) ∧ p'.1.semi (p'.1.parent x) < p'.1.semi x)
  edge : ∀ x, New p p' x → ∀ w, t.Succ g x w → p'.1.semi w ≠ 0 ∧
    ∀ y, New p p' y → p'.1.semi x < p'.1.semi y → p'.1.semi y ≤ p'.1.semi w →
      p'.1.semi x ≤ p'.1.semi (p'.1.parent y)

namespace Grows

/-- Nothing is numbered, whatever becomes of the parents of places without a number. -/
theorem of_semi_eq (hsemi : p'.1.semi = p.1.semi) (hcount : p'.2 = p.2)
    (hvertex : p'.1.vertex = p.1.vertex) (hbucket : p'.1.bucket = p.1.bucket)
    (hparent : ∀ x, p.1.semi x ≠ 0 → p'.1.parent x = p.1.parent x) : Grows t g v p p' where
  count := Nat.le_of_eq hcount.symm
  kept x hx := ⟨congrFun hsemi x, hparent x hx⟩
  vertex_kept j _ := congrFun hvertex j
  bucket_kept := hbucket
  number x hx := absurd (congrFun hsemi x ▸ hx.1) hx.2
  vertex _ hlt hle := absurd (hcount ▸ hle) (Nat.not_le_of_lt hlt)
  parent x hx := absurd (congrFun hsemi x ▸ hx.1) hx.2
  edge x hx := absurd (congrFun hsemi x ▸ hx.1) hx.2

theorem refl (p : DominatorArrays × Nat) : Grows t g v p p :=
  of_semi_eq rfl rfl rfl rfl fun _ _ => rfl

theorem mono (h : Grows t g v p p') (hx : p.1.semi x ≠ 0) : p'.1.semi x ≠ 0 := by
  rw [(h.kept x hx).1]
  exact hx

theorem new_left (h' : Grows t g v p' p'') (hx : New p p' x) : New p p'' x :=
  ⟨hx.1, h'.mono hx.2⟩

theorem new_right (h : Grows t g v p p') (hx : New p' p'' x) : New p p'' x := by
  refine ⟨?_, hx.2⟩
  by_contra hne
  exact h.mono hne hx.1

theorem trans (h : Grows t g v p p') (h' : Grows t g v p' p'') (hp : Numbered p) :
    Grows t g v p p'' where
  count := Nat.le_trans h.count h'.count
  kept x hx := by
    have hx' := h.kept x hx
    have hx'' := h'.kept x (h.mono hx)
    exact ⟨hx''.1.trans hx'.1, hx''.2.trans hx'.2⟩
  vertex_kept j hj := (h'.vertex_kept j (Nat.le_trans hj h.count)).trans (h.vertex_kept j hj)
  bucket_kept := h'.bucket_kept.trans h.bucket_kept
  -- a place is new in one of the two parts, and what the first has numbered the second keeps
  number x hx := by
    rcases hx.cases p' with hx | hx
    · obtain ⟨hlt, hle, hvertex⟩ := h.number x hx
      rw [(h'.kept x hx.2).1, h'.vertex_kept _ hle]
      exact ⟨hlt, Nat.le_trans hle h'.count, hvertex⟩
    · obtain ⟨hlt, hle, hvertex⟩ := h'.number x hx
      exact ⟨Nat.lt_of_le_of_lt h.count hlt, hle, hvertex⟩
  vertex j hlt hle := by
    rcases Nat.lt_or_ge p'.2 j with hj | hj
    · obtain ⟨hzero, hsemi⟩ := h'.vertex j hj hle
      have hnew : New p' p'' (p''.1.vertex j) := ⟨hzero, by omega⟩
      exact ⟨(h.new_right hnew).1, hsemi⟩
    · obtain ⟨hzero, hsemi⟩ := h.vertex j hlt hj
      have hne : p'.1.semi (p'.1.vertex j) ≠ 0 := by omega
      rw [h'.vertex_kept j hj, (h'.kept _ hne).1]
      exact ⟨hzero, hsemi⟩
  parent x hx := by
    rcases hx.cases p' with hx | hx
    · obtain ⟨hsucc, hcases⟩ := h.parent x hx
      rw [(h'.kept x hx.2).1, (h'.kept x hx.2).2]
      refine ⟨hsucc, hcases.imp_right fun ⟨hnew, hlt⟩ => ?_⟩
      rw [(h'.kept _ hnew.2).1]
      exact ⟨h'.new_left hnew, hlt⟩
    · obtain ⟨hsucc, hcases⟩ := h'.parent x hx
      exact ⟨hsucc, hcases.imp_right fun ⟨hnew, hlt⟩ => ⟨h.new_right hnew, hlt⟩⟩
  edge x hx w hxw := by
    rcases hx.cases p' with hx | hx
    · obtain ⟨hw, hall⟩ := h.edge x hx w hxw
      refine ⟨h'.mono hw, fun y hy hxy hyw => ?_⟩
      have hle : p'.1.semi w ≤ p'.2 := by
        by_cases hold : p.1.semi w = 0
        · exact (h.number w ⟨hold, hw⟩).2.1
        · rw [(h.kept w hold).1]
          exact Nat.le_trans (hp.le w) h.count
      rw [(h'.kept x hx.2).1] at hxy ⊢
      rw [(h'.kept w hw).1] at hyw
      rcases hy.cases p' with hy | hy
      · rw [(h'.kept y hy.2).1] at hxy hyw
        rw [(h'.kept y hy.2).2]
        have hup := hall y hy hxy hyw
        have hne : p'.1.semi (p'.1.parent y) ≠ 0 := fun h0 => by
          have := (h.number x hx).1
          omega
        rwa [(h'.kept _ hne).1]
      · -- what the second part numbers comes after all of the first
        have := (h'.number y hy).1
        omega
    · obtain ⟨hw, hall⟩ := h'.edge x hx w hxw
      refine ⟨hw, fun y hy hxy hyw => ?_⟩
      rcases hy.cases p' with hy | hy
      -- what the first part numbers comes before `x`
      · have hx' := (h'.number x hx).1
        have hy' := (h.number y hy).2.1
        rw [(h'.kept y hy.2).1] at hxy
        omega
      · exact hall y hy hxy hyw

end Grows

/-- The arrays when `depthFirstSearch` has numbered its vertex. -/
def enter (v : Nat) (p : DominatorArrays × Nat) : DominatorArrays × Nat :=
  ({ p.1 with
    semi := update p.1.semi v (p.2 + 1)
    vertex := update p.1.vertex (p.2 + 1) v
    label := update p.1.label v v
    ancestor := update p.1.ancestor v 0
    child := update p.1.child v 0
    size := update p.1.size v 1 }, p.2 + 1)

/-- One target of the vertex. -/
def visitTarget (t : LengauerTarjan) (g : CodeGraph) (fuel v : Nat)
    (p : DominatorArrays × Nat) (target : Nat) : Option (DominatorArrays × Nat) :=
  if p.1.semi (t.basicBlockToLoc target) = 0 then
    t.depthFirstSearch g fuel (t.basicBlockToLoc target)
      ({ p.1 with parent := update p.1.parent (t.basicBlockToLoc target) v }, p.2)
  else some p

theorem depthFirstSearch_succ (fuel v : Nat) (p : DominatorArrays × Nat) :
    t.depthFirstSearch g (fuel + 1) v p = (t.locToBasicBlock v).bind fun bb =>
      ((g.links.targetBlocks bb).foldlM (t.visitTarget g fuel v) (enter v p)).bind fun p =>
        if g.noPath bb then none else some p := rfl

@[simp] theorem enter_semi_self (v : Nat) (p : DominatorArrays × Nat) :
    (enter v p).1.semi v = p.2 + 1 := Function.update_self _ _ _

theorem enter_semi_of_ne (h : x ≠ v) : (enter v p).1.semi x = p.1.semi x :=
  Function.update_of_ne h _ _

theorem Numbered.enter (hp : Numbered p) (v : Nat) : Numbered (enter v p) where
  le x := by
    by_cases hxv : x = v
    · rw [hxv, enter_semi_self]
      exact Nat.le_refl _
    · rw [enter_semi_of_ne hxv]
      exact Nat.le_succ_of_le (hp.le x)
  alone x hx := by
    by_cases hxv : x = v
    · subst hxv
      exact ⟨Function.update_self _ _ _, Function.update_self _ _ _, Function.update_self _ _ _⟩
    · rw [enter_semi_of_ne hxv] at hx
      obtain ⟨hlabel, hancestor, hchild⟩ := hp.alone x hx
      exact ⟨(Function.update_of_ne hxv _ _).trans hlabel,
        (Function.update_of_ne hxv _ _).trans hancestor,
        (Function.update_of_ne hxv _ _).trans hchild⟩

/-- A call for `w` is a part of the loop over the targets of its parent. -/
theorem Grows.call (h : Grows t g w (enter w p) p') (hw : p.1.semi w = 0)
    (hparent : p.1.parent w = v) (hvw : t.Succ g v w)
    (htargets : ∀ x, t.Succ g w x → p'.1.semi x ≠ 0) : Grows t g v p p' := by
  have hself : (enter w p).1.semi w ≠ 0 := by
    rw [enter_semi_self]
    exact Nat.succ_ne_zero _
  have hkept := h.kept w hself
  have hsemi : p'.1.semi w = p.2 + 1 := hkept.1.trans (enter_semi_self w p)
  have hcount : p.2 + 1 ≤ p'.2 := h.count
  have hvertex : p'.1.vertex (p.2 + 1) = w :=
    (h.vertex_kept _ (Nat.le_refl _)).trans (Function.update_self _ _ _)
  have hne : ∀ x, p.1.semi x ≠ 0 → x ≠ w := fun x hx heq => hx (heq ▸ hw)
  have hcases : ∀ x, New p p' x → x = w ∨ New (enter w p) p' x := fun x hx => by
    by_cases hxw : x = w
    · exact .inl hxw
    · exact .inr ⟨(enter_semi_of_ne hxw).trans hx.1, hx.2⟩
  have hin : ∀ x, New (enter w p) p' x → New p p' x := fun x hx => by
    have hxw : x ≠ w := fun heq => hself (heq ▸ hx.1)
    exact ⟨(enter_semi_of_ne hxw).symm.trans hx.1, hx.2⟩
  have hnum : ∀ x, New (enter w p) p' x → p.2 + 1 < p'.1.semi x := fun x hx => (h.number x hx).1
  exact {
    count := Nat.le_of_succ_le hcount
    kept := fun x hx => by
      have hx' := hne x hx
      have hkept := h.kept x (by rwa [enter_semi_of_ne hx'])
      exact ⟨hkept.1.trans (enter_semi_of_ne hx'), hkept.2⟩
    vertex_kept := fun j hj =>
      (h.vertex_kept j (Nat.le_succ_of_le hj)).trans (Function.update_of_ne (by omega) _ _)
    bucket_kept := h.bucket_kept
    number := fun x hx => by
      rcases hcases x hx with rfl | hx
      · rw [hsemi]
        exact ⟨Nat.lt_succ_self _, hcount, hvertex⟩
      · obtain ⟨hlt, hle, hvertex⟩ := h.number x hx
        exact ⟨Nat.lt_of_succ_lt hlt, hle, hvertex⟩
    vertex := fun j hlt hle => by
      rcases Nat.eq_or_lt_of_le (Nat.succ_le_of_lt hlt) with rfl | hlt
      · rw [hvertex]
        exact ⟨hw, hsemi⟩
      · obtain ⟨hzero, hj⟩ := h.vertex j hlt hle
        have hnew : New (enter w p) p' (p'.1.vertex j) := ⟨hzero, by omega⟩
        exact ⟨(hin _ hnew).1, hj⟩
    parent := fun x hx => by
      rcases hcases x hx with rfl | hx
      · rw [hkept.2.trans hparent]
        exact ⟨hvw, .inl rfl⟩
      · obtain ⟨hsucc, heq | ⟨hnew, hlt⟩⟩ := h.parent x hx
        · refine ⟨hsucc, .inr ?_⟩
          rw [heq, hsemi]
          exact ⟨⟨hw, hsemi ▸ Nat.succ_ne_zero _⟩, hnum x hx⟩
        · exact ⟨hsucc, .inr ⟨hin _ hnew, hlt⟩⟩
    edge := fun x hx y hxy => by
      rcases hcases x hx with rfl | hx
      · refine ⟨htargets y hxy, fun z hz hlt _ => ?_⟩
        rcases hcases z hz with rfl | hz
        · exact absurd hlt (Nat.lt_irrefl _)
        -- everything below `w` hangs under `w` or what was numbered after it
        rcases (h.parent z hz).2 with heq | ⟨hnew, -⟩
        · rw [heq]
        · rw [hsemi]
          exact Nat.le_of_lt (hnum _ hnew)
      · obtain ⟨hy, hall⟩ := h.edge x hx y hxy
        refine ⟨hy, fun z hz hlt hle => ?_⟩
        rcases hcases z hz with rfl | hz
        · have := hnum x hx
          omega
        · exact hall z hz hlt hle }

/-! ## The search -/

/-- The places not numbered yet. -/
def unvisited (n : Nat) (s : DominatorArrays) : Finset Nat :=
  (Finset.range (n + 1)).filter fun x => s.semi x = 0

theorem Grows.unvisited_le (h : Grows t g v p p') (n : Nat) :
    (unvisited n p'.1).card ≤ (unvisited n p.1).card := by
  refine Finset.card_le_card fun x hx => ?_
  rw [unvisited, Finset.mem_filter] at hx ⊢
  refine ⟨hx.1, ?_⟩
  by_contra hne
  exact h.mono hne hx.2

theorem unvisited_enter {n : Nat} (hv : v ≤ n) (hzero : p.1.semi v = 0) :
    (unvisited n (enter v p).1).card < (unvisited n p.1).card := by
  refine Finset.card_lt_card (Finset.ssubset_iff_subset_ne.mpr ⟨fun x hx => ?_, fun heq => ?_⟩)
  · rw [unvisited, Finset.mem_filter] at hx ⊢
    refine ⟨hx.1, ?_⟩
    have hxv : x ≠ v := by
      rintro rfl
      rw [enter_semi_self] at hx
      exact absurd hx.2 (Nat.succ_ne_zero _)
    rw [← hx.2, enter_semi_of_ne hxv]
  · have hmem : v ∈ unvisited n p.1 := by
      rw [unvisited, Finset.mem_filter, Finset.mem_range]
      exact ⟨Nat.lt_succ_of_le hv, hzero⟩
    rw [← heq, unvisited, Finset.mem_filter, enter_semi_self] at hmem
    exact absurd hmem.2 (Nat.succ_ne_zero _)

/-- The reachable blocks are the places up to `reachableCount`, and no edge leaves them. -/
def Closed (t : LengauerTarjan) (g : CodeGraph) : Prop :=
  ∀ v, 0 < v → v ≤ t.reachableCount → ∃ b, t.locToBasicBlock v = some b ∧ g.noPath b = false ∧
    ∀ c ∈ g.links.targetBlocks b, 0 < t.basicBlockToLoc c ∧ t.basicBlockToLoc c ≤ t.reachableCount

/-- What a call does after it has numbered its vertex, if there is fuel for the places not numbered
yet. -/
def CallsGrow (t : LengauerTarjan) (g : CodeGraph) (fuel : Nat) : Prop :=
  ∀ v p, 0 < v → v ≤ t.reachableCount → Numbered p → p.1.semi v = 0 →
    (unvisited t.reachableCount p.1).card ≤ fuel →
    ∃ p', t.depthFirstSearch g fuel v p = some p' ∧ Grows t g v (enter v p) p' ∧ Numbered p' ∧
      ∀ x, t.Succ g v x → p'.1.semi x ≠ 0

namespace CallsGrow

variable {fuel b c : Nat}

theorem visitTarget (h : CallsGrow t g fuel) (hb : t.locToBasicBlock v = some b)
    (hc : c ∈ g.links.targetBlocks b)
    (hloc : 0 < t.basicBlockToLoc c ∧ t.basicBlockToLoc c ≤ t.reachableCount) (hp : Numbered p)
    (hfuel : (unvisited t.reachableCount p.1).card ≤ fuel) :
    ∃ p', t.visitTarget g fuel v p c = some p' ∧ Grows t g v p p' ∧ Numbered p' ∧
      p'.1.semi (t.basicBlockToLoc c) ≠ 0 := by
  rw [LengauerTarjan.visitTarget]
  by_cases hvisited : p.1.semi (t.basicBlockToLoc c) = 0
  · rw [if_pos hvisited]
    have hset : Grows t g v p ({ p.1 with
        parent := update p.1.parent (t.basicBlockToLoc c) v }, p.2) :=
      .of_semi_eq rfl rfl rfl rfl fun x hx =>
        Function.update_of_ne (fun heq => hx (by rw [heq, hvisited])) _ _
    have hset' : Numbered ({ p.1 with
        parent := update p.1.parent (t.basicBlockToLoc c) v }, p.2) := ⟨hp.le, hp.alone⟩
    obtain ⟨p', hp', hgrows, hnum, hall⟩ := h _ _ hloc.1 hloc.2 hset' hvisited hfuel
    refine ⟨p', hp', ?_, hnum, ?_⟩
    · refine hset.trans (hgrows.call hvisited (Function.update_self _ _ _) ?_ hall) hp
      exact ⟨b, c, hb, hc, rfl⟩
    · refine hgrows.mono ?_
      rw [enter_semi_self]
      exact Nat.succ_ne_zero _
  · rw [if_neg hvisited]
    exact ⟨p, rfl, .refl p, hp, hvisited⟩

theorem visitTargets (h : CallsGrow t g fuel) (hb : t.locToBasicBlock v = some b)
    (hloc : ∀ c ∈ g.links.targetBlocks b,
      0 < t.basicBlockToLoc c ∧ t.basicBlockToLoc c ≤ t.reachableCount)
    {ts : List Nat} (hts : ∀ c ∈ ts, c ∈ g.links.targetBlocks b) (hp : Numbered p)
    (hfuel : (unvisited t.reachableCount p.1).card ≤ fuel) :
    ∃ p', ts.foldlM (t.visitTarget g fuel v) p = some p' ∧ Grows t g v p p' ∧ Numbered p' ∧
      ∀ c ∈ ts, p'.1.semi (t.basicBlockToLoc c) ≠ 0 := by
  induction ts generalizing p with
  | nil => exact ⟨p, rfl, .refl p, hp, fun c hc => absurd hc List.not_mem_nil⟩
  | cons c ts ih =>
    have hc := hts c List.mem_cons_self
    obtain ⟨p₁, hp₁, hgrows, hnum, hne⟩ := h.visitTarget hb hc (hloc c hc) hp hfuel
    obtain ⟨p', hp', hgrows', hnum', hall'⟩ := ih (fun d hd => hts d (List.mem_cons_of_mem _ hd))
      hnum (Nat.le_trans (hgrows.unvisited_le _) hfuel)
    refine ⟨p', ?_, hgrows.trans hgrows' hp, hnum', fun d hd => ?_⟩
    · rw [List.foldlM_cons, hp₁]
      exact hp'
    · rcases List.mem_cons.mp hd with rfl | hd
      · exact hgrows'.mono hne
      · exact hall' d hd

end CallsGrow

theorem search_grows (hclosed : Closed t g) (fuel : Nat) : CallsGrow t g fuel := by
  induction fuel with
  | zero =>
    intro v p hv hvn hp hzero hfuel
    -- `v` itself is not numbered yet
    have hmem : v ∈ unvisited t.reachableCount p.1 := by
      rw [unvisited, Finset.mem_filter, Finset.mem_range]
      exact ⟨Nat.lt_succ_of_le hvn, hzero⟩
    exact absurd hfuel (Nat.not_le_of_lt (Finset.card_pos.mpr ⟨v, hmem⟩))
  | succ fuel ih =>
    intro v p hv hvn hp hzero hfuel
    obtain ⟨b, hb, hflag, htargets⟩ := hclosed v hv hvn
    have hless : (unvisited t.reachableCount (enter v p).1).card ≤ fuel := by
      have := unvisited_enter (p := p) hvn hzero
      omega
    obtain ⟨p', hp', hgrows, hnum, hall⟩ :=
      ih.visitTargets hb htargets (fun _ hc => hc) (hp.enter v) hless
    refine ⟨p', ?_, hgrows, hnum, ?_⟩
    · rw [depthFirstSearch_succ, hb, Option.bind_some, hp', Option.bind_some, hflag]
      rfl
    · rintro x ⟨a, c, ha, hc, rfl⟩
      obtain rfl := Option.some.inj (hb.symm.trans ha)
      exact hall c hc

/-! ## The tree of the search -/

/-- A search from `v` with nothing numbered before. -/
structure Searched (t : LengauerTarjan) (g : CodeGraph) (v : Nat) (s s' : DominatorArrays)
    (k : Nat) : Prop where
  unnumbered : ∀ x, s.semi x = 0
  grows : Grows t g v (enter v (s, 0)) (s', k)
  numbered : Numbered (s', k)
  targets : ∀ x, t.Succ g v x → s'.semi x ≠ 0

namespace Searched

variable {s s' : DominatorArrays} {k : Nat}

theorem semi_self (h : Searched t g v s s' k) : s'.semi v = 1 := by
  rw [(h.grows.kept v (by rw [enter_semi_self]; exact Nat.succ_ne_zero _)).1]
  exact enter_semi_self _ _

theorem new_of_ne (h : Searched t g v s s' k) (hx : s'.semi x ≠ 0) (hxv : x ≠ v) :
    New (enter v (s, 0)) (s', k) x := ⟨(enter_semi_of_ne hxv).trans (h.unnumbered x), hx⟩

/-- The places that the search numbers are those that it reaches. -/
theorem reach_iff (h : Searched t g v s s' k) (x : Nat) :
    ReflTransGen (t.Succ g) v x ↔ s'.semi x ≠ 0 := by
  constructor
  · intro hpath
    induction hpath with
    | refl => exact h.semi_self ▸ Nat.one_ne_zero
    | @tail y z _ hyz ih =>
      by_cases hyv : y = v
      · exact h.targets z (hyv ▸ hyz)
      · exact (h.grows.edge y (h.new_of_ne ih hyv) z hyz).1
  · -- by induction on the number, since a parent has a smaller one
    intro hx
    induction hn : s'.semi x using Nat.strongRecOn generalizing x with
    | ind n ih =>
      by_cases hxv : x = v
      · exact hxv ▸ .refl
      obtain ⟨hsucc, heq | ⟨hparent, hlt⟩⟩ := h.grows.parent x (h.new_of_ne hx hxv)
      · exact .single (heq ▸ hsucc)
      · exact (ih _ (hn ▸ hlt) _ hparent.2 rfl).tail hsucc

theorem isNew (h : Searched t g v s s' k) (hx : ReflTransGen (t.Succ g) v x) (hxv : x ≠ v) :
    New (enter v (s, 0)) (s', k) x := h.new_of_ne ((h.reach_iff x).mp hx) hxv

theorem semi_pos (h : Searched t g v s s' k) (hx : ReflTransGen (t.Succ g) v x) :
    0 < s'.semi x := Nat.pos_of_ne_zero ((h.reach_iff x).mp hx)

theorem vertex_semi (h : Searched t g v s s' k) (hx : ReflTransGen (t.Succ g) v x) :
    s'.vertex (s'.semi x) = x := by
  by_cases hxv : x = v
  · rw [hxv, h.semi_self]
    have hfirst : (enter v (s, 0)).1.vertex 1 = v := by simp [enter]
    exact (h.grows.vertex_kept 1 (Nat.le_refl 1)).trans hfirst
  · exact (h.grows.number x (h.isNew hx hxv)).2.2

theorem parent (h : Searched t g v s s' k) (hx : ReflTransGen (t.Succ g) v x) (hxv : x ≠ v) :
    ReflTransGen (t.Succ g) v (s'.parent x) ∧ t.Succ g (s'.parent x) x ∧
      s'.semi (s'.parent x) < s'.semi x := by
  obtain ⟨hsucc, heq | ⟨hup, hlt⟩⟩ := h.grows.parent x (h.isNew hx hxv)
  · have heq : s'.parent x = v := heq
    have hone := (h.grows.number x (h.isNew hx hxv)).1
    rw [heq, h.semi_self]
    exact ⟨.refl, heq ▸ hsucc, hone⟩
  · exact ⟨(h.reach_iff _).mpr hup.2, hsucc, hlt⟩

/-- The tree of the numbers and parents. -/
def tree (h : Searched t g v s s' k) : DfsTree (t.Succ g) v where
  num := s'.semi
  parent := s'.parent
  injective ha hb heq := by rw [← h.vertex_semi ha, heq, h.vertex_semi hb]
  reach_parent hw hne := (h.parent hw hne).1
  succ_parent hw hne := (h.parent hw hne).2.1
  parent_lt hw hne := (h.parent hw hne).2.2
  edge := fun {u w} hu huw y hy hlt hyw => by
    have hyv : y ≠ v := fun heq => by
      have := h.semi_pos hu
      rw [heq, h.semi_self] at hlt
      omega
    by_cases huv : u = v
    -- no number is before that of the root
    · rw [huv, h.semi_self]
      exact h.semi_pos (h.parent hy hyv).1
    · exact (h.grows.edge u (h.isNew hu huv) w huw).2 y (h.isNew hy hyv) hlt hyw

/-- Every number is that of a place. -/
theorem reach_vertex (h : Searched t g v s s' k) {j : Nat} (hj : 0 < j) (hjk : j ≤ k) :
    ReflTransGen (t.Succ g) v (s'.vertex j) ∧ s'.semi (s'.vertex j) = j := by
  rcases Nat.eq_or_lt_of_le (Nat.succ_le_of_lt hj) with rfl | hlt
  · have hone : s'.vertex 1 = v := h.semi_self ▸ h.vertex_semi .refl
    rw [hone]
    exact ⟨.refl, h.semi_self⟩
  · have hj' := (h.grows.vertex j hlt hjk).2
    exact ⟨(h.reach_iff _).mpr (by rw [hj']; exact Nat.ne_of_gt hj), hj'⟩

/-- There are as many numbers as places. -/
theorem count_eq (h : Searched t g v s s' k)
    (hin : ∀ x, ReflTransGen (t.Succ g) v x ↔ 0 < x ∧ x ≤ t.reachableCount) :
    k = t.reachableCount := by
  -- `vertex` and `semi` are injections between the numbers and the places
  apply Nat.le_antisymm
  · have hcard := Finset.card_le_card_of_injOn (s := Finset.Icc 1 k)
      (t := Finset.Icc 1 t.reachableCount) s'.vertex (fun j hj => ?_) (fun a ha b hb heq => ?_)
    · simpa using hcard
    · obtain ⟨hj, hjk⟩ := Finset.mem_Icc.mp hj
      exact Finset.mem_coe.mpr (Finset.mem_Icc.mpr ((hin _).mp (h.reach_vertex hj hjk).1))
    · obtain ⟨ha, hak⟩ := Finset.mem_Icc.mp (Finset.mem_coe.mp ha)
      obtain ⟨hb, hbk⟩ := Finset.mem_Icc.mp (Finset.mem_coe.mp hb)
      rw [← (h.reach_vertex ha hak).2, heq, (h.reach_vertex hb hbk).2]
  · have hcard := Finset.card_le_card_of_injOn (s := Finset.Icc 1 t.reachableCount)
      (t := Finset.Icc 1 k) s'.semi (fun x hx => ?_) (fun a ha b hb heq => ?_)
    · simpa using hcard
    · have hx := (hin x).mpr (Finset.mem_Icc.mp hx)
      exact Finset.mem_coe.mpr (Finset.mem_Icc.mpr ⟨h.semi_pos hx, h.numbered.le x⟩)
    · exact h.tree.injective ((hin a).mpr (Finset.mem_Icc.mp (Finset.mem_coe.mp ha)))
        ((hin b).mpr (Finset.mem_Icc.mp (Finset.mem_coe.mp hb))) heq

end Searched

/-- The numbers of the tree are those from 1 to `reachableCount`, and its vertices are the places up
to there. -/
structure Full (t : LengauerTarjan) (T : DfsTree (t.Succ g) t.rootLoc) : Prop where
  reach : ∀ x, T.Reach x ↔ 0 < x ∧ x ≤ t.reachableCount
  num : ∀ x, T.Reach x → 0 < T.num x ∧ T.num x ≤ t.reachableCount
  vertex : ∀ j, 0 < j → j ≤ t.reachableCount → ∃ x, T.Reach x ∧ T.num x = j

/-- No path leaves the reachable places. -/
theorem Closed.reach (hclosed : Closed t g) (hv : 0 < v ∧ v ≤ t.reachableCount)
    (hx : ReflTransGen (t.Succ g) v x) : 0 < x ∧ x ≤ t.reachableCount := by
  induction hx with
  | refl => exact hv
  | @tail y z _ hyz ih =>
    obtain ⟨b, hb, -, hts⟩ := hclosed y ih.1 ih.2
    obtain ⟨a, c, ha, hc, rfl⟩ := hyz
    obtain rfl := Option.some.inj (hb.symm.trans ha)
    exact hts c hc

/-- The search ends and fails no assertion, and its numbers and parents are a depth-first tree of
what the root reaches. -/
theorem depthFirstSearch_spec (hclosed : Closed t g) {s : DominatorArrays} {fuel : Nat}
    (hroot : 0 < t.rootLoc ∧ t.rootLoc ≤ t.reachableCount) (hempty : ∀ x, s.semi x = 0)
    (hfuel : t.reachableCount < fuel)
    (hall : ∀ x, 0 < x → x ≤ t.reachableCount → ReflTransGen (t.Succ g) t.rootLoc x) :
    ∃ s' k, ∃ T : DfsTree (t.Succ g) t.rootLoc,
      t.depthFirstSearch g fuel t.rootLoc (s, 0) = some (s', k) ∧ T.num = s'.semi ∧
      T.parent = s'.parent ∧ Full t T ∧ (∀ x, T.Reach x → s'.vertex (T.num x) = x) ∧
      (∀ x, T.Reach x → s'.label x = x ∧ s'.ancestor x = 0 ∧ s'.child x = 0) ∧
      s'.bucket = s.bucket := by
  have hstart : Numbered (s, 0) :=
    ⟨fun x => Nat.le_of_eq (hempty x), fun x hx => absurd (hempty x) hx⟩
  have hcard : (unvisited t.reachableCount s).card ≤ fuel :=
    Nat.le_trans (Finset.card_filter_le _ _) ((Finset.card_range _).trans_le hfuel)
  obtain ⟨⟨s', k⟩, hsearch, hgrows, hnum, htargets⟩ :=
    search_grows hclosed fuel _ _ hroot.1 hroot.2 hstart (hempty _) hcard
  have h : Searched t g t.rootLoc s s' k := ⟨hempty, hgrows, hnum, htargets⟩
  have hin : ∀ x, ReflTransGen (t.Succ g) t.rootLoc x ↔ 0 < x ∧ x ≤ t.reachableCount :=
    fun x => ⟨hclosed.reach hroot, fun hx => hall x hx.1 hx.2⟩
  have hcount := h.count_eq hin
  refine ⟨s', k, h.tree, hsearch, rfl, rfl, ⟨hin, fun x hx => ?_, fun j hj hjk => ?_⟩,
    fun x hx => h.vertex_semi hx, fun x hx => hnum.alone x ((h.reach_iff x).mp hx),
    hgrows.bucket_kept⟩
  · exact ⟨h.semi_pos hx, hcount ▸ hnum.le x⟩
  · exact ⟨_, h.reach_vertex hj (hcount ▸ hjk)⟩

end LengauerTarjan

end Pebil

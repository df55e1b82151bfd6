import Mathlib.Algebra.Group.Nat.Defs
import Mathlib.Data.List.Basic
import Mathlib.Data.List.Pairwise
import Pebil.Reuse.Tree234

/-!
# The tree is a sorted list

`flatten` is the list of a tree's elements, and `Ok` is what the operations keep: every count is the
number of elements under the child, and a node has at most three elements and at least one. Adding
puts the new element between those that compare greater and those that compare less, and deleting
takes away the element at a position.
-/

namespace Pebil

open Node234

variable {α κ : Type}

/-! ## The elements of a tree -/

/-- The elements under a subtree, in order. -/
def flatten : (h : Nat) → Subtree234 α h → List α
  | 0, _ => []
  | h + 1, n => flatten h n.first.node ++ n.rest.flatMap fun r => r.1 :: flatten h r.2.node

/-- The elements of a tree. -/
def Tree234.toList (t : Tree234 α) : List α := flatten t.height t.root

section Lists

variable {h : Nat}

/-- What stands in a node before a child. -/
def leftList : List (Kid234 (Subtree234 α h) × α) → List α
  | [] => []
  | (k, e) :: left => leftList left ++ (flatten h k.node ++ [e])

/-- What stands in a node behind its first child. -/
def restList : List (α × Kid234 (Subtree234 α h)) → List α
  | [] => []
  | (e, k) :: rest => e :: (flatten h k.node ++ restList rest)

theorem flatten_succ (n : Node234 α (Subtree234 α h)) :
    flatten (h + 1) n = flatten h n.first.node ++ restList n.rest := by
  have hrest : ∀ rest : List (α × Kid234 (Subtree234 α h)),
      (rest.flatMap fun r => r.1 :: flatten h r.2.node) = restList rest := by
    intro rest
    induction rest with
    | nil => rfl
    | cons r rest ih => rw [List.flatMap_cons, ih, restList, List.cons_append]
  exact congrArg (flatten h n.first.node ++ ·) (hrest n.rest)

theorem restList_append (r s : List (α × Kid234 (Subtree234 α h))) :
    restList (r ++ s) = restList r ++ restList s := by
  induction r with
  | nil => rfl
  | cons x r ih => simp [restList, ih]

theorem flatten_close (left : List (Kid234 (Subtree234 α h) × α)) (kid : Kid234 (Subtree234 α h))
    (right : List (α × Kid234 (Subtree234 α h))) :
    flatten (h + 1) (close left kid right) =
      leftList left ++ (flatten h kid.node ++ restList right) := by
  induction left generalizing kid right with
  | nil => rw [close, flatten_succ, leftList, List.nil_append]
  | cons l left ih =>
    rw [close, ih]
    simp [restList, leftList]

end Lists

/-! ## What the operations keep -/

/-- The counts are right, and a node has one to three elements. -/
def Ok : (h : Nat) → Subtree234 α h → Prop
  | 0, _ => True
  | h + 1, n =>
    (n.first.count = (flatten h n.first.node).length ∧ Ok h n.first.node) ∧
      (∀ r ∈ n.rest, r.2.count = (flatten h r.2.node).length ∧ Ok h r.2.node) ∧
      1 ≤ n.rest.length ∧ n.rest.length ≤ 3

/-- The tree is as the operations keep it. -/
def Tree234.Balanced (t : Tree234 α) : Prop := Ok t.height t.root

section Kids

variable {h : Nat}

/-- A child is as its node says. -/
def KidOk (k : Kid234 (Subtree234 α h)) : Prop :=
  k.count = (flatten h k.node).length ∧ Ok h k.node

/-- The children of a node are as it says. -/
def KidsOk (n : Node234 α (Subtree234 α h)) : Prop := KidOk n.first ∧ ∀ r ∈ n.rest, KidOk r.2

theorem ok_succ {n : Node234 α (Subtree234 α h)} :
    Ok (h + 1) n ↔ KidsOk n ∧ 1 ≤ n.rest.length ∧ n.rest.length ≤ 3 := by
  simp only [Ok, KidsOk, KidOk, and_assoc]

theorem length_close (left : List (Kid234 (Subtree234 α h) × α)) (kid : Kid234 (Subtree234 α h))
    (right : List (α × Kid234 (Subtree234 α h))) :
    (close left kid right).rest.length = left.length + right.length := by
  induction left generalizing kid right with
  | nil => rw [close, List.length_nil, Nat.zero_add]
  | cons l left ih =>
    rw [close, ih]
    simp only [List.length_cons]
    omega

theorem kidsOk_close {left : List (Kid234 (Subtree234 α h) × α)} {kid : Kid234 (Subtree234 α h)}
    {right : List (α × Kid234 (Subtree234 α h))} :
    KidsOk (close left kid right) ↔
      (∀ l ∈ left, KidOk l.1) ∧ KidOk kid ∧ ∀ r ∈ right, KidOk r.2 := by
  induction left generalizing kid right with
  | nil => simp [close, KidsOk]
  | cons l left ih =>
    rw [close, ih, List.forall_mem_cons, List.forall_mem_cons]
    tauto

theorem restCount_eq {rest : List (α × Kid234 (Subtree234 α h))} (hrest : ∀ r ∈ rest, KidOk r.2) :
    restCount rest = (restList rest).length := by
  induction rest with
  | nil => rfl
  | cons r rest ih =>
    obtain ⟨hr, hrest⟩ := List.forall_mem_cons.mp hrest
    rw [restCount, ih hrest, hr.1]
    simp only [restList, List.length_cons, List.length_append]
    omega

theorem KidsOk.count {n : Node234 α (Subtree234 α h)} (hn : KidsOk n) :
    n.count = (flatten (h + 1) n).length := by
  rw [Node234.count, hn.1.1, restCount_eq hn.2, flatten_succ, List.length_append]

theorem kidOk_counted {n : Node234 α (Subtree234 α h)} (hn : KidsOk n) (hpos : 1 ≤ n.rest.length)
    (hle : n.rest.length ≤ 3) : KidOk (counted n) :=
  ⟨hn.count, ok_succ.mpr ⟨hn, hpos, hle⟩⟩

end Kids

theorem Ok.countnode : ∀ {h : Nat} {t : Subtree234 α h}, Ok h t →
    countnode234 t = (flatten h t).length
  | 0, _, _ => rfl
  | _ + 1, _, ht => (ok_succ.mp ht).1.count

/-! ## Going down by comparison -/

/-- What the comparisons give never goes up along the list, and is 0 at most once. -/
def Directed (c : α → Int) (s : List α) : Prop := s.Pairwise fun y z => 0 ≤ c z → 0 < c y

section Descend

variable {h : Nat} {c : α → Int} {left : List (Kid234 (Subtree234 α h) × α)}
  {kid : Kid234 (Subtree234 α h)} {rest : List (α × Kid234 (Subtree234 α h))}

theorem Directed.before {a b : List α} {x : α} (hdir : Directed c (a ++ x :: b)) (hx : 0 ≤ c x) :
    ∀ y ∈ a, 0 < c y := fun y hy =>
  (List.pairwise_append.mp hdir).2.2 y hy x List.mem_cons_self hx

theorem Directed.behind {a b : List α} {x : α} (hdir : Directed c (a ++ x :: b)) (hx : c x ≤ 0) :
    ∀ y ∈ b, c y < 0 := fun y hy => by
  have hlt := (List.pairwise_cons.mp (List.pairwise_append.mp hdir).2.1).1 y hy
  omega

theorem descend_inl {x : α} (hdes : descend c left kid rest = .inl x) :
    x ∈ restList rest ∧ c x = 0 := by
  induction rest generalizing left kid with
  | nil => cases hdes
  | cons r rest ih =>
    rw [descend] at hdes
    split at hdes
    · cases hdes
    · split at hdes
      · rename_i hzero
        obtain rfl := Sum.inl.inj hdes
        exact ⟨List.mem_cons_self, hzero⟩
      · obtain ⟨hmem, hzero⟩ := ih hdes
        exact ⟨List.mem_cons_of_mem _ (List.mem_append_right _ hmem), hzero⟩

theorem descend_inr {g : Gap α (Subtree234 α h)} (hdes : descend c left kid rest = .inr g)
    (hdir : Directed c (leftList left ++ (flatten h kid.node ++ restList rest)))
    (hleft : ∀ y ∈ leftList left, 0 < c y) :
    close g.left g.kid g.right = close left kid rest ∧ (∀ y ∈ leftList g.left, 0 < c y) ∧
      ∀ y ∈ restList g.right, c y < 0 := by
  induction rest generalizing left kid with
  | nil =>
    obtain rfl := Sum.inr.inj hdes
    exact ⟨rfl, hleft, fun y hy => absurd hy List.not_mem_nil⟩
  | cons r rest ih =>
    obtain ⟨x, k⟩ := r
    have hdir' : Directed c ((leftList left ++ flatten h kid.node) ++
        x :: (flatten h k.node ++ restList rest)) := by
      rw [List.append_assoc]
      exact hdir
    rw [descend] at hdes
    split at hdes
    · rename_i hneg
      obtain rfl := Sum.inr.inj hdes
      exact ⟨rfl, hleft, List.forall_mem_cons.mpr ⟨hneg, hdir'.behind (Int.le_of_lt hneg)⟩⟩
    · split at hdes
      · cases hdes
      · rename_i hneg hzero
        have hpos : 0 < c x := by omega
        refine ih hdes ?_ fun y hy => ?_
        · simpa [leftList, restList] using hdir
        · simp only [leftList, List.mem_append, List.mem_singleton] at hy
          obtain hy | hy | rfl := hy
          · exact hleft y hy
          · exact hdir'.before (Int.le_of_lt hpos) y (List.mem_append_right _ hy)
          · exact hpos

end Descend

/-! ## Adding -/

section Add

variable {c : α → Int} {e : α}

/-- What has come back stands for the list with the element in it. -/
def Added234.Holds {h : Nat} (c : α → Int) (e : α) (s : List α) :
    Added234 α (Subtree234 α h) → Prop
  | .found x => x ∈ s ∧ c x = 0
  | .fits t => Ok h t ∧ ∃ a b, s = a ++ b ∧ flatten h t = a ++ e :: b ∧
      (∀ y ∈ a, 0 < c y) ∧ ∀ y ∈ b, c y < 0
  | .splits l x r => KidOk l ∧ KidOk r ∧ ∃ a b, s = a ++ b ∧
      flatten h l.node ++ x :: flatten h r.node = a ++ e :: b ∧
      (∀ y ∈ a, 0 < c y) ∧ ∀ y ∈ b, c y < 0

/-- An element goes into a gap, with a subtree on each side. -/
theorem insert_holds {h : Nat} {g : Gap α (Subtree234 α h)} {n : Node234 α (Subtree234 α h)}
    {l r : Kid234 (Subtree234 α h)} {x : α} (hn : Ok (h + 1) n)
    (hg : close g.left g.kid g.right = n) (hl : KidOk l) (hr : KidOk r) :
    (∃ t, g.insert l x r = .fits t ∧ Ok (h + 1) t ∧ flatten (h + 1) t =
        leftList g.left ++ (flatten h l.node ++ x :: (flatten h r.node ++ restList g.right))) ∨
      ∃ l' y r', g.insert l x r = .splits l' y r' ∧ KidOk l' ∧ KidOk r' ∧
        flatten (h + 1) l'.node ++ y :: flatten (h + 1) r'.node =
          leftList g.left ++ (flatten h l.node ++ x :: (flatten h r.node ++ restList g.right)) := by
  obtain ⟨hkids, hpos, hle⟩ := ok_succ.mp hn
  rw [← hg] at hkids hpos hle
  obtain ⟨hleft, -, hright⟩ := kidsOk_close.mp hkids
  rw [length_close] at hpos hle
  have hkids' : KidsOk (close g.left l ((x, r) :: g.right)) :=
    kidsOk_close.mpr ⟨hleft, hl, List.forall_mem_cons.mpr ⟨hr, hright⟩⟩
  have hlen : (close g.left l ((x, r) :: g.right)).rest.length =
      g.left.length + g.right.length + 1 := by
    rw [length_close, List.length_cons, Nat.add_assoc]
  have hflat : _ = leftList g.left ++
      (flatten h l.node ++ x :: (flatten h r.node ++ restList g.right)) :=
    flatten_close g.left l ((x, r) :: g.right)
  rw [← hflat, Gap.insert]
  generalize close g.left l ((x, r) :: g.right) = m at hkids' hlen
  obtain ⟨first, rest⟩ := m
  obtain ⟨hfirst, hrest⟩ := hkids'
  dsimp only at hlen hfirst hrest
  have hfits : rest.length ≤ 3 → Ok (h + 1) (⟨first, rest⟩ : Node234 α (Subtree234 α h)) :=
    fun hle => ok_succ.mpr ⟨⟨hfirst, hrest⟩, by dsimp only; omega, hle⟩
  rcases rest with _ | ⟨p, _ | ⟨q, _ | ⟨s, _ | ⟨u, _ | ⟨v, rest⟩⟩⟩⟩⟩
  · exact .inl ⟨_, rfl, hfits (by simp), rfl⟩
  · exact .inl ⟨_, rfl, hfits (by simp), rfl⟩
  · exact .inl ⟨_, rfl, hfits (by simp), rfl⟩
  · exact .inl ⟨_, rfl, hfits (by simp), rfl⟩
  · -- the node is divided at the third of its four elements
    refine .inr ⟨_, _, _, rfl, kidOk_counted ⟨hfirst, ?_⟩ ?_ ?_, kidOk_counted ⟨?_, ?_⟩ ?_ ?_, ?_⟩
    · intro z hz
      exact hrest z (by simp at hz ⊢; tauto)
    · simp
    · simp
    · exact hrest s (by simp)
    · intro z hz
      exact hrest z (by simp at hz ⊢; tauto)
    · simp
    · simp
    · simp [flatten_succ, restList]
  · simp only [List.length_cons] at hlen
    omega

theorem addInternal_node {h : Nat} (n : Node234 α (Subtree234 α h)) :
    addInternal c e (h + 1) n =
      match descend c [] n.first n.rest with
      | .inl x => .found x
      | .inr g =>
        match addInternal c e h g.kid.node with
        | .found x => .found x
        | .fits t => .fits (close g.left ⟨t, countnode234 t⟩ g.right)
        | .splits left x right => g.insert left x right := rfl

/-- Adding to a node, where adding to its children is right. -/
theorem addInternal_succ {h : Nat} {n : Node234 α (Subtree234 α h)} (hn : Ok (h + 1) n)
    (hdir : Directed c (flatten (h + 1) n))
    (ih : ∀ t : Subtree234 α h, Ok h t → Directed c (flatten h t) →
      (addInternal c e h t).Holds c e (flatten h t)) :
    (addInternal c e (h + 1) n).Holds c e (flatten (h + 1) n) := by
  have hdir' : Directed c (leftList ([] : List (Kid234 (Subtree234 α h) × α)) ++
      (flatten h n.first.node ++ restList n.rest)) := by
    rw [leftList, List.nil_append, ← flatten_succ]
    exact hdir
  rw [addInternal_node]
  cases hdes : descend c [] n.first n.rest with
  | inl x =>
    obtain ⟨hmem, hzero⟩ := descend_inl hdes
    refine ⟨?_, hzero⟩
    rw [flatten_succ]
    exact List.mem_append_right _ hmem
  | inr g =>
    obtain ⟨hg, hleft, hright⟩ := descend_inr hdes hdir' fun y hy => absurd hy List.not_mem_nil
    change close g.left g.kid g.right = n at hg
    subst hg
    obtain ⟨hkids, hpos, hle⟩ := ok_succ.mp hn
    obtain ⟨hl, hkid, hr⟩ := kidsOk_close.mp hkids
    rw [length_close] at hpos hle
    have hmid : Directed c (flatten h g.kid.node) := by
      rw [flatten_close] at hdir
      exact (List.pairwise_append.mp (List.pairwise_append.mp hdir).2.1).1
    have hadded := ih g.kid.node hkid.2 hmid
    -- what is before the gap compares greater, and what is behind it less
    have houter : ∀ a b : List α, (∀ y ∈ a, 0 < c y) → (∀ y ∈ b, c y < 0) →
        (∀ y ∈ leftList g.left ++ a, 0 < c y) ∧ ∀ y ∈ b ++ restList g.right, c y < 0 :=
      fun a b ha hb => ⟨List.forall_mem_append.mpr ⟨hleft, ha⟩, List.forall_mem_append.mpr ⟨hb, hright⟩⟩
    dsimp only
    cases hres : addInternal c e h g.kid.node with
    | found x =>
      rw [hres] at hadded
      refine ⟨?_, hadded.2⟩
      rw [flatten_close]
      exact List.mem_append_right _ (List.mem_append_left _ hadded.1)
    | fits t =>
      rw [hres] at hadded
      obtain ⟨ht, a, b, hab, hflat, ha, hb⟩ := hadded
      refine ⟨ok_succ.mpr ⟨kidsOk_close.mpr ⟨hl, ⟨ht.countnode, ht⟩, hr⟩, ?_, ?_⟩,
        leftList g.left ++ a, b ++ restList g.right, ?_, ?_, houter a b ha hb⟩
      · rwa [length_close]
      · rwa [length_close]
      · rw [flatten_close, hab]
        simp
      · rw [flatten_close, hflat]
        simp
    | splits l x r =>
      rw [hres] at hadded
      obtain ⟨hlk, hrk, a, b, hab, hflat, ha, hb⟩ := hadded
      have hlist : leftList g.left ++ (flatten h l.node ++ x :: (flatten h r.node ++
          restList g.right)) = (leftList g.left ++ a) ++ e :: (b ++ restList g.right) := by
        rw [← List.cons_append, ← List.append_assoc (flatten h l.node), hflat]
        simp
      have hsplit : flatten (h + 1) (close g.left g.kid g.right) =
          (leftList g.left ++ a) ++ (b ++ restList g.right) := by
        rw [flatten_close, hab]
        simp
      dsimp only
      obtain ⟨t, ht, hok, hto⟩ | ⟨l', y, r', ht, hl', hr', hto⟩ := insert_holds hn rfl hlk hrk
      · rw [ht]
        exact ⟨hok, _, _, hsplit, hto.trans hlist, houter a b ha hb⟩
      · rw [ht]
        exact ⟨hl', hr', _, _, hsplit, hto.trans hlist, houter a b ha hb⟩

/-- Adding to a subtree. -/
theorem addInternal_holds {h : Nat} {t : Subtree234 α h} (ht : Ok h t)
    (hdir : Directed c (flatten h t)) : (addInternal c e h t).Holds c e (flatten h t) := by
  induction h with
  | zero =>
    exact ⟨⟨rfl, trivial⟩, ⟨rfl, trivial⟩, [], [], rfl, rfl, fun _ hy => absurd hy List.not_mem_nil,
      fun _ hy => absurd hy List.not_mem_nil⟩
  | succ h ih => exact addInternal_succ ht hdir fun _ => ih

/-- `add234` gives back the element that is there already, or puts the new one in its place. -/
theorem add234_spec {cmp : α → α → Int} {t : Tree234 α} (ht : t.Balanced)
    (hdir : Directed (cmp e) t.toList) :
    (∃ x ∈ t.toList, cmp e x = 0 ∧ add234 cmp t e = (t, x)) ∨
      ∃ t' a b, add234 cmp t e = (t', e) ∧ t'.Balanced ∧ t.toList = a ++ b ∧
        t'.toList = a ++ e :: b ∧ (∀ y ∈ a, 0 < cmp e y) ∧ ∀ y ∈ b, cmp e y < 0 := by
  have hadded := addInternal_holds (e := e) ht hdir
  unfold add234
  cases hres : addInternal (cmp e) e t.height t.root with
  | found x =>
    rw [hres] at hadded
    exact .inl ⟨x, hadded.1, hadded.2, rfl⟩
  | fits n =>
    rw [hres] at hadded
    obtain ⟨hok, a, b, hab, hflat, ha, hb⟩ := hadded
    exact .inr ⟨_, a, b, rfl, hok, hab, hflat, ha, hb⟩
  | splits l x r =>
    rw [hres] at hadded
    obtain ⟨hl, hr, a, b, hab, hflat, ha, hb⟩ := hadded
    refine .inr ⟨_, a, b, rfl, ok_succ.mpr ⟨⟨hl, fun q hq => ?_⟩, by simp, by simp⟩, hab, ?_, ha, hb⟩
    · obtain rfl := List.mem_singleton.mp hq
      exact hr
    · rw [← hflat, Tree234.toList, flatten_succ]
      simp [restList]

end Add

/-! ## Positions -/

section Locate

variable {h : Nat}

/-- An index is that of an element of the node, or leads to a child. -/
theorem locate_spec (left : List (Kid234 (Subtree234 α h) × α)) {kid : Kid234 (Subtree234 α h)}
    {rest : List (α × Kid234 (Subtree234 α h))} {index : Nat} (hkid : KidOk kid)
    (hrest : ∀ r ∈ rest, KidOk r.2) (hlt : index < (flatten h kid.node ++ restList rest).length) :
    (∃ l k x k' r, locate left kid rest index = .elem l k x k' r ∧
        close l k ((x, k') :: r) = close left kid rest ∧
        (leftList l).length + (flatten h k.node).length = (leftList left).length + index) ∨
      ∃ g i, locate left kid rest index = .kid g i ∧
        close g.left g.kid g.right = close left kid rest ∧ i < (flatten h g.kid.node).length ∧
        (leftList g.left).length + i = (leftList left).length + index := by
  induction rest generalizing left kid index with
  | nil =>
    rw [restList, List.append_nil] at hlt
    exact .inr ⟨_, _, rfl, rfl, hlt, rfl⟩
  | cons r rest ih =>
    obtain ⟨x, k⟩ := r
    obtain ⟨hk, hrest⟩ := List.forall_mem_cons.mp hrest
    have hcount := hkid.1
    rw [locate]
    split
    · rename_i hi
      exact .inr ⟨_, _, rfl, rfl, hcount ▸ hi, rfl⟩
    · split
      · exact .inl ⟨_, _, _, _, _, rfl, rfl, by omega⟩
      · have hlist : (leftList ((kid, x) :: left)).length =
            (leftList left).length + (kid.count + 1) := by
          simp only [leftList, List.length_append, List.length_singleton]
          omega
        have hlt' : index - (kid.count + 1) < (flatten h k.node ++ restList rest).length := by
          simp only [restList, List.length_append, List.length_cons] at hlt ⊢
          omega
        obtain ⟨l, k₁, y, k₂, r, heq, hclose, hlen⟩ | ⟨g, i, heq, hclose, hi, hlen⟩ :=
          ih ((kid, x) :: left) hk hrest hlt'
        · exact .inl ⟨l, k₁, y, k₂, r, heq, hclose, by omega⟩
        · exact .inr ⟨g, i, heq, hclose, hi, by omega⟩

end Locate

theorem locate_node {h : Nat} {n : Node234 α (Subtree234 α h)} (hn : KidsOk n) {index : Nat}
    (hlt : index < (flatten (h + 1) n).length) :
    (∃ l k x k' r, locate [] n.first n.rest index = .elem l k x k' r ∧
        n = close l k ((x, k') :: r) ∧ index = (leftList l).length + (flatten h k.node).length) ∨
      ∃ g i, locate [] n.first n.rest index = .kid g i ∧ n = close g.left g.kid g.right ∧
        i < (flatten h g.kid.node).length ∧ index = (leftList g.left).length + i := by
  rw [flatten_succ] at hlt
  obtain ⟨l, k, x, k', r, heq, hclose, hlen⟩ | ⟨g, i, heq, hclose, hi, hlen⟩ :=
    locate_spec [] hn.1 hn.2 hlt
  · exact .inl ⟨l, k, x, k', r, heq, hclose.symm, by simpa [leftList] using hlen.symm⟩
  · exact .inr ⟨g, i, heq, hclose.symm, hi, by simpa [leftList] using hlen.symm⟩

theorem indexInternal_node {h : Nat} (n : Node234 α (Subtree234 α h)) (index : Nat) :
    indexInternal (h + 1) n index =
      match locate [] n.first n.rest index with
      | .elem _ _ x _ _ => some x
      | .kid g index => indexInternal h g.kid.node index := rfl

theorem indexInternal_succ {h : Nat} {n : Node234 α (Subtree234 α h)} (hn : KidsOk n) {index : Nat}
    (hlt : index < (flatten (h + 1) n).length)
    (ih : ∀ t : Subtree234 α h, Ok h t → ∀ i < (flatten h t).length,
      indexInternal h t i = (flatten h t)[i]?) :
    indexInternal (h + 1) n index = (flatten (h + 1) n)[index]? := by
  obtain ⟨l, k, x, k', r, heq, hclose, rfl⟩ | ⟨g, i, heq, hclose, hi, rfl⟩ := locate_node hn hlt
  · rw [indexInternal_node, heq, hclose, flatten_close, ← List.append_assoc,
      ← List.length_append, List.getElem?_append_right (Nat.le_refl _), Nat.sub_self]
    rfl
  · have hkid : KidOk g.kid := by
      rw [hclose] at hn
      exact (kidsOk_close.mp hn).2.1
    rw [indexInternal_node, heq, hclose, flatten_close,
      List.getElem?_append_right (Nat.le_add_right _ _), Nat.add_sub_cancel_left,
      List.getElem?_append_left hi]
    exact ih _ hkid.2 i hi

theorem indexInternal_eq {h : Nat} {t : Subtree234 α h} (ht : Ok h t) {index : Nat}
    (hlt : index < (flatten h t).length) : indexInternal h t index = (flatten h t)[index]? := by
  induction h generalizing index with
  | zero => exact absurd hlt (Nat.not_lt_zero _)
  | succ h ih => exact indexInternal_succ (ok_succ.mp ht).1 hlt fun _ ht _ hi => ih ht hi

theorem index234_eq {t : Tree234 α} (ht : t.Balanced) (index : Nat) :
    index234 t index = t.toList[index]? := by
  have hcount : count234 t = t.toList.length := Ok.countnode ht
  rw [index234, hcount]
  split
  · rename_i hle
    rw [List.getElem?_eq_none hle]
  · exact indexInternal_eq ht (by rename_i hlt; exact Nat.lt_of_not_le hlt)

/-! ## Finding -/

section Find

variable {c : α → Int}

/-- What the comparison with the elements of a node comes to: one of them, or a child outside of
which no element compares equal. -/
theorem seek_spec {h : Nat} (idx : Nat) {kid : Kid234 (Subtree234 α h)}
    {rest : List (α × Kid234 (Subtree234 α h))} (hkid : KidOk kid) (hrest : ∀ r ∈ rest, KidOk r.2)
    (hdir : Directed c (flatten h kid.node ++ restList rest)) :
    (∃ a x b, seek c idx kid rest = .inl (x, idx + a.length) ∧
        flatten h kid.node ++ restList rest = a ++ x :: b ∧ c x = 0) ∨
      ∃ k a b, seek c idx kid rest = .inr (k, idx + a.length) ∧
        flatten h kid.node ++ restList rest = a ++ (flatten h k.node ++ b) ∧ KidOk k ∧
        (∀ y ∈ a, 0 < c y) ∧ ∀ y ∈ b, c y < 0 := by
  induction rest generalizing idx kid with
  | nil =>
    exact .inr ⟨kid, [], restList [], rfl, rfl, hkid, fun y hy => absurd hy List.not_mem_nil,
      fun y hy => absurd hy List.not_mem_nil⟩
  | cons r rest ih =>
    obtain ⟨x, k⟩ := r
    obtain ⟨hk, hrest⟩ := List.forall_mem_cons.mp hrest
    have hbelow : (if h = 0 then 0 else kid.count) = (flatten h kid.node).length := by
      split
      · rename_i hzero
        subst hzero
        rfl
      · exact hkid.1
    have hdir' : Directed c (flatten h kid.node ++ x :: (flatten h k.node ++ restList rest)) := hdir
    rw [seek, hbelow]
    split
    · rename_i hneg
      exact .inr ⟨kid, [], restList ((x, k) :: rest), rfl, rfl, hkid,
        fun y hy => absurd hy List.not_mem_nil,
        List.forall_mem_cons.mpr ⟨hneg, hdir'.behind (Int.le_of_lt hneg)⟩⟩
    · split
      · rename_i hzero
        exact .inl ⟨_, x, _, rfl, rfl, hzero⟩
      · rename_i hneg hzero
        have hpos : 0 < c x := by omega
        have hbefore : ∀ y ∈ flatten h kid.node ++ [x], 0 < c y :=
          List.forall_mem_append.mpr ⟨hdir'.before (Int.le_of_lt hpos), by simpa using hpos⟩
        obtain ⟨a, y, b, heq, hlist, hy⟩ | ⟨k', a, b, heq, hlist, hk', ha, hb⟩ :=
          ih (idx + (flatten h kid.node).length + 1) hk hrest
            (List.pairwise_cons.mp (List.pairwise_append.mp hdir').2.1).2
        · refine .inl ⟨flatten h kid.node ++ x :: a, y, b, ?_, ?_, hy⟩
          · rw [heq, List.length_append, List.length_cons]
            congr 2
            omega
          · simp [restList, hlist]
        · refine .inr ⟨k', (flatten h kid.node ++ [x]) ++ a, b, ?_, ?_, hk',
            List.forall_mem_append.mpr ⟨hbefore, ha⟩, hb⟩
          · rw [heq, List.length_append, List.length_append, List.length_singleton]
            congr 2
            omega
          · simp [restList, hlist]

theorem findInternal_node {h : Nat} (n : Node234 α (Subtree234 α h)) (idx : Nat) :
    findInternal c (h + 1) n idx =
      match Node234.seek c idx n.first n.rest with
      | .inl found => some found
      | .inr (kid, idx) => findInternal c h kid.node idx := rfl

/-- What `findrelpos234` finds in a list. -/
def Finds (c : α → Int) (s : List α) (idx : Nat) (found : Option (α × Nat)) : Prop :=
  (found = none ∧ ∀ y ∈ s, c y ≠ 0) ∨
    ∃ a x b, found = some (x, idx + a.length) ∧ s = a ++ x :: b ∧ c x = 0

theorem findInternal_succ {h : Nat} {n : Node234 α (Subtree234 α h)} {idx : Nat} (hn : KidsOk n)
    (hdir : Directed c (flatten (h + 1) n))
    (ih : ∀ t : Subtree234 α h, Ok h t → Directed c (flatten h t) → ∀ i,
      Finds c (flatten h t) i (findInternal c h t i)) :
    Finds c (flatten (h + 1) n) idx (findInternal c (h + 1) n idx) := by
  rw [flatten_succ] at hdir ⊢
  rw [findInternal_node]
  obtain ⟨a, x, b, heq, hlist, hx⟩ | ⟨k, a, b, heq, hlist, hk, ha, hb⟩ :=
    seek_spec idx hn.1 hn.2 hdir
  · rw [heq]
    exact .inr ⟨a, x, b, rfl, hlist, hx⟩
  · rw [heq]
    rw [hlist] at hdir ⊢
    have hmid := (List.pairwise_append.mp (List.pairwise_append.mp hdir).2.1).1
    obtain ⟨hnone, hne⟩ | ⟨a', x, b', hsome, hmid', hx⟩ := ih k.node hk.2 hmid (idx + a.length)
    · refine .inl ⟨hnone, fun y hy => ?_⟩
      obtain hy | hy := List.mem_append.mp hy
      · exact (Int.ne_of_gt (ha y hy))
      · obtain hy | hy := List.mem_append.mp hy
        · exact hne y hy
        · exact Int.ne_of_lt (hb y hy)
    · refine .inr ⟨a ++ a', x, b' ++ b, ?_, ?_, hx⟩
      · exact hsome.trans (by rw [List.length_append, Nat.add_assoc])
      · simp [hmid']

theorem findInternal_spec {h : Nat} {t : Subtree234 α h} (ht : Ok h t)
    (hdir : Directed c (flatten h t)) (idx : Nat) :
    Finds c (flatten h t) idx (findInternal c h t idx) := by
  induction h generalizing idx with
  | zero => exact .inl ⟨rfl, fun y hy => absurd hy List.not_mem_nil⟩
  | succ h ih => exact findInternal_succ (ok_succ.mp ht).1 hdir fun _ ht hdir i => ih ht hdir i

theorem findrelpos234_spec {cmp : α → α → Int} {t : Tree234 α} {e : α} (ht : t.Balanced)
    (hdir : Directed (cmp e) t.toList) : Finds (cmp e) t.toList 0 (findrelpos234 cmp t e) :=
  findInternal_spec ht hdir 0

end Find

/-! ## Deleting -/

/-- The element at a position is taken away. -/
def Removes (s : List α) (index : Nat) (x : α) (s' : List α) : Prop :=
  ∃ a b, s = a ++ x :: b ∧ a.length = index ∧ s' = a ++ b

theorem Removes.append {s s' : List α} {index : Nat} {x : α} (h : Removes s index x s')
    (p q : List α) : Removes (p ++ (s ++ q)) (p.length + index) x (p ++ (s' ++ q)) := by
  obtain ⟨a, b, rfl, rfl, rfl⟩ := h
  exact ⟨p ++ a, b ++ q, by simp, by simp, by simp⟩

section Delete

variable {h : Nat}

/-- The last child with the last element before it. -/
theorem exists_lastKid {n : Node234 α (Subtree234 α h)} (hn : Ok (h + 1) n) :
    ∃ rest x, n.rest = rest ++ [(x, n.lastKid)] ∧ KidOk n.lastKid := by
  obtain ⟨hkids, hpos, -⟩ := ok_succ.mp hn
  have hne : n.rest ≠ [] := List.ne_nil_of_length_pos hpos
  have hlast : n.lastKid = (n.rest.getLast hne).2 := by
    rw [lastKid, List.getLast?_eq_some_getLast hne]
    rfl
  refine ⟨n.rest.dropLast, (n.rest.getLast hne).1, ?_, ?_⟩
  · rw [hlast]
    exact (List.dropLast_append_getLast hne).symm
  · rw [hlast]
    exact hkids.2 _ (List.getLast_mem hne)

theorem lastElem_spec : ∀ {h : Nat} {n : Node234 α (Subtree234 α h)}, Ok (h + 1) n →
    ∃ p s, lastElem h n = some p ∧ flatten (h + 1) n = s ++ [p]
  | 0, n, hn => by
    obtain ⟨rest, x, hrest, -⟩ := exists_lastKid hn
    refine ⟨x, restList rest, ?_, ?_⟩
    · rw [lastElem, hrest, List.getLast?_concat]
      rfl
    · rw [flatten_succ, hrest, restList_append]
      rfl
  | h + 1, n, hn => by
    obtain ⟨rest, x, hrest, hlast⟩ := exists_lastKid hn
    obtain ⟨p, s, hp, hs⟩ := lastElem_spec hlast.2
    refine ⟨p, flatten (h + 1) n.first.node ++ (restList rest ++ x :: s), hp, ?_⟩
    rw [flatten_succ, hrest, restList_append, restList, restList, List.append_nil]
    have hkid : flatten (h + 1) n.lastKid.node = s ++ [p] := hs
    rw [hkid]
    simp

theorem firstElem_spec : ∀ {h : Nat} {n : Node234 α (Subtree234 α h)}, Ok (h + 1) n →
    ∃ p s, firstElem h n = some p ∧ flatten (h + 1) n = p :: s
  | 0, n, hn => by
    obtain ⟨-, hpos, -⟩ := ok_succ.mp hn
    obtain ⟨r, rest, hrest⟩ := List.exists_cons_of_length_pos hpos
    refine ⟨r.1, restList rest, ?_, ?_⟩
    · rw [firstElem, hrest]
      rfl
    · rw [flatten_succ, hrest]
      rfl
  | h + 1, n, hn => by
    obtain ⟨hkids, -, -⟩ := ok_succ.mp hn
    obtain ⟨p, s, hp, hs⟩ := firstElem_spec hkids.1.2
    refine ⟨p, s ++ restList n.rest, hp, ?_⟩
    have hkid : flatten (h + 1) n.first.node = p :: s := hs
    rw [flatten_succ, hkid, List.cons_append]

/-- Merging puts the element between the elements of the nodes. -/
theorem flatten_merge (a b : Node234 α (Subtree234 α h)) (e : α) :
    flatten (h + 1) (merge a e b) = flatten (h + 1) a ++ e :: flatten (h + 1) b := by
  rw [flatten_succ, flatten_succ, flatten_succ, merge, restList_append, restList]
  simp

theorem kidsOk_merge {a b : Node234 α (Subtree234 α h)} {e : α} (ha : KidsOk a) (hb : KidsOk b) :
    KidsOk (merge a e b) :=
  ⟨ha.1, List.forall_mem_append.mpr ⟨ha.2, List.forall_mem_cons.mpr ⟨hb.1, hb.2⟩⟩⟩

theorem length_merge (a b : Node234 α (Subtree234 α h)) (e : α) :
    (merge a e b).rest.length = a.rest.length + b.rest.length + 1 := by
  rw [merge, List.length_append, List.length_cons, Nat.add_assoc]

theorem hasTwo_iff {n : Node234 α κ} : n.hasTwo = true ↔ 2 ≤ n.rest.length := decide_eq_true_iff

/-- What `feed` keeps, and what it is for: the child has two elements, and the index in it is that
of the same element. -/
structure Fed (g : Gap α (Subtree234 α (h + 1))) (index : Nat)
    (g' : Gap α (Subtree234 α (h + 1))) (index' : Nat) : Prop where
  kids : KidsOk (close g'.left g'.kid g'.right)
  two : 2 ≤ g'.kid.get.rest.length
  list : flatten (h + 2) (close g'.left g'.kid g'.right) =
    flatten (h + 2) (close g.left g.kid g.right)
  lt : index' < (flatten (h + 1) g'.kid.get).length
  position : (leftList g'.left).length + index' = (leftList g.left).length + index
  length_le : g'.left.length + g'.right.length ≤ g.left.length + g.right.length
  le_length : g.left.length + g.right.length ≤ g'.left.length + g'.right.length + 1

/-- A child at its place, and as many elements as it has there. -/
theorem Ok.parts {n : Node234 α (Subtree234 α h)} (hn : Ok (h + 1) n) (hone : n.hasTwo = false) :
    KidsOk n ∧ n.rest.length = 1 := by
  obtain ⟨hkids, hpos, -⟩ := ok_succ.mp hn
  refine ⟨hkids, ?_⟩
  have hlt : ¬2 ≤ n.rest.length := fun h => by rw [hasTwo_iff.mpr h] at hone; cases hone
  omega

section Feed

variable {left : List (Kid234 (Subtree234 α (h + 1)) × α)} {sub sib : Kid234 (Subtree234 α (h + 1))}
  {index : Nat} {e : α} {right : List (α × Kid234 (Subtree234 α (h + 1)))}

theorem fed_borrowLeft {s : List (α × Kid234 (Subtree234 α h))} {x : α}
    {k : Kid234 (Subtree234 α h)} (hone : sub.get.hasTwo = false)
    (hrest : sib.get.rest = s ++ [(x, k)]) (hpos : 1 ≤ s.length)
    (hkids : KidsOk (close ((sib, e) :: left) sub right))
    (hlt : index < (flatten (h + 1) sub.get).length) :
    Fed ⟨(sib, e) :: left, sub, right⟩ index
      ⟨(counted ⟨sib.get.first, s⟩, x) :: left,
        counted ⟨k, (e, sub.get.first) :: sub.get.rest⟩, right⟩
      (index + sib.count - (counted (h := h) ⟨sib.get.first, s⟩).count) := by
  obtain ⟨hleft, hsub, hright⟩ := kidsOk_close.mp hkids
  obtain ⟨hsib, hleft⟩ := List.forall_mem_cons.mp hleft
  obtain ⟨hsibKids, -, hsibLe⟩ := ok_succ.mp hsib.2
  obtain ⟨hsubKids, hsubOne⟩ := Ok.parts hsub.2 hone
  change sib.get.rest.length ≤ 3 at hsibLe
  change KidsOk sib.get at hsibKids
  change KidsOk sub.get at hsubKids
  change sub.get.rest.length = 1 at hsubOne
  rw [hrest, List.length_append, List.length_singleton] at hsibLe
  have hs : KidsOk (⟨sib.get.first, s⟩ : Node234 α (Subtree234 α h)) :=
    ⟨hsibKids.1, fun r hr => hsibKids.2 r (hrest ▸ List.mem_append_left _ hr)⟩
  have hk : KidOk k := hsibKids.2 (x, k) (hrest ▸ List.mem_append_right _ List.mem_cons_self)
  have hnew : KidsOk (⟨k, (e, sub.get.first) :: sub.get.rest⟩ : Node234 α (Subtree234 α h)) :=
    ⟨hk, List.forall_mem_cons.mpr ⟨hsubKids.1, hsubKids.2⟩⟩
  -- the elements of the sibling, and of the child with what it gets
  have hsibList : flatten (h + 1) sib.node =
      flatten (h + 1) (⟨sib.get.first, s⟩ : Node234 α (Subtree234 α h)) ++ x :: flatten h k.node := by
    rw [show sib.node = sib.get from rfl, flatten_succ, flatten_succ, hrest, restList_append]
    simp [restList]
  have hnewList : flatten (h + 1) (⟨k, (e, sub.get.first) :: sub.get.rest⟩ :
      Node234 α (Subtree234 α h)) = flatten h k.node ++ e :: flatten (h + 1) sub.node := by
    rw [show sub.node = sub.get from rfl, flatten_succ, flatten_succ, restList]
  have hgain : index + sib.count -
      (counted (h := h) ⟨sib.get.first, s⟩).count = index + (flatten h k.node).length + 1 := by
    have hcount : (counted (h := h) ⟨sib.get.first, s⟩).count = _ := hs.count
    rw [hsib.1, hcount, hsibList, List.length_append, List.length_cons]
    omega
  have hle : s.length ≤ 3 := by omega
  have hnewLen : ((e, sub.get.first) :: sub.get.rest).length = 2 := by
    rw [List.length_cons, hsubOne]
  exact {
    kids := kidsOk_close.mpr ⟨List.forall_mem_cons.mpr ⟨kidOk_counted hs hpos hle, hleft⟩,
      kidOk_counted hnew (hnewLen ▸ Nat.le_succ 1) (hnewLen ▸ Nat.le_succ 2), hright⟩
    two := Nat.le_of_eq hnewLen.symm
    list := by
      rw [flatten_close, flatten_close]
      simp only [leftList, hsibList]
      simp only [counted, hnewList, List.append_assoc, List.cons_append, List.nil_append]
    lt := by
      have hlen : (flatten (h + 1) sub.get).length = (flatten (h + 1) sub.node).length := rfl
      change index + sib.count - (counted (h := h) ⟨sib.get.first, s⟩).count <
        (flatten (h + 1) (⟨k, (e, sub.get.first) :: sub.get.rest⟩ :
          Node234 α (Subtree234 α h))).length
      rw [hgain, hnewList, List.length_append, List.length_cons]
      omega
    position := by
      rw [hgain]
      simp only [leftList, hsibList, counted, List.length_append, List.length_cons, List.length_nil]
      omega
    length_le := Nat.le_refl _
    le_length := Nat.le_succ _ }

theorem fed_borrowRight {s : List (α × Kid234 (Subtree234 α h))} {x : α}
    {k : Kid234 (Subtree234 α h)} (hone : sub.get.hasTwo = false)
    (hrest : sib.get.rest = (x, k) :: s) (hpos : 1 ≤ s.length)
    (hkids : KidsOk (close left sub ((e, sib) :: right)))
    (hlt : index < (flatten (h + 1) sub.get).length) :
    Fed ⟨left, sub, (e, sib) :: right⟩ index
      ⟨left, counted ⟨sub.get.first, sub.get.rest ++ [(e, sib.get.first)]⟩,
        (x, counted ⟨k, s⟩) :: right⟩ index := by
  obtain ⟨hleft, hsub, hright⟩ := kidsOk_close.mp hkids
  obtain ⟨hsib, hright⟩ := List.forall_mem_cons.mp hright
  obtain ⟨hsibKids, -, hsibLe⟩ := ok_succ.mp hsib.2
  obtain ⟨hsubKids, hsubOne⟩ := Ok.parts hsub.2 hone
  change sib.get.rest.length ≤ 3 at hsibLe
  change KidsOk sib.get at hsibKids
  change KidsOk sub.get at hsubKids
  change sub.get.rest.length = 1 at hsubOne
  rw [hrest, List.length_cons] at hsibLe
  have hmem := hsibKids.2
  rw [hrest] at hmem
  obtain ⟨hk, hs⟩ := List.forall_mem_cons.mp hmem
  have hold : KidsOk (⟨k, s⟩ : Node234 α (Subtree234 α h)) := ⟨hk, hs⟩
  have hnew : KidsOk (⟨sub.get.first, sub.get.rest ++ [(e, sib.get.first)]⟩ :
      Node234 α (Subtree234 α h)) :=
    ⟨hsubKids.1, List.forall_mem_append.mpr ⟨hsubKids.2, by simpa using hsibKids.1⟩⟩
  -- the elements of the sibling, and of the child with what it gets
  have hsibList : flatten (h + 1) sib.node = flatten h sib.get.first.node ++
      x :: flatten (h + 1) (⟨k, s⟩ : Node234 α (Subtree234 α h)) := by
    rw [show sib.node = sib.get from rfl, flatten_succ, flatten_succ, hrest, restList]
  have hnewList : flatten (h + 1) (⟨sub.get.first, sub.get.rest ++ [(e, sib.get.first)]⟩ :
      Node234 α (Subtree234 α h)) =
        flatten (h + 1) sub.node ++ e :: flatten h sib.get.first.node := by
    rw [show sub.node = sub.get from rfl, flatten_succ, flatten_succ, restList_append]
    simp [restList]
  have hnewLen : (sub.get.rest ++ [(e, sib.get.first)]).length = 2 := by
    rw [List.length_append, hsubOne, List.length_singleton]
  have hle : s.length ≤ 3 := by omega
  exact {
    kids := kidsOk_close.mpr ⟨hleft, kidOk_counted hnew (hnewLen ▸ Nat.le_succ 1)
      (hnewLen ▸ Nat.le_succ 2), List.forall_mem_cons.mpr ⟨kidOk_counted hold hpos hle, hright⟩⟩
    two := Nat.le_of_eq hnewLen.symm
    list := by
      rw [flatten_close, flatten_close]
      simp only [restList, hsibList]
      simp only [counted, hnewList, List.append_assoc, List.cons_append]
    lt := by
      have hlen : (flatten (h + 1) sub.get).length = (flatten (h + 1) sub.node).length := rfl
      change index < (flatten (h + 1)
        (⟨sub.get.first, sub.get.rest ++ [(e, sib.get.first)]⟩ :
          Node234 α (Subtree234 α h))).length
      rw [hnewList, List.length_append, List.length_cons]
      omega
    position := rfl
    length_le := Nat.le_refl _
    le_length := Nat.le_succ _ }

/-- A node of two nodes with one element each, and the element between them. -/
theorem merge_three {a b : Node234 α (Subtree234 α h)} (e : α) (ha : a.rest.length = 1)
    (hb : b.rest.length = 1) : (merge a e b).rest.length = 3 := by
  rw [length_merge, ha, hb]

theorem fed_joinLeft (hsubOne : sub.get.hasTwo = false) (hsibOne : sib.get.hasTwo = false)
    (hkids : KidsOk (close ((sib, e) :: left) sub right))
    (hlt : index < (flatten (h + 1) sub.get).length) :
    Fed ⟨(sib, e) :: left, sub, right⟩ index
      ⟨left, counted (merge sib.get e sub.get), right⟩ (index + (sib.count + 1)) := by
  obtain ⟨hleft, hsub, hright⟩ := kidsOk_close.mp hkids
  obtain ⟨hsib, hleft⟩ := List.forall_mem_cons.mp hleft
  obtain ⟨hsubKids, hsubLen⟩ := Ok.parts hsub.2 hsubOne
  obtain ⟨hsibKids, hsibLen⟩ := Ok.parts hsib.2 hsibOne
  have hcount : sib.count = (flatten (h + 1) sib.node).length := hsib.1
  have hthree : (merge sib.get e sub.get).rest.length = 3 := merge_three e hsibLen hsubLen
  have hmerge : flatten (h + 1) (merge sib.get e sub.get) =
      flatten (h + 1) sib.node ++ e :: flatten (h + 1) sub.node := flatten_merge _ _ e
  exact {
    kids := kidsOk_close.mpr ⟨hleft, kidOk_counted (kidsOk_merge hsibKids hsubKids)
      (by rw [hthree]; exact Nat.le_add_left 1 2) (Nat.le_of_eq hthree), hright⟩
    two := by
      rw [show (counted (merge sib.get e sub.get)).get = merge sib.get e sub.get from rfl, hthree]
      exact Nat.le_succ 2
    list := by
      rw [flatten_close, flatten_close]
      simp only [leftList, counted, hmerge, List.append_assoc, List.cons_append, List.nil_append]
    lt := by
      have hlen : (flatten (h + 1) sub.get).length = (flatten (h + 1) sub.node).length := rfl
      rw [show (counted (merge sib.get e sub.get)).get = merge sib.get e sub.get from rfl, hmerge,
        List.length_append, List.length_cons, hcount]
      omega
    position := by
      simp only [leftList, List.length_append, List.length_cons, List.length_nil, hcount]
      omega
    length_le := by
      dsimp only
      rw [List.length_cons]
      omega
    le_length := by
      dsimp only
      rw [List.length_cons]
      omega }

theorem fed_joinRight (hsubOne : sub.get.hasTwo = false) (hsibOne : sib.get.hasTwo = false)
    (hkids : KidsOk (close left sub ((e, sib) :: right)))
    (hlt : index < (flatten (h + 1) sub.get).length) :
    Fed ⟨left, sub, (e, sib) :: right⟩ index
      ⟨left, counted (merge sub.get e sib.get), right⟩ index := by
  obtain ⟨hleft, hsub, hright⟩ := kidsOk_close.mp hkids
  obtain ⟨hsib, hright⟩ := List.forall_mem_cons.mp hright
  obtain ⟨hsubKids, hsubLen⟩ := Ok.parts hsub.2 hsubOne
  obtain ⟨hsibKids, hsibLen⟩ := Ok.parts hsib.2 hsibOne
  have hthree : (merge sub.get e sib.get).rest.length = 3 := merge_three e hsubLen hsibLen
  have hmerge : flatten (h + 1) (merge sub.get e sib.get) =
      flatten (h + 1) sub.node ++ e :: flatten (h + 1) sib.node := flatten_merge _ _ e
  exact {
    kids := kidsOk_close.mpr ⟨hleft, kidOk_counted (kidsOk_merge hsubKids hsibKids)
      (by rw [hthree]; exact Nat.le_add_left 1 2) (Nat.le_of_eq hthree), hright⟩
    two := by
      rw [show (counted (merge sub.get e sib.get)).get = merge sub.get e sib.get from rfl, hthree]
      exact Nat.le_succ 2
    list := by
      rw [flatten_close, flatten_close]
      simp only [restList, counted, hmerge, List.append_assoc, List.cons_append]
    lt := by
      have hlen : (flatten (h + 1) sub.get).length = (flatten (h + 1) sub.node).length := rfl
      rw [show (counted (merge sub.get e sib.get)).get = merge sub.get e sib.get from rfl, hmerge,
        List.length_append]
      omega
    position := rfl
    length_le := by
      dsimp only
      rw [List.length_cons]
      omega
    le_length := by
      dsimp only
      rw [List.length_cons]
      omega }

/-- The sibling before the child gives one of its children, or has one element only. -/
theorem borrowLeft_spec {g : Gap α (Subtree234 α (h + 1))} (hone : g.kid.get.hasTwo = false)
    (hkids : KidsOk (close g.left g.kid g.right))
    (hlt : index < (flatten (h + 1) g.kid.get).length) :
    (∃ g' index', borrowLeft g index = some (g', index') ∧ Fed g index g' index') ∨
      borrowLeft g index = none ∧ ∀ l ∈ g.left.head?, l.1.get.hasTwo = false := by
  obtain ⟨left, sub, right⟩ := g
  rcases left with _ | ⟨⟨sib, e⟩, left⟩
  · exact .inr ⟨rfl, by simp⟩
  cases htwo : sib.get.hasTwo with
  | false =>
    refine .inr ⟨?_, by simpa using htwo⟩
    rw [borrowLeft]
    cases hlast : sib.get.rest.getLast? with
    | none => simp [hlast]
    | some r => simp [hlast, htwo]
  | true =>
    have hlen : 2 ≤ sib.get.rest.length := hasTwo_iff.mp htwo
    have hne : sib.get.rest ≠ [] := List.ne_nil_of_length_pos (by omega)
    have hpos : 1 ≤ sib.get.rest.dropLast.length := by
      rw [List.length_dropLast]
      omega
    refine .inl ⟨_, _, ?_, fed_borrowLeft hone (List.dropLast_append_getLast hne).symm hpos hkids hlt⟩
    simp [borrowLeft, List.getLast?_eq_some_getLast hne, htwo]

/-- The sibling behind the child gives one of its children, or has one element only. -/
theorem borrowRight_spec {g : Gap α (Subtree234 α (h + 1))} (hone : g.kid.get.hasTwo = false)
    (hkids : KidsOk (close g.left g.kid g.right))
    (hlt : index < (flatten (h + 1) g.kid.get).length) :
    (∃ g' index', borrowRight g index = some (g', index') ∧ Fed g index g' index') ∨
      borrowRight g index = none ∧ ∀ r ∈ g.right.head?, r.2.get.hasTwo = false := by
  obtain ⟨left, sub, right⟩ := g
  rcases right with _ | ⟨⟨e, sib⟩, right⟩
  · exact .inr ⟨rfl, by simp⟩
  cases hrest : sib.get.rest with
  | nil =>
    refine .inr ⟨?_, ?_⟩
    · simp [borrowRight, hrest]
    · simp [hasTwo, hrest]
  | cons r rest =>
    cases htwo : sib.get.hasTwo with
    | false =>
      refine .inr ⟨?_, by simpa using htwo⟩
      simp [borrowRight, hrest, htwo]
    | true =>
      have hlen : 2 ≤ sib.get.rest.length := hasTwo_iff.mp htwo
      rw [hrest, List.length_cons] at hlen
      refine .inl ⟨_, _, ?_, fed_borrowRight hone hrest (Nat.le_of_succ_le_succ hlen) hkids hlt⟩
      simp [borrowRight, hrest, htwo]

/-- Where no sibling can give a child, one of them has the child put to it. -/
theorem joinKids_spec {g : Gap α (Subtree234 α (h + 1))} (hone : g.kid.get.hasTwo = false)
    (hkids : KidsOk (close g.left g.kid g.right))
    (hlt : index < (flatten (h + 1) g.kid.get).length)
    (hleft : ∀ l ∈ g.left.head?, l.1.get.hasTwo = false)
    (hright : ∀ r ∈ g.right.head?, r.2.get.hasTwo = false)
    (hpos : 1 ≤ g.left.length + g.right.length) :
    ∃ g' index', joinKids g index = some (g', index') ∧ Fed g index g' index' := by
  obtain ⟨left, sub, right⟩ := g
  rcases left with _ | ⟨⟨sib, e⟩, left⟩
  · rcases right with _ | ⟨⟨e, sib⟩, right⟩
    · exact absurd hpos (Nat.not_succ_le_zero 0)
    · exact ⟨_, _, rfl, fed_joinRight hone (hright (e, sib) rfl) hkids hlt⟩
  · exact ⟨_, _, rfl, fed_joinLeft hone (hleft (sib, e) rfl) hkids hlt⟩

/-- A child that is gone down to gets a second element, if the node has another child. -/
theorem feed_spec {g : Gap α (Subtree234 α (h + 1))}
    (hkids : KidsOk (close g.left g.kid g.right)) (hlt : index < (flatten (h + 1) g.kid.get).length)
    (hpos : 1 ≤ g.left.length + g.right.length) :
    ∃ g' index', feed g index = some (g', index') ∧ Fed g index g' index' := by
  cases htwo : g.kid.get.hasTwo with
  | true =>
    exact ⟨g, index, by rw [feed, if_pos htwo], {
      kids := hkids
      two := hasTwo_iff.mp htwo
      list := rfl
      lt := hlt
      position := rfl
      length_le := Nat.le_refl _
      le_length := Nat.le_succ _ }⟩
  | false =>
    rw [feed, if_neg (by rw [htwo]; exact Bool.false_ne_true)]
    obtain ⟨g', i', hsome, hfed⟩ | ⟨hnone, hleft⟩ := borrowLeft_spec htwo hkids hlt
    · exact ⟨g', i', by rw [hsome]; rfl, hfed⟩
    obtain ⟨g', i', hsome, hfed⟩ | ⟨hnone', hright⟩ := borrowRight_spec htwo hkids hlt
    · exact ⟨g', i', by rw [hnone, hsome]; rfl, hfed⟩
    obtain ⟨g', i', hsome, hfed⟩ := joinKids_spec htwo hkids hlt hleft hright hpos
    exact ⟨g', i', by rw [hnone, hnone', hsome]; rfl, hfed⟩

end Feed

/-- The element at the index is taken out of a node, which may be left with one element less. -/
def Deletes (n : Node234 α (Subtree234 α h)) (index : Nat) : Prop :=
  ∃ x n', delposInternal h n index = some (x, n') ∧
    Removes (flatten (h + 1) n) index x (flatten (h + 1) n') ∧ KidsOk n' ∧
    n'.rest.length ≤ n.rest.length ∧ n.rest.length ≤ n'.rest.length + 1

theorem delposInternal_leaf (n : Node234 α (Subtree234 α 0)) (index : Nat) :
    delposInternal 0 n index =
      match locate [] n.first n.rest index with
      | .elem left kid x _ right => some (x, close left kid right)
      | .kid _ _ => none := rfl

theorem delposInternal_node (n : Node234 α (Subtree234 α (h + 1))) (index : Nat) :
    delposInternal (h + 1) n index =
      match locate [] n.first n.rest index with
      | .kid g index => do
        let (g, index) ← feed g index
        let (x, t) ← delposInternal h g.kid.get index
        return (x, close g.left ⟨t, g.kid.count - 1⟩ g.right)
      | .elem left kid x next right =>
        if kid.get.hasTwo then do
          let target ← lastElem h kid.get
          let (_, t) ← delposInternal h kid.get (kid.count - 1)
          return (x, close left ⟨t, kid.count - 1⟩ ((target, next) :: right))
        else if next.get.hasTwo then do
          let target ← firstElem h next.get
          let (_, t) ← delposInternal h next.get 0
          return (x, close left kid ((target, ⟨t, next.count - 1⟩) :: right))
        else do
          let big := merge kid.get x next.get
          let (_, t) ← delposInternal h big kid.get.count
          return (x, close left ⟨t, big.count - 1⟩ right) := rfl

theorem deletes_leaf {n : Node234 α (Subtree234 α 0)} {index : Nat} (hn : KidsOk n)
    (hlt : index < (flatten 1 n).length) : Deletes n index := by
  obtain ⟨l, k, x, k', r, heq, hclose, hidx⟩ | ⟨g, i, -, -, hi, -⟩ := locate_node hn hlt
  · rw [hclose] at hn
    obtain ⟨hl, hk, hr⟩ := kidsOk_close.mp hn
    refine ⟨x, close l k r, by rw [delposInternal_leaf, heq], ?_,
      kidsOk_close.mpr ⟨hl, hk, (List.forall_mem_cons.mp hr).2⟩, ?_, ?_⟩
    · rw [hclose, flatten_close, flatten_close]
      exact ⟨leftList l, restList r, rfl, hidx.symm, rfl⟩
    · rw [hclose, length_close, length_close, List.length_cons]
      omega
    · rw [hclose, length_close, length_close, List.length_cons]
      omega
  · exact absurd hi (Nat.not_lt_zero i)

theorem Removes.length {s s' : List α} {index : Nat} {x : α} (hs : Removes s index x s') :
    s'.length = s.length - 1 := by
  obtain ⟨a, b, rfl, -, rfl⟩ := hs
  simp only [List.length_append, List.length_cons]
  omega

/-- What is left when the element between two parts is taken away. -/
theorem Removes.eq_append {a b s' : List α} {x y : α} (hs : Removes (a ++ x :: b) a.length y s') :
    s' = a ++ b := by
  obtain ⟨c, d, hsplit, hlen, rfl⟩ := hs
  obtain ⟨rfl, htail⟩ := List.append_inj hsplit hlen.symm
  obtain ⟨-, rfl⟩ := List.cons.inj htail
  rfl

/-- A child with two elements stays a child when one of its elements is taken out. -/
theorem Deletes.kid {k : Kid234 (Subtree234 α (h + 1))} {index : Nat} (hdel : Deletes k.get index)
    (hk : KidOk k) (htwo : 2 ≤ k.get.rest.length) :
    ∃ x t, delposInternal h k.get index = some (x, t) ∧
      Removes (flatten (h + 1) k.node) index x (flatten (h + 1) t) ∧
      KidOk (h := h + 1) ⟨t, k.count - 1⟩ := by
  obtain ⟨x, t, hsome, hrem, hkids, hle, hge⟩ := hdel
  have hthree : k.get.rest.length ≤ 3 := (ok_succ.mp hk.2).2.2
  have hlen : (flatten (h + 1) t).length = (flatten (h + 1) k.node).length - 1 := hrem.length
  have hpos : 1 ≤ t.rest.length := by omega
  refine ⟨x, t, hsome, hrem, ?_, ok_succ.mpr ⟨hkids, hpos, Nat.le_trans hle hthree⟩⟩
  rw [hlen]
  exact congrArg (· - 1) hk.1

section Step

variable {n : Node234 α (Subtree234 α (h + 1))} {index : Nat}

/-- The element is under a child. -/
theorem deletes_kid {g : Gap α (Subtree234 α (h + 1))} {i : Nat} (hn : KidsOk n)
    (hpos : 1 ≤ n.rest.length)
    (ih : ∀ (m : Node234 α (Subtree234 α h)) (j : Nat), Ok (h + 1) m →
      j < (flatten (h + 1) m).length → Deletes m j)
    (heq : locate [] n.first n.rest index = .kid g i) (hclose : n = close g.left g.kid g.right)
    (hi : i < (flatten (h + 1) g.kid.node).length) (hidx : index = (leftList g.left).length + i) :
    Deletes n index := by
  rw [hclose] at hn hpos
  rw [length_close] at hpos
  obtain ⟨g', i', hfeed, hfed⟩ := feed_spec hn hi hpos
  obtain ⟨hl, hk, hr⟩ := kidsOk_close.mp hfed.kids
  obtain ⟨x, t, hsome, hrem, ht⟩ := (ih g'.kid.get i' hk.2 hfed.lt).kid hk hfed.two
  refine ⟨x, close g'.left ⟨t, g'.kid.count - 1⟩ g'.right, ?_, ?_, kidsOk_close.mpr ⟨hl, ht, hr⟩, ?_, ?_⟩
  · rw [delposInternal_node, heq]
    simp [hfeed, hsome]
  · rw [hclose, ← hfed.list, flatten_close, flatten_close, hidx, ← hfed.position]
    exact hrem.append _ _
  · rw [hclose, length_close, length_close]
    exact hfed.length_le
  · rw [hclose, length_close, length_close]
    exact hfed.le_length

section Between

variable {l : List (Kid234 (Subtree234 α (h + 1)) × α)} {k k' : Kid234 (Subtree234 α (h + 1))}
  {x : α} {r : List (α × Kid234 (Subtree234 α (h + 1)))}
  (hn : KidsOk (close l k ((x, k') :: r)))
  (ih : ∀ (m : Node234 α (Subtree234 α h)) (j : Nat), Ok (h + 1) m →
    j < (flatten (h + 1) m).length → Deletes m j)
  (heq : locate [] n.first n.rest index = .elem l k x k' r)
  (hclose : n = close l k ((x, k') :: r))
  (hidx : index = (leftList l).length + (flatten (h + 1) k.node).length)

include hn ih heq hclose hidx

/-- The element between two children has its place taken by the last one before it. -/
theorem deletes_pred (htwo : k.get.hasTwo = true) : Deletes n index := by
  obtain ⟨hl, hk, hr⟩ := kidsOk_close.mp hn
  obtain ⟨hk', hr⟩ := List.forall_mem_cons.mp hr
  obtain ⟨p, s, hp, hs⟩ := lastElem_spec (n := k.get) hk.2
  have hnode : flatten (h + 1) k.node = s ++ [p] := hs
  have hcount : k.count - 1 = s.length := by
    rw [hk.1, hnode, List.length_append]
    rfl
  have hlt : k.count - 1 < (flatten (h + 1) k.get).length := by
    rw [hs, hcount, List.length_append]
    exact Nat.lt_succ_self _
  obtain ⟨y, t, hsome, hrem, ht⟩ := (ih k.get _ hk.2 hlt).kid hk (hasTwo_iff.mp htwo)
  rw [hnode, hcount] at hrem
  have hlist : flatten (h + 1) t = s := hrem.eq_append.trans (List.append_nil s)
  refine ⟨x, close l ⟨t, k.count - 1⟩ ((p, k') :: r), ?_, ?_,
    kidsOk_close.mpr ⟨hl, ht, List.forall_mem_cons.mpr ⟨hk', hr⟩⟩, ?_, ?_⟩
  · rw [delposInternal_node, heq]
    simp [htwo, hp, hsome]
  · refine ⟨leftList l ++ (s ++ [p]), restList ((x, k') :: r) |>.tail, ?_, ?_, ?_⟩
    · rw [hclose, flatten_close, hnode]
      simp [restList]
    · rw [hidx, hnode, List.length_append]
    · rw [flatten_close, hlist]
      simp [restList]
  · rw [hclose, length_close, length_close]
    exact Nat.le_refl _
  · rw [hclose, length_close, length_close]
    exact Nat.le_succ _

/-- The element between two children has its place taken by the first one behind it. -/
theorem deletes_succ (hone : k.get.hasTwo = false) (htwo : k'.get.hasTwo = true) :
    Deletes n index := by
  obtain ⟨hl, hk, hr⟩ := kidsOk_close.mp hn
  obtain ⟨hk', hr⟩ := List.forall_mem_cons.mp hr
  obtain ⟨p, s, hp, hs⟩ := firstElem_spec (n := k'.get) hk'.2
  have hnode : flatten (h + 1) k'.node = p :: s := hs
  have hlt : 0 < (flatten (h + 1) k'.get).length := by
    rw [hs]
    exact Nat.succ_pos _
  obtain ⟨y, t, hsome, hrem, ht⟩ := (ih k'.get 0 hk'.2 hlt).kid hk' (hasTwo_iff.mp htwo)
  rw [hnode] at hrem
  have hlist : flatten (h + 1) t = s := Removes.eq_append (a := []) hrem
  refine ⟨x, close l k ((p, ⟨t, k'.count - 1⟩) :: r), ?_, ?_,
    kidsOk_close.mpr ⟨hl, hk, List.forall_mem_cons.mpr ⟨ht, hr⟩⟩, ?_, ?_⟩
  · rw [delposInternal_node, heq]
    simp [hone, htwo, hp, hsome]
  · refine ⟨leftList l ++ flatten (h + 1) k.node, p :: s ++ restList r, ?_, ?_, ?_⟩
    · rw [hclose, flatten_close, restList, hnode]
      simp
    · rw [hidx, List.length_append]
    · rw [flatten_close, restList, hlist]
      simp
  · rw [hclose, length_close, length_close]
    exact Nat.le_refl _
  · rw [hclose, length_close, length_close]
    exact Nat.le_succ _

/-- Two children with one element each are merged around the element, and it is taken out of what
they have become. -/
theorem deletes_merge (hone : k.get.hasTwo = false) (hone' : k'.get.hasTwo = false) :
    Deletes n index := by
  obtain ⟨hl, hk, hr⟩ := kidsOk_close.mp hn
  obtain ⟨hk', hr⟩ := List.forall_mem_cons.mp hr
  obtain ⟨hkids, hlen⟩ := Ok.parts hk.2 hone
  obtain ⟨hkids', hlen'⟩ := Ok.parts hk'.2 hone'
  have hthree : (merge k.get x k'.get).rest.length = 3 := merge_three x hlen hlen'
  have hbig : KidOk (counted (merge k.get x k'.get)) :=
    kidOk_counted (kidsOk_merge hkids hkids') (by omega) (Nat.le_of_eq hthree)
  have hcount : k.get.count = (flatten (h + 1) k.node).length := hkids.count
  have hmerge : flatten (h + 1) (merge k.get x k'.get) =
      flatten (h + 1) k.node ++ x :: flatten (h + 1) k'.node := flatten_merge _ _ x
  have hlt : k.get.count < (flatten (h + 1) (merge k.get x k'.get)).length := by
    rw [hmerge, hcount, List.length_append, List.length_cons]
    omega
  obtain ⟨y, t, hsome, hrem, ht⟩ := (ih _ _ hbig.2 hlt).kid hbig (by
    rw [show (counted (merge k.get x k'.get)).get = merge k.get x k'.get from rfl, hthree]
    exact Nat.le_succ 2)
  change delposInternal h (merge k.get x k'.get) _ = _ at hsome
  change Removes (flatten (h + 1) (merge k.get x k'.get)) _ _ _ at hrem
  rw [hmerge, hcount] at hrem
  refine ⟨x, close l ⟨t, (merge k.get x k'.get).count - 1⟩ r, ?_, ?_,
    kidsOk_close.mpr ⟨hl, ht, hr⟩, ?_, ?_⟩
  · rw [delposInternal_node, heq]
    simp [hone, hone', hsome]
  · refine ⟨leftList l ++ flatten (h + 1) k.node, flatten (h + 1) k'.node ++ restList r, ?_, ?_, ?_⟩
    · rw [hclose, flatten_close, restList]
      simp
    · rw [hidx, List.length_append]
    · rw [flatten_close, hrem.eq_append]
      simp
  · rw [hclose, length_close, length_close, List.length_cons]
    omega
  · rw [hclose, length_close, length_close, List.length_cons]
    omega

end Between

end Step

/-- Every position of a node is deleted. -/
theorem deletes_node : ∀ {h : Nat} (n : Node234 α (Subtree234 α h)) (index : Nat), KidsOk n →
    1 ≤ n.rest.length → index < (flatten (h + 1) n).length → Deletes n index
  | 0, _, _, hn, _, hlt => deletes_leaf hn hlt
  | h + 1, n, index, hn, hpos, hlt => by
    have ih : ∀ (m : Node234 α (Subtree234 α h)) (j : Nat), Ok (h + 1) m →
        j < (flatten (h + 1) m).length → Deletes m j := fun m j hm hj =>
      deletes_node m j (ok_succ.mp hm).1 (ok_succ.mp hm).2.1 hj
    obtain ⟨l, k, x, k', r, heq, hclose, hidx⟩ | ⟨g, i, heq, hclose, hi, hidx⟩ := locate_node hn hlt
    · rw [hclose] at hn
      cases htwo : k.get.hasTwo with
      | true => exact deletes_pred hn ih heq hclose hidx htwo
      | false =>
        cases htwo' : k'.get.hasTwo with
        | true => exact deletes_succ hn ih heq hclose hidx htwo htwo'
        | false => exact deletes_merge hn ih heq hclose hidx htwo htwo'
    · exact deletes_kid hn hpos ih heq hclose hi hidx

end Delete

/-- An empty root is taken away. -/
theorem shrink_spec {h : Nat} {n : Node234 α (Subtree234 α h)} (hn : KidsOk n)
    (hle : n.rest.length ≤ 3) :
    (shrink n).Balanced ∧ (shrink n).toList = flatten (h + 1) n := by
  cases hrest : n.rest with
  | nil =>
    have hshrink : shrink n = ⟨h, n.first.node⟩ := by rw [shrink, hrest]; rfl
    rw [hshrink]
    refine ⟨hn.1.2, ?_⟩
    rw [flatten_succ, hrest, restList, List.append_nil]
    rfl
  | cons r rest =>
    have hshrink : shrink n = ⟨h + 1, n⟩ := by rw [shrink, hrest]; rfl
    have hpos : 1 ≤ n.rest.length := by rw [hrest]; exact Nat.succ_pos _
    rw [hshrink]
    exact ⟨ok_succ.mpr ⟨hn, hpos, hle⟩, rfl⟩

/-- `delpos234` takes out the element at a position that exists. -/
theorem delpos234_spec {t : Tree234 α} (ht : t.Balanced) {index : Nat}
    (hlt : index < t.toList.length) :
    ∃ x t', delpos234 t index = some (x, t') ∧ t'.Balanced ∧
      Removes t.toList index x t'.toList := by
  obtain ⟨_ | h, n⟩ := t
  · exact absurd hlt (Nat.not_lt_zero index)
  · obtain ⟨hkids, hpos, hle⟩ := ok_succ.mp ht
    obtain ⟨x, n', hsome, hrem, hkids', hle', -⟩ := deletes_node n index hkids hpos hlt
    obtain ⟨hbal, hlist⟩ := shrink_spec hkids' (Nat.le_trans hle' hle)
    have hcount : countnode234 (h := h + 1) n = (flatten (h + 1) n).length := Ok.countnode ht
    refine ⟨x, shrink n', ?_, hbal, ?_⟩
    · have hlt' : index < (flatten (h + 1) n).length := hlt
      rw [delpos234, hcount, if_neg (Nat.not_le_of_lt hlt'), hsome]
      rfl
    · rw [hlist]
      exact hrem

theorem delpos234_none {t : Tree234 α} (ht : t.Balanced) {index : Nat}
    (hle : t.toList.length ≤ index) : delpos234 t index = none := by
  obtain ⟨_ | h, n⟩ := t
  · rfl
  · have hcount : countnode234 (h := h + 1) n = (flatten (h + 1) n).length := Ok.countnode ht
    have hle' : (flatten (h + 1) n).length ≤ index := hle
    rw [delpos234, hcount, if_pos hle']

/-! ## Height -/

/-- Every level has at least one element in each node, and the node one child more. -/
theorem two_pow_le {h : Nat} {t : Subtree234 α h} (ht : Ok h t) :
    2 ^ h ≤ (flatten h t).length + 1 := by
  induction h with
  | zero => exact Nat.le_refl 1
  | succ h ih =>
    have hnode : ∀ n : Node234 α (Subtree234 α h), Ok (h + 1) n →
        2 ^ (h + 1) ≤ (flatten (h + 1) n).length + 1 := by
      intro n hn
      obtain ⟨hkids, hpos, -⟩ := ok_succ.mp hn
      obtain ⟨⟨e, k⟩, rest, hrest⟩ := List.exists_cons_of_length_pos hpos
      have hk : KidOk k := hkids.2 (e, k) (hrest ▸ List.mem_cons_self)
      have hfirst := ih hkids.1.2
      have hnext := ih hk.2
      rw [flatten_succ, hrest, restList, List.length_append, List.length_cons, List.length_append,
        Nat.pow_succ]
      omega
    exact hnode t ht

end Pebil

import Mathlib.Data.List.Basic

/-!
# The counted 2-3-4 tree (external/ReuseDistance/tree234.c)

A node has one to three elements and one more child, and the children of a leaf are `NULL`. What
is kept with a child is the number of elements under it, so that an element is found by its
position as well as by comparison.

The C code goes down and then back up by the `parent` pointers; here the way up is the return from
a recursive call. By the type, all leaves under a node have the same depth. A count is an `int`
there and a natural number here.
-/

namespace Pebil

variable {α κ : Type}

/-- A child of a node, and its entry in `counts`. -/
structure Kid234 (κ : Type) where
  node : κ
  count : Nat

/-- A node: `kids[0]`, and each element with the child behind it. -/
structure Node234 (α κ : Type) where
  first : Kid234 κ
  rest : List (α × Kid234 κ)

/-- What a pointer to a node at some height stands for: at height 0 it is `NULL`. -/
def Subtree234 (α : Type) : Nat → Type
  | 0 => Unit
  | h + 1 => Node234 α (Subtree234 α h)

/-- `tree234`. -/
structure Tree234 (α : Type) where
  height : Nat
  root : Subtree234 α height

/-- `newtree234`. -/
def newtree234 : Tree234 α := ⟨0, ()⟩

namespace Node234

/-- A place among the children of a node: what is before it, nearest first, and what is behind. -/
structure Gap (α κ : Type) where
  left : List (Kid234 κ × α)
  kid : Kid234 κ
  right : List (α × Kid234 κ)

/-- The node around a child. -/
def close : List (Kid234 κ × α) → Kid234 κ → List (α × Kid234 κ) → Node234 α κ
  | [], kid, right => ⟨kid, right⟩
  | (k, e) :: left, kid, right => close left k ((e, kid) :: right)

/-- What the elements and the counts behind the first child add up to. -/
def restCount : List (α × Kid234 κ) → Nat
  | [] => 0
  | r :: rest => r.2.count + 1 + restCount rest

/-- `countnode234` of a node. -/
def count (n : Node234 α κ) : Nat := n.first.count + restCount n.rest

/-- `elems[1] != NULL`. -/
def hasTwo (n : Node234 α κ) : Bool := 2 ≤ n.rest.length

/-- The children in front of the others, an element, and the rest. -/
def merge (a : Node234 α κ) (e : α) (b : Node234 α κ) : Node234 α κ :=
  ⟨a.first, a.rest ++ (e, b.first) :: b.rest⟩

/-- The last child. -/
def lastKid (n : Node234 α κ) : Kid234 κ := (n.rest.getLast?.map Prod.snd).getD n.first

/-- The element that compares equal, or the child to go on in. -/
def descend (c : α → Int) : List (Kid234 κ × α) → Kid234 κ → List (α × Kid234 κ) → α ⊕ Gap α κ
  | left, kid, [] => .inr ⟨left, kid, []⟩
  | left, kid, (x, k) :: rest =>
    if c x < 0 then .inr ⟨left, kid, (x, k) :: rest⟩
    else if c x = 0 then .inl x
    else descend c ((kid, x) :: left) k rest

/-- What is at a position: an element between two children, or it is under a child. -/
inductive Place (α κ : Type) where
  | elem (left : List (Kid234 κ × α)) (kid : Kid234 κ) (e : α) (next : Kid234 κ)
    (right : List (α × Kid234 κ))
  | kid (gap : Gap α κ) (index : Nat)

/-- The comparisons of an index with the counts, in `index234` and in `delpos234`. -/
def locate : List (Kid234 κ × α) → Kid234 κ → List (α × Kid234 κ) → Nat → Place α κ
  | left, kid, [], index => .kid ⟨left, kid, []⟩ index
  | left, kid, (x, k) :: rest, index =>
    if index < kid.count then .kid ⟨left, kid, (x, k) :: rest⟩ index
    else if index - kid.count = 0 then .elem left kid x k rest
    else locate ((kid, x) :: left) k rest (index - (kid.count + 1))

end Node234

open Node234

/-- `countnode234`. -/
def countnode234 : {h : Nat} → Subtree234 α h → Nat
  | 0, _ => 0
  | _ + 1, n => Node234.count n

/-- `count234`. -/
def count234 (t : Tree234 α) : Nat := countnode234 t.root

/-! ## Adding -/

/-- What comes back from adding to a subtree: an element that was there and compares equal, the
subtree with the element in it, or two subtrees and an element that goes between them. -/
inductive Added234 (α κ : Type) where
  | found (x : α)
  | fits (t : κ)
  | splits (left : Kid234 κ) (e : α) (right : Kid234 κ)

/-- The new element goes between two children. A node that had three elements is divided: the two
first of the four are the left part, the last one is the right part, and the third goes up. -/
def Node234.Gap.insert {h : Nat} (g : Gap α (Subtree234 α h)) (left : Kid234 (Subtree234 α h))
    (e : α) (right : Kid234 (Subtree234 α h)) : Added234 α (Subtree234 α (h + 1)) :=
  let n := close g.left left ((e, right) :: g.right)
  match n.rest with
  | [a, b, c, d] =>
    let m : Node234 α (Subtree234 α h) := ⟨n.first, [a, b]⟩
    let n : Node234 α (Subtree234 α h) := ⟨c.2, [d]⟩
    .splits ⟨m, m.count⟩ c.1 ⟨n, n.count⟩
  | _ => .fits n

/-- `add234_internal` in a subtree, with what the comparison of the new element gives. -/
def addInternal (c : α → Int) (e : α) : (h : Nat) → Subtree234 α h → Added234 α (Subtree234 α h)
  | 0, _ => .splits ⟨(), 0⟩ e ⟨(), 0⟩
  | h + 1, n =>
    match descend c [] n.first n.rest with
    | .inl x => .found x
    | .inr g =>
      match addInternal c e h g.kid.node with
      | .found x => .found x
      | .fits t => .fits (close g.left ⟨t, countnode234 t⟩ g.right)
      | .splits left x right => g.insert left x right

/-- `add234`: the tree, and the element or the one that was there. -/
def add234 (cmp : α → α → Int) (t : Tree234 α) (e : α) : Tree234 α × α :=
  match addInternal (cmp e) e t.height t.root with
  | .found x => (t, x)
  | .fits n => (⟨t.height, n⟩, e)
  | .splits left x right => (⟨t.height + 1, ⟨left, [(x, right)]⟩⟩, e)

/-! ## Looking up -/

/-- `index234` in a subtree. -/
def indexInternal : (h : Nat) → Subtree234 α h → Nat → Option α
  | 0, _, _ => none
  | h + 1, n, index =>
    match locate [] n.first n.rest index with
    | .elem _ _ x _ _ => some x
    | .kid g index => indexInternal h g.kid.node index

/-- `index234`. -/
def index234 (t : Tree234 α) (index : Nat) : Option α :=
  if count234 t ≤ index then none else indexInternal t.height t.root index

/-- The loop over the elements of a node in `findrelpos234`. The count of a `NULL` child is not
added. -/
def Node234.seek {h : Nat} (c : α → Int) :
    Nat → Kid234 (Subtree234 α h) → List (α × Kid234 (Subtree234 α h)) →
      (α × Nat) ⊕ (Kid234 (Subtree234 α h) × Nat)
  | idx, kid, [] => .inr (kid, idx)
  | idx, kid, (x, k) :: rest =>
    let below := if h = 0 then 0 else kid.count
    if c x < 0 then .inr (kid, idx)
    else if c x = 0 then .inl (x, idx + below)
    else seek c (idx + below + 1) k rest

/-- `findrelpos234` in a subtree: the element that compares equal, and its position. -/
def findInternal (c : α → Int) : (h : Nat) → Subtree234 α h → Nat → Option (α × Nat)
  | 0, _, _ => none
  | h + 1, n, idx =>
    match Node234.seek c idx n.first n.rest with
    | .inl found => some found
    | .inr (kid, idx) => findInternal c h kid.node idx

/-- `findrelpos234`. -/
def findrelpos234 (cmp : α → α → Int) (t : Tree234 α) (e : α) : Option (α × Nat) :=
  findInternal (cmp e) t.height t.root 0

/-! ## Deleting -/

section Delete

variable {h : Nat}

/-- The last element under a node. -/
def lastElem : (h : Nat) → Node234 α (Subtree234 α h) → Option α
  | 0, n => n.rest.getLast?.map Prod.fst
  | h + 1, n => lastElem h n.lastKid.node

/-- The first element under a node. -/
def firstElem : (h : Nat) → Node234 α (Subtree234 α h) → Option α
  | 0, n => n.rest.head?.map Prod.fst
  | h + 1, n => firstElem h n.first.node

/-- The node of a child that is not `NULL`. -/
def Kid234.get (k : Kid234 (Subtree234 α (h + 1))) : Node234 α (Subtree234 α h) := k.node

/-- A child with its count, as `countnode234` gives it. -/
def counted (n : Node234 α (Subtree234 α h)) : Kid234 (Subtree234 α (h + 1)) := ⟨n, n.count⟩

/-- Case 3a, left-handed: the last child of the sibling before, and the element between. -/
def borrowLeft (g : Gap α (Subtree234 α (h + 1))) (index : Nat) :
    Option (Gap α (Subtree234 α (h + 1)) × Nat) :=
  match g.left with
  | [] => none
  | (sib, e) :: left =>
    match sib.get.rest.getLast? with
    | none => none
    | some (x, k) =>
      if sib.get.hasTwo then
        let sib' := counted ⟨sib.get.first, sib.get.rest.dropLast⟩
        some (⟨(sib', x) :: left, counted ⟨k, (e, g.kid.get.first) :: g.kid.get.rest⟩, g.right⟩,
          index + sib.count - sib'.count)
      else none

/-- Case 3a, right-handed: the first child of the sibling behind. -/
def borrowRight (g : Gap α (Subtree234 α (h + 1))) (index : Nat) :
    Option (Gap α (Subtree234 α (h + 1)) × Nat) :=
  match g.right with
  | [] => none
  | (e, sib) :: right =>
    match sib.get.rest with
    | [] => none
    | (x, k) :: rest =>
      if sib.get.hasTwo then
        some (⟨g.left, counted ⟨g.kid.get.first, g.kid.get.rest ++ [(e, sib.get.first)]⟩,
          (x, counted ⟨k, rest⟩) :: right⟩, index)
      else none

/-- Case 3b: the child and the sibling before it, or behind it, become one. -/
def joinKids (g : Gap α (Subtree234 α (h + 1))) (index : Nat) :
    Option (Gap α (Subtree234 α (h + 1)) × Nat) :=
  match g.left, g.right with
  | (sib, e) :: left, _ =>
    some (⟨left, counted (merge sib.get e g.kid.get), g.right⟩, index + (sib.count + 1))
  | [], (e, sib) :: right => some (⟨[], counted (merge g.kid.get e sib.get), right⟩, index)
  | [], [] => none

/-- Case 3: a child that is gone down to gets a second element if it has only one, and the index
changes with what is put in front. -/
def feed (g : Gap α (Subtree234 α (h + 1))) (index : Nat) :
    Option (Gap α (Subtree234 α (h + 1)) × Nat) :=
  if g.kid.get.hasTwo then some (g, index)
  else (borrowLeft g index).orElse fun _ => (borrowRight g index).orElse fun _ => joinKids g index

/-- One round of the loop of `delpos234_internal`, and those that follow it. In a leaf the element
goes. An element between two children has the place taken by the one before it or behind it, which
is deleted under the child instead; where both children have one element only, they are merged
around it, and it is deleted there. On the way back every count goes down by one. A root without
elements stays here, and is taken away by `shrink`. -/
def delposInternal : (h : Nat) → Node234 α (Subtree234 α h) → Nat →
    Option (α × Node234 α (Subtree234 α h))
  | 0, n, index =>
    match locate [] n.first n.rest index with
    | .elem left kid x _ right => some (x, close left kid right)
    | .kid _ _ => none
  | h + 1, n, index =>
    match locate [] n.first n.rest index with
    | .kid g index => do
      let (g, index) ← feed g index
      let (x, t) ← delposInternal h g.kid.get index
      return (x, close g.left ⟨t, g.kid.count - 1⟩ g.right)
    | .elem left kid x next right =>
      if kid.get.hasTwo then do
        let target ← lastElem h kid.get
        let (_, t) ← delposInternal h kid.get (kid.count - 1)
        return (x, close left ⟨t, kid.count - 1⟩ ((target, next) :: right))
      else if next.get.hasTwo then do
        let target ← firstElem h next.get
        let (_, t) ← delposInternal h next.get 0
        return (x, close left kid ((target, ⟨t, next.count - 1⟩) :: right))
      else do
        let big := merge kid.get x next.get
        let (_, t) ← delposInternal h big kid.get.count
        return (x, close left ⟨t, big.count - 1⟩ right)

end Delete

/-- The root that is left without elements is replaced with its only child. -/
def shrink {h : Nat} (n : Node234 α (Subtree234 α h)) : Tree234 α :=
  if n.rest.isEmpty then ⟨h, n.first.node⟩ else ⟨h + 1, n⟩

/-- `delpos234`. -/
def delpos234 : Tree234 α → Nat → Option (α × Tree234 α)
  | ⟨0, _⟩, _ => none
  | ⟨h + 1, n⟩, index =>
    if countnode234 (h := h + 1) n ≤ index then none
    else (delposInternal h n index).map fun d => (d.1, shrink d.2)

end Pebil

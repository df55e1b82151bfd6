import Mathlib.Data.BitVec
import Pebil.Lib.BinaryHeap

/-!
# `PriorityQueue<T, P>` (include/PriorityQueue.h)

A binary heap of the entries `entries[1]` to `entries[elementCount]`, in an array that is doubled
when it is full. Priorities are unsigned integers of `w` bits; `minimumPriority`, which
`getMinPriority` returns, is a `double` for all of them. `insert` raises it and nothing lowers it.

From 2^31 elements on the arithmetic on indices overflows; what happens then is left open.
-/

namespace Pebil

/-- The `double` that an unsigned integer of at most 64 bits is converted to: 53 bits of it, rounded
to the nearest, to even ones in a tie. -/
def toDouble (n : Nat) : Nat :=
  let unit := 2 ^ (n.log2 - 52)
  let q := n / unit
  let r := n % unit
  if 2 * r < unit ∨ (2 * r = unit ∧ q % 2 = 0) then q * unit else (q + 1) * unit

structure PriorityQueue (T : Type) (w : Nat) where
  bufferCount : Nat
  entries : List (BitVec w × T)
  minimumPriority : Nat

namespace PriorityQueue

variable {T : Type} {w : Nat}

/-- The constructor with a size. -/
def new (size : BitVec 32) : PriorityQueue T w where
  bufferCount := size.toNat
  entries := []
  minimumPriority := 0

variable (q : PriorityQueue T w)

def elementCount : Nat := q.entries.length

/-- The length of the array. -/
def allocated : Nat := (q.bufferCount + 1) % 2 ^ 32

/-- What the heap is ordered by. -/
def prio (e : BitVec w × T) : Nat := e.1.toNat

/-- `doubleSize`; `elementCount + 1` entries are copied. None is a copy behind the array. -/
def doubleSize : Option (PriorityQueue T w) :=
  let q' := { q with bufferCount := q.elementCount * 2 % 2 ^ 32 }
  if q.elementCount + 1 ≤ q'.allocated then some q' else none

def isEmpty : Bool := q.elementCount == 0

/-- `getMinPriority`; a `double` that is no such priority is not converted. -/
def getMinPriority : Option (BitVec w) :=
  if q.minimumPriority < 2 ^ w then some (BitVec.ofNat w q.minimumPriority) else none

/-- `findMin`. None is a failed assertion. -/
def findMin : Option T := q.entries.head?.map (·.2)

/-- `deleteMin`, with the priority. None is a failed assertion. -/
def deleteMin : Option ((BitVec w × T) × PriorityQueue T w) :=
  if 2 ^ 31 ≤ q.elementCount then none
  else (BinaryHeap.deleteMin prio q.entries).map fun r => (r.1, { q with entries := r.2 })

/-- `insert`. None is a failed assertion, or a write behind the array. -/
def insert (data : T) (p : BitVec w) : Option (PriorityQueue T w) :=
  (if q.elementCount = q.bufferCount then q.doubleSize else some q).bind fun q =>
    if q.elementCount < q.bufferCount ∧ q.elementCount + 1 < q.allocated ∧
        q.elementCount + 1 < 2 ^ 31 then
      some { q with
        entries := BinaryHeap.insert prio (p, data) q.entries
        minimumPriority :=
          if q.minimumPriority < toDouble p.toNat then toDouble p.toNat else q.minimumPriority }
    else none

/-- A sequence of operations on a new queue, with what has been inserted and deleted in it. -/
inductive Run (size : BitVec 32) :
    PriorityQueue T w → List (BitVec w × T) → List (BitVec w × T) → Prop
  | start : Run size (new size) [] []
  | insert {q inserted deleted data p q'} : Run size q inserted deleted →
      q.insert data p = some q' → Run size q' ((p, data) :: inserted) deleted
  | deleteMin {q inserted deleted e q'} : Run size q inserted deleted →
      q.deleteMin = some (e, q') → Run size q' inserted (e :: deleted)

/-- What a queue promises, after some insertions and deletions. -/
structure Right (q : PriorityQueue T w) (inserted deleted : List (BitVec w × T)) : Prop where
  isEmpty_iff : q.isEmpty = true ↔ inserted.length = deleted.length
  /-- no entry is lost or duplicated -/
  kept : (q.entries ++ deleted).Perm inserted
  insert : ∀ data p, ∃ q', q.insert data p = some q'
  /-- an entry of least priority is deleted and reported, and no other -/
  deleteMin : inserted.length ≠ deleted.length → ∃ e q', q.deleteMin = some (e, q') ∧
    (∀ e' ∈ q.entries, e.1 ≤ e'.1) ∧ (e :: q'.entries).Perm q.entries ∧
    q.findMin = some e.2 ∧ q.getMinPriority = some e.1

/-- The largest priority that has been inserted, as a `double`. -/
def largest (inserted : List (BitVec w × T)) : Nat :=
  (inserted.map fun e => toDouble e.1.toNat).foldr max 0

/-- The queue was made with room for entries, and the largest priority that has been inserted is,
as a `double`, the least of those that are in it. -/
structure Conforms (size : BitVec 32) (q : PriorityQueue T w) (inserted : List (BitVec w × T)) :
    Prop where
  size : size ≠ 0 ∧ size.toNat + 1 < 2 ^ 32
  largest : ∀ e ∈ q.entries, (∀ e' ∈ q.entries, e.1 ≤ e'.1) → largest inserted = e.1.toNat

/-! ## What the operations keep -/

/-- The array has room for entries, and its length does not overflow. -/
def Sized (bufferCount : Nat) : Prop := 0 < bufferCount ∧ bufferCount + 1 < 2 ^ 32

variable {q q' : PriorityQueue T w} {size : BitVec 32} {inserted deleted : List (BitVec w × T)}
  {data : T} {p : BitVec w} {e : BitVec w × T}

/-- What an insertion that succeeds does; with room for entries it does. -/
theorem insert_cases (h : q.insert data p = some q') :
    q.elementCount + 1 < 2 ^ 31 ∧ q'.entries = BinaryHeap.insert prio (p, data) q.entries ∧
      q'.minimumPriority = max (toDouble p.toNat) q.minimumPriority ∧
      (q'.bufferCount = q.bufferCount ∨ q'.bufferCount = q.elementCount * 2 % 2 ^ 32) ∧
      q.elementCount < q'.bufferCount ∧ q.elementCount + 1 < q'.allocated := by
  have hmax : ∀ m n : Nat, (if m < n then n else m) = max n m := fun m n => by
    split <;> omega
  obtain ⟨r, hr, h⟩ := Option.bind_eq_some_iff.mp h
  have hsame : r.entries = q.entries ∧ r.minimumPriority = q.minimumPriority ∧
      (r.bufferCount = q.bufferCount ∨ r.bufferCount = q.elementCount * 2 % 2 ^ 32) := by
    split at hr
    · unfold doubleSize at hr
      dsimp only at hr
      split at hr
      · obtain rfl := Option.some.inj hr
        exact ⟨rfl, rfl, .inr rfl⟩
      · cases hr
    · obtain rfl := Option.some.inj hr
      exact ⟨rfl, rfl, .inl rfl⟩
  obtain ⟨hentries, hmin, hbuffer⟩ := hsame
  split at h
  next hroom =>
    obtain rfl := Option.some.inj h
    simp only [elementCount, hentries] at hroom
    refine ⟨hroom.2.2, ?_, ?_, hbuffer, hroom.1, hroom.2.1⟩
    · rw [hentries]
    · rw [hmin, hmax]
  next => cases h

theorem exists_insert (hsized : Sized q.bufferCount) (hle : q.elementCount ≤ q.bufferCount)
    (hcount : q.elementCount + 1 < 2 ^ 31) (data : T) (p : BitVec w) :
    ∃ q', q.insert data p = some q' := by
  obtain ⟨hpos, hmax⟩ := hsized
  -- after doubling there is room as well
  have hready : ∃ r : PriorityQueue T w,
      (if q.elementCount = q.bufferCount then q.doubleSize else some q) = some r ∧
      r.entries = q.entries ∧ q.elementCount < r.bufferCount ∧ r.bufferCount + 1 < 2 ^ 32 := by
    by_cases hfull : q.elementCount = q.bufferCount
    · refine ⟨{ q with bufferCount := q.elementCount * 2 % 2 ^ 32 }, ?_, rfl, ?_, ?_⟩
      · rw [if_pos hfull, doubleSize]
        refine if_pos ?_
        show q.elementCount + 1 ≤ (q.elementCount * 2 % 2 ^ 32 + 1) % 2 ^ 32
        omega
      · dsimp only
        omega
      · dsimp only
        omega
    · exact ⟨q, if_neg hfull, rfl, by omega, hmax⟩
  obtain ⟨r, hr, hentries, hroom, hlength⟩ := hready
  have hcount' : r.elementCount = q.elementCount := congrArg List.length hentries
  have hfits : r.elementCount < r.bufferCount ∧ r.elementCount + 1 < r.allocated ∧
      r.elementCount + 1 < 2 ^ 31 := by
    rw [allocated, Nat.mod_eq_of_lt hlength]
    omega
  unfold insert
  rw [hr, Option.bind_some, if_pos hfits]
  exact ⟨_, rfl⟩

theorem deleteMin_cases (h : q.deleteMin = some (e, q')) :
    BinaryHeap.deleteMin prio q.entries = some (e, q'.entries) ∧
      q' = { q with entries := q'.entries } := by
  unfold deleteMin at h
  split at h
  · cases h
  · obtain ⟨⟨e', l⟩, hdel, heq⟩ := Option.map_eq_some_iff.mp h
    obtain ⟨rfl, rfl⟩ := Prod.mk.inj heq
    exact ⟨hdel, rfl⟩

/-- What a sequence of operations keeps. -/
structure Kept (q : PriorityQueue T w) (inserted deleted : List (BitVec w × T)) : Prop where
  ordered : BinaryHeap.Ordered prio q.entries
  perm : (q.entries ++ deleted).Perm inserted
  minimum : q.minimumPriority = largest inserted

theorem Run.kept (h : Run size q inserted deleted) : q.Kept inserted deleted := by
  induction h with
  | start => exact ⟨fun k _ hk => absurd hk (Nat.not_lt_zero k), .refl _, rfl⟩
  | insert _ hinsert ih =>
    obtain ⟨-, hentries, hmin, -⟩ := insert_cases hinsert
    refine ⟨?_, ?_, ?_⟩
    · rw [hentries]
      exact BinaryHeap.insert_ordered ih.ordered
    · rw [hentries]
      exact ((BinaryHeap.insert_perm _ _).append_right _).trans (ih.perm.cons _)
    · rw [hmin, ih.minimum]
      rfl
  | deleteMin _ hdelete ih =>
    obtain ⟨hheap, hq'⟩ := deleteMin_cases hdelete
    obtain ⟨hperm, hordered, -⟩ := BinaryHeap.deleteMin_spec ih.ordered hheap
    refine ⟨hordered, ?_, ?_⟩
    · exact (List.perm_middle.trans (hperm.append_right _)).trans ih.perm
    · rw [hq']
      exact ih.minimum

/-- `deleteMin` takes one entry. -/
theorem Run.elementCount_deleteMin (h : Run size q inserted deleted)
    (hdelete : q.deleteMin = some (e, q')) : q.elementCount = q'.elementCount + 1 :=
  (BinaryHeap.deleteMin_spec h.kept.ordered (deleteMin_cases hdelete).1).1.length_eq.symm

/-- With room at the start there always is. -/
theorem Run.sized (h : Run size q inserted deleted) (hsize : Sized size.toNat) :
    Sized q.bufferCount ∧ q.elementCount ≤ q.bufferCount := by
  induction h with
  | start => exact ⟨hsize, Nat.zero_le _⟩
  | insert _ hinsert ih =>
    obtain ⟨hcount, hentries, -, hbuffer, hroom, -⟩ := insert_cases hinsert
    have hlength := congrArg List.length hentries
    rw [(BinaryHeap.insert_perm _ _).length_eq, List.length_cons] at hlength
    refine ⟨?_, ?_⟩
    · rcases hbuffer with h | h
      · rw [h]
        exact ih.1
      · refine ⟨by omega, ?_⟩
        rw [h]
        omega
    · simp only [elementCount] at hroom ⊢
      omega
  | deleteMin hrun hdelete ih =>
    have hcount := hrun.elementCount_deleteMin hdelete
    have hbuffer := congrArg bufferCount (deleteMin_cases hdelete).2
    dsimp only at hbuffer
    rw [hbuffer]
    exact ⟨ih.1, by omega⟩

/-- Without room nothing can be inserted. -/
theorem Run.eq_new (h : Run size q inserted deleted) (hsize : ¬Sized size.toNat) : q = new size := by
  induction h with
  | start => rfl
  | insert _ hinsert ih =>
    subst ih
    obtain ⟨-, -, -, hbuffer, hroom, halloc⟩ := insert_cases hinsert
    have hbuffer : _ = size.toNat := hbuffer.resolve_right fun h0 => by
      rw [h0] at hroom
      exact absurd hroom (Nat.not_lt_zero _)
    rw [hbuffer] at hroom
    rw [allocated, hbuffer] at halloc
    have hlt := size.isLt
    refine absurd ⟨Nat.lt_of_le_of_lt (Nat.zero_le _) hroom, ?_⟩ hsize
    omega
  | deleteMin _ hdelete ih =>
    subst ih
    cases (deleteMin_cases hdelete).1

/-! ## Filling and emptying -/

/-- `insert` for each entry of a list. -/
def insertAll (q : PriorityQueue T w) (entries : List (BitVec w × T)) :
    Option (PriorityQueue T w) :=
  entries.foldlM (fun q e => q.insert e.2 e.1) q

/-- `deleteMin` so many times. -/
def drain : Nat → PriorityQueue T w → Option (List (BitVec w × T))
  | 0, _ => some []
  | n + 1, q => q.deleteMin.bind fun r => (drain n r.2).map (r.1 :: ·)

/-- Into a queue made with room, a list can be inserted. -/
theorem Run.insertAll (h : Run size q inserted deleted) (hsize : Sized size.toNat)
    {l : List (BitVec w × T)} (hcount : q.elementCount + l.length < 2 ^ 31) :
    ∃ q', q.insertAll l = some q' ∧ Run size q' (l.reverse ++ inserted) deleted ∧
      q'.elementCount = q.elementCount + l.length := by
  induction l generalizing q inserted with
  | nil => exact ⟨q, rfl, h, rfl⟩
  | cons e l ih =>
    rw [List.length_cons] at hcount
    obtain ⟨hsized, hle⟩ := h.sized hsize
    obtain ⟨q₁, hinsert⟩ := exists_insert hsized hle (by omega) e.2 e.1
    have hlength : q₁.elementCount = q.elementCount + 1 := by
      rw [elementCount, (insert_cases hinsert).2.1, (BinaryHeap.insert_perm _ _).length_eq]
      rfl
    obtain ⟨q', hall, hrun, hlength'⟩ := ih (h.insert hinsert) (by omega)
    refine ⟨q', ?_, by simpa using hrun, by simp only [List.length_cons]; omega⟩
    rw [PriorityQueue.insertAll, List.foldlM_cons, hinsert]
    exact hall

/-! ## When a queue is right -/

theorem getMinPriority_eq_some : q.getMinPriority = some p ↔ q.minimumPriority = p.toNat := by
  unfold getMinPriority
  split
  next hlt =>
    rw [Option.some.injEq]
    constructor
    · rintro rfl
      rw [BitVec.toNat_ofNat, Nat.mod_eq_of_lt hlt]
    · intro h
      rw [h, BitVec.ofNat_toNat, BitVec.setWidth_eq]
  next hge => exact iff_of_false nofun fun h => hge (h ▸ p.isLt)

theorem Kept.length (h : q.Kept inserted deleted) :
    q.elementCount + deleted.length = inserted.length := by
  have hlength := h.perm.length_eq
  rwa [List.length_append] at hlength

/-- Without the priority that is reported, `deleteMin` and `findMin` are right. -/
theorem Kept.deleteMin (h : q.Kept inserted deleted) (hcount : q.elementCount + 1 < 2 ^ 31)
    (hne : q.entries ≠ []) : ∃ e q', q.deleteMin = some (e, q') ∧
      (∀ e' ∈ q.entries, e.1 ≤ e'.1) ∧ (e :: q'.entries).Perm q.entries ∧ q.findMin = some e.2 := by
  cases hheap : BinaryHeap.deleteMin prio q.entries with
  | none => exact absurd (BinaryHeap.deleteMin_eq_none.mp hheap) hne
  | some r =>
    obtain ⟨e, l⟩ := r
    obtain ⟨hperm, -, hleast⟩ := BinaryHeap.deleteMin_spec h.ordered hheap
    refine ⟨e, { q with entries := l }, ?_, fun e' he' => BitVec.le_def.mpr (hleast e' he'), hperm, ?_⟩
    · rw [PriorityQueue.deleteMin, if_neg (by omega), hheap]
      rfl
    · rw [findMin]
      cases hentries : q.entries with
      | nil => exact absurd hentries hne
      | cons r rest =>
        rw [hentries, BinaryHeap.deleteMin] at hheap
        obtain ⟨rfl, -⟩ := Prod.mk.inj (Option.some.inj hheap)
        rfl

/-- Emptied, a queue gives its entries in the order of their priorities. -/
theorem Run.drain (h : Run size q inserted deleted) (hcount : q.elementCount + 1 < 2 ^ 31) :
    ∃ l, drain q.elementCount q = some l ∧ l.Perm q.entries ∧
      l.Pairwise fun e e' => e.1 ≤ e'.1 := by
  generalize hn : q.elementCount = n at hcount ⊢
  induction n generalizing q deleted with
  | zero =>
    have hnil : q.entries = [] := List.length_eq_zero_iff.mp hn
    exact ⟨[], rfl, by rw [hnil], .nil⟩
  | succ n ih =>
    have hne : q.entries ≠ [] := fun hnil => by
      rw [elementCount, hnil] at hn
      cases hn
    obtain ⟨e, q', hdelete, hleast, hperm, -⟩ := h.kept.deleteMin (by omega) hne
    have hcount' := h.elementCount_deleteMin hdelete
    obtain ⟨l, hdrain, hl, hsorted⟩ := ih (h.deleteMin hdelete) (by omega) (by omega)
    refine ⟨e :: l, by rw [PriorityQueue.drain, hdelete, Option.bind_some, hdrain]; rfl,
      (hl.cons e).trans hperm, List.pairwise_cons.mpr ⟨fun e' he' => ?_, hsorted⟩⟩
    exact hleast e' (hperm.mem_iff.mp (List.mem_cons_of_mem e (hl.mem_iff.mp he')))

/-- **Priority queues.** With fewer than 2^31 elements a queue is right exactly if it was made with
room, and the largest priority inserted so far is the least that is in it. -/
theorem right_iff [Inhabited T] (h : Run size q inserted deleted)
    (hcount : q.elementCount + 1 < 2 ^ 31) :
    Right q inserted deleted ↔ Conforms size q inserted := by
  have hkept := h.kept
  have hlength := hkept.length
  constructor
  · intro hright
    have hsize : Sized size.toNat := by
      by_contra hnot
      -- nothing could have been inserted
      obtain ⟨q', hq'⟩ := hright.insert default 0
      have hempty : q'.entries = [] := congrArg entries ((Run.insert h hq').eq_new hnot)
      have hone := congrArg List.length (insert_cases hq').2.1
      rw [hempty, (BinaryHeap.insert_perm _ _).length_eq] at hone
      cases hone
    refine ⟨⟨?_, hsize.2⟩, fun e he hleast => ?_⟩
    · rintro rfl
      exact absurd hsize.1 (Nat.lt_irrefl 0)
    · have hpos : 0 < q.elementCount := List.length_pos_of_mem he
      obtain ⟨e', q', -, hleast', hperm, -, hmin⟩ := hright.deleteMin (by omega)
      have he' : e' ∈ q.entries := hperm.mem_iff.mp List.mem_cons_self
      have heq : e'.1 = e.1 := BitVec.le_antisymm (hleast' e he) (hleast e' he')
      rw [← hkept.minimum, getMinPriority_eq_some.mp hmin, heq]
  · rintro ⟨⟨hzero, hmax⟩, hlargest⟩
    have hpos : 0 < size.toNat := Nat.pos_of_ne_zero fun h0 => hzero (BitVec.eq_of_toNat_eq h0)
    obtain ⟨hsized, hle⟩ := h.sized ⟨hpos, hmax⟩
    refine ⟨?_, hkept.perm, exists_insert hsized hle hcount, fun hne => ?_⟩
    · rw [isEmpty, beq_iff_eq]
      omega
    · have hentries : q.entries ≠ [] := fun hnil => by
        rw [elementCount, hnil, List.length_nil] at hlength
        omega
      obtain ⟨e, q', hdelete, hleast, hperm, hfind⟩ := hkept.deleteMin hcount hentries
      have he : e ∈ q.entries := hperm.mem_iff.mp List.mem_cons_self
      refine ⟨e, q', hdelete, hleast, hperm, hfind, getMinPriority_eq_some.mpr ?_⟩
      rw [hkept.minimum]
      exact hlargest e he hleast

/-- Two entries of the same priority; the array of one is doubled for the second. -/
theorem right_equal : Right (⟨2, [(7, 10), (7, 20)], 7⟩ : PriorityQueue Nat 64)
    [(7, 20), (7, 10)] [] := by
  have hfirst : (new 1 : PriorityQueue Nat 64).insert 10 7 = some ⟨1, [(7, 10)], 7⟩ := rfl
  have hsecond : (⟨1, [(7, 10)], 7⟩ : PriorityQueue Nat 64).insert 20 7 =
      some ⟨2, [(7, 10), (7, 20)], 7⟩ := rfl
  exact (right_iff (.insert (.insert .start hfirst) hsecond) (by decide)).mpr
    ⟨by decide, by decide⟩

/-- After the priorities 1 and 2, the least that is reported is 2. -/
theorem not_right : ¬∀ size (q : PriorityQueue Nat 64) inserted deleted,
    Run size q inserted deleted → Right q inserted deleted := by
  intro h
  have hfirst : (new 1 : PriorityQueue Nat 64).insert 10 1 = some ⟨1, [(1, 10)], 1⟩ := rfl
  have hsecond : (⟨1, [(1, 10)], 1⟩ : PriorityQueue Nat 64).insert 20 2 =
      some ⟨2, [(1, 10), (2, 20)], 2⟩ := rfl
  obtain ⟨e, q', -, hleast, hperm, -, hmin⟩ :=
    (h 1 _ _ _ (.insert (.insert .start hfirst) hsecond)).deleteMin (by decide)
  have hmin : (2 : BitVec 64) = e.1 := Option.some.inj hmin
  have hle := hleast (1, 10) List.mem_cons_self
  rw [← hmin] at hle
  exact absurd hle (by decide)

end PriorityQueue

end Pebil

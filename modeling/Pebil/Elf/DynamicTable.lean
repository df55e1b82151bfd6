import Mathlib.Algebra.Group.Nat.Defs
import Mathlib.Data.Bool.Basic
import Mathlib.Data.List.Induction
import Mathlib.Data.List.Pairwise
import Mathlib.Order.BoundedOrder.Basic
import Mathlib.Tactic.ByContra

/-!
# Entries at the front of the dynamic table (src/DynamicTable.C:38–94, 120–130)

`prependEntry` puts an entry in front of all others of its type: it takes the first entry that
is `DT_NULL`, gives it the type, moves the values of the entries of that type one of their slots
down and writes the new value to the first of them. A request for `DT_RPATH` counts as one for
`DT_RUNPATH` where the table has any.

`DT_NULL` marks the end of the table as well, and nothing keeps `prependEntry` from taking the
last one (`prepends_right_iff`).
-/

namespace Pebil

namespace DynamicTable

/-- `Dynamic32` and `Dynamic64`. -/
inductive Dynamic where
  | dynamic32 (d_tag d_ptr : BitVec 32)
  | dynamic64 (d_tag d_ptr : BitVec 64)
  deriving DecidableEq, Repr

/-- `GET(d_tag)`, an `int64_t`. -/
def Dynamic.d_tag : Dynamic → BitVec 64
  | dynamic32 d_tag _ => d_tag.signExtend 64
  | dynamic64 d_tag _ => d_tag

/-- `GET_A(d_ptr, d_un)`, a `uint64_t`. -/
def Dynamic.d_ptr : Dynamic → BitVec 64
  | dynamic32 _ d_ptr => d_ptr.setWidth 64
  | dynamic64 _ d_ptr => d_ptr

/-- `SET(d_tag, value)`. -/
def Dynamic.setTag (value : BitVec 64) : Dynamic → Dynamic
  | dynamic32 _ d_ptr => dynamic32 (value.setWidth 32) d_ptr
  | dynamic64 _ d_ptr => dynamic64 value d_ptr

/-- `SET_A(d_ptr, d_un, value)`. -/
def Dynamic.setPtr (value : BitVec 64) : Dynamic → Dynamic
  | dynamic32 d_tag _ => dynamic32 d_tag (value.setWidth 32)
  | dynamic64 d_tag _ => dynamic64 d_tag value

def Dynamic.is64 : Dynamic → Bool
  | dynamic32 .. => false
  | dynamic64 .. => true

def DT_NULL : BitVec 32 := 0
def DT_RPATH : BitVec 32 := 15
def DT_RUNPATH : BitVec 32 := 29

/-- `dynamics[i]->GET(d_tag) == type`. -/
def Dynamic.hasType (type : BitVec 32) (d : Dynamic) : Bool := d.d_tag = type.setWidth 64

/-- `clear` of an entry that was appended. -/
def Dynamic.empty : Dynamic := dynamic64 0 0

end DynamicTable

/-- `dynamics`. The file has entries of its own class, and those that are appended are always
`Dynamic64`. -/
structure DynamicTable where
  dynamics : List DynamicTable.Dynamic
  ordered : (dynamics.map DynamicTable.Dynamic.is64).Pairwise (· ≤ ·)

namespace DynamicTable

@[simp] theorem Dynamic.is64_setTag (value : BitVec 64) (d : Dynamic) :
    (d.setTag value).is64 = d.is64 := by
  cases d <;> rfl

@[simp] theorem Dynamic.is64_setPtr (value : BitVec 64) (d : Dynamic) :
    (d.setPtr value).is64 = d.is64 := by
  cases d <;> rfl

/-- A change of one entry that leaves it of its class. -/
def modify (t : DynamicTable) (i : Nat) (f : Dynamic → Dynamic)
    (hf : ∀ d, (f d).is64 = d.is64) : DynamicTable where
  dynamics := t.dynamics.modify i f
  ordered := by
    have : (t.dynamics.modify i f).map Dynamic.is64 = t.dynamics.map Dynamic.is64 := by
      refine List.ext_getElem (by simp) fun j hj hj' => ?_
      simp only [List.getElem_map, List.getElem_modify]
      split <;> simp [hf]
    exact this ▸ t.ordered

/-- `dynamics[i]->SET(d_tag, value)`. -/
def setTag (t : DynamicTable) (i : Nat) (value : BitVec 64) : DynamicTable :=
  t.modify i (·.setTag value) (Dynamic.is64_setTag value)

/-- `dynamics[i]->SET_A(d_ptr, d_un, value)`. -/
def setPtr (t : DynamicTable) (i : Nat) (value : BitVec 64) : DynamicTable :=
  t.modify i (·.setPtr value) (Dynamic.is64_setPtr value)

/-- `findEmptyDynamic`. -/
def findEmptyDynamic (t : DynamicTable) : Nat := t.dynamics.findIdx (·.hasType DT_NULL)

/-- `countDynamics`. -/
def countDynamics (t : DynamicTable) (type : BitVec 32) : Nat := t.dynamics.countP (·.hasType type)

/-- The loop of `prependEntry` from index `i - 1` down to the front; `prev` is the last entry of
the type that it has seen. -/
def shuffle (type : BitVec 32) : Nat → DynamicTable → Option Nat → DynamicTable × Option Nat
  | 0, t, prev => (t, prev)
  | i + 1, t, prev =>
    match t.dynamics[i]? with
    | none => shuffle type i t prev
    | some d =>
      if d.hasType type then
        match prev with
        | none => shuffle type i t (some i)
        | some prev => shuffle type i ((t.setTag prev d.d_tag).setPtr prev d.d_ptr) (some i)
      else shuffle type i t prev

/-- The type of the entry that is written. -/
def effectiveType (t : DynamicTable) (type : BitVec 32) : BitVec 32 :=
  if type = DT_RPATH ∧ t.countDynamics DT_RUNPATH ≠ 0 then DT_RUNPATH else type

/-- `prependEntry`, with the index that it returns; `none` where an assertion fails. -/
def prependEntry (t : DynamicTable) (type strOffset : BitVec 32) : Option (DynamicTable × Nat) :=
  let emptyDynamicIdx := t.findEmptyDynamic
  if emptyDynamicIdx < t.dynamics.length then
    let type := t.effectiveType type
    match shuffle type (emptyDynamicIdx + 1) (t.setTag emptyDynamicIdx (type.setWidth 64)) none with
    | (_, none) => none
    | (t, some prev) =>
      some ((t.setTag prev (type.setWidth 64)).setPtr prev (strOffset.setWidth 64), prev)
  else none

/-- `extendTable`. -/
def extendTable (t : DynamicTable) (num : Nat) : DynamicTable where
  dynamics := t.dynamics ++ List.replicate num Dynamic.empty
  ordered := by
    rw [List.map_append, List.pairwise_append]
    refine ⟨t.ordered, by simp, fun a _ b hb => ?_⟩
    obtain ⟨-, rfl⟩ : num ≠ 0 ∧ b = true := by simpa [Dynamic.empty, Dynamic.is64] using hb
    exact Bool.le_true a

/-! ## What prepending is to do -/

/-- The values of the entries of a type, in the order of the table. -/
def values (t : DynamicTable) (type : BitVec 32) : List (BitVec 64) :=
  (t.dynamics.filter (·.hasType type)).map Dynamic.d_ptr

/-- The new value stands in front of the old ones of its type, the other entries in front of
the old end are as they were, and the table has an end. -/
structure Prepended (t : DynamicTable) (type strOffset : BitVec 32) (t' : DynamicTable) : Prop where
  values : t'.values (t.effectiveType type) =
    strOffset.setWidth 64 :: t.values (t.effectiveType type)
  others : ∀ (i : Nat) d, i < t.findEmptyDynamic → t.dynamics[i]? = some d →
    d.hasType (t.effectiveType type) = false → t'.dynamics[i]? = some d
  terminated : ∃ d ∈ t'.dynamics, d.hasType DT_NULL = true

/-- As long as there are free slots, each entry is prepended. -/
def AllPrepended (t : DynamicTable) : List (BitVec 32 × BitVec 32) → Prop
  | [] => True
  | (type, strOffset) :: entries =>
    (∃ d ∈ t.dynamics, d.hasType DT_NULL = true) →
      ∃ t' prev, t.prependEntry type strOffset = some (t', prev) ∧
        Prepended t type strOffset t' ∧ AllPrepended t' entries

/-- The free slots, in the order of the table. -/
def freeSlots (t : DynamicTable) : List Dynamic := t.dynamics.filter (·.hasType DT_NULL)

/-- The slot can be given the type, and the type is not that of a free one. -/
def Fits (type : BitVec 32) (slot : Dynamic) : Prop :=
  type ≠ DT_NULL ∧ (slot.is64 = false → type.toNat < 2 ^ 31)

/-! ## Entries -/

section Entry

variable {d : Dynamic} {type : BitVec 32} {value : BitVec 64}

@[simp] theorem Dynamic.d_tag_setPtr : (d.setPtr value).d_tag = d.d_tag := by
  cases d <;> rfl

@[simp] theorem Dynamic.hasType_setPtr : (d.setPtr value).hasType type = d.hasType type := by
  rw [hasType, d_tag_setPtr, hasType]

theorem Dynamic.d_ptr_setPtr (h : d.is64 = false → value.toNat < 2 ^ 32) :
    (d.setPtr value).d_ptr = value := by
  cases d with
  | dynamic32 =>
    have hvalue : value.toNat < 2 ^ 32 := h rfl
    refine BitVec.eq_of_toNat_eq ?_
    simp only [setPtr, d_ptr, BitVec.toNat_setWidth]
    omega
  | dynamic64 => rfl

/-- The tag of a 32-bit entry is signed. -/
theorem Dynamic.hasType_dynamic32 {d_tag d_ptr : BitVec 32} :
    (dynamic32 d_tag d_ptr).hasType type = true ↔ d_tag = type ∧ type.toNat < 2 ^ 31 := by
  have htag := d_tag.isLt
  have htype := type.isLt
  simp only [hasType, Dynamic.d_tag, decide_eq_true_eq, ← BitVec.toNat_inj, BitVec.toNat_signExtend,
    BitVec.toNat_setWidth, BitVec.msb_eq_decide]
  split <;> simp_all <;> omega

/-- Writing the type that an entry has changes nothing. -/
theorem Dynamic.setTag_of_hasType (h : d.hasType type = true) :
    d.setTag (type.setWidth 64) = d := by
  cases d with
  | dynamic32 d_tag d_ptr =>
    obtain ⟨rfl, -⟩ := hasType_dynamic32.mp h
    simp [setTag]
  | dynamic64 d_tag d_ptr =>
    have h : d_tag = type.setWidth 64 := of_decide_eq_true h
    rw [h, setTag]

theorem Dynamic.hasType_setTag :
    (d.setTag (type.setWidth 64)).hasType type = true ↔ (d.is64 = false → type.toNat < 2 ^ 31) := by
  cases d with
  | dynamic32 d_tag d_ptr => simp [setTag, hasType_dynamic32, is64]
  | dynamic64 d_tag d_ptr => simp [setTag, hasType, Dynamic.d_tag, is64]

/-- An entry has one type. -/
theorem Dynamic.hasType_unique {type' : BitVec 32} (h : d.hasType type = true)
    (h' : d.hasType type' = true) : type = type' := by
  have h : type.setWidth 64 = type'.setWidth 64 := by
    simp only [hasType, decide_eq_true_eq] at h h'
    rw [← h, h']
  have h := congrArg BitVec.toNat h
  simp only [BitVec.toNat_setWidth] at h
  exact BitVec.eq_of_toNat_eq (by omega)

end Entry

/-! ## Values shifted through the entries of a type -/

/-- The entries of the type each take the value of the one before; the first takes `value`. -/
def pushed (type : BitVec 32) (value : BitVec 64) : List Dynamic → List Dynamic
  | [] => []
  | d :: ds =>
    if d.hasType type then d.setPtr value :: pushed type d.d_ptr ds
    else d :: pushed type value ds

/-- The value that is shifted out. -/
def carried (type : BitVec 32) (value : BitVec 64) : List Dynamic → BitVec 64
  | [] => value
  | d :: ds => if d.hasType type then carried type d.d_ptr ds else carried type value ds

section Pushed

variable {type : BitVec 32} {value : BitVec 64} {ds : List Dynamic} {d : Dynamic}

theorem pushed_append {ds' : List Dynamic} :
    pushed type value (ds ++ ds') =
      pushed type value ds ++ pushed type (carried type value ds) ds' := by
  induction ds generalizing value with
  | nil => rfl
  | cons x ds ih =>
    simp only [List.cons_append, pushed, carried]
    split <;> simp [ih]

theorem carried_append {ds' : List Dynamic} :
    carried type value (ds ++ ds') = carried type (carried type value ds) ds' := by
  induction ds generalizing value with
  | nil => rfl
  | cons x ds ih =>
    simp only [List.cons_append, carried]
    split <;> exact ih

/-- Where nothing is of the type, nothing is shifted. -/
theorem pushed_of_forall (value : BitVec 64) (h : ∀ d ∈ ds, d.hasType type = false) :
    pushed type value ds = ds ∧ carried type value ds = value := by
  induction ds with
  | nil => exact ⟨rfl, rfl⟩
  | cons x ds ih =>
    obtain ⟨hx, hds⟩ := List.forall_mem_cons.mp h
    simp [pushed, carried, hx, ih hds]

/-- The types stay. -/
theorem map_d_tag_pushed : (pushed type value ds).map Dynamic.d_tag = ds.map Dynamic.d_tag := by
  induction ds generalizing value with
  | nil => rfl
  | cons x ds ih =>
    rw [pushed]
    split <;> simp [ih]

/-- Entries of other types stay as they are. -/
theorem getElem?_pushed {i : Nat} (hd : ds[i]? = some d) (h : d.hasType type = false) :
    (pushed type value ds)[i]? = some d := by
  induction ds generalizing value i with
  | nil => cases hd
  | cons x ds ih =>
    rw [pushed]
    cases i with
    | zero =>
      obtain rfl : x = d := by simpa using hd
      simp [h]
    | succ i =>
      have hd : ds[i]? = some d := by simpa using hd
      split <;> simpa using ih hd

/-- The values are the new one and the old ones but for the one that is shifted out. -/
theorem values_pushed (hordered : (ds.map Dynamic.is64).Pairwise (· ≤ ·))
    (hvalue : ∀ d ∈ ds, d.is64 = false → value.toNat < 2 ^ 32) :
    ((pushed type value ds).filter (·.hasType type)).map Dynamic.d_ptr ++ [carried type value ds] =
      value :: (ds.filter (·.hasType type)).map Dynamic.d_ptr := by
  induction ds generalizing value with
  | nil => rfl
  | cons x ds ih =>
    rw [List.map_cons, List.pairwise_cons] at hordered
    obtain ⟨hx, hordered⟩ := hordered
    rw [pushed, carried]
    cases hx' : x.hasType type with
    | false =>
      have := ih hordered fun d hd => hvalue d (List.mem_cons_of_mem x hd)
      simpa [hx'] using this
    | true =>
      have hstored := Dynamic.d_ptr_setPtr (hvalue x List.mem_cons_self)
      -- an entry behind `x` that is narrow has the value of a narrow one to take
      have hcarries : ∀ d ∈ ds, d.is64 = false → x.d_ptr.toNat < 2 ^ 32 := fun d hd hnarrow => by
        have hle := hx d.is64 (List.mem_map_of_mem hd)
        cases x with
        | dynamic32 d_tag d_ptr =>
          have := d_ptr.isLt
          simp only [Dynamic.d_ptr, BitVec.toNat_setWidth]
          omega
        | dynamic64 =>
          rw [hnarrow] at hle
          cases hle rfl
      simpa [hx', hstored] using ih hordered hcarries

end Pushed

/-! ## The loop -/

section Shuffle

variable {t : DynamicTable} {type : BitVec 32} {value : BitVec 64}
  {before after : List Dynamic} {d : Dynamic}

theorem modify_append_cons {f : Dynamic → Dynamic} :
    (before ++ d :: after).modify before.length f = before ++ f d :: after := by
  induction before with
  | nil => rfl
  | cons x before ih => simp [ih]

/-- An entry of the type is written. -/
theorem dynamics_write (hi : t.dynamics = before ++ d :: after) (hd : d.hasType type = true) :
    ((t.setTag before.length (type.setWidth 64)).setPtr before.length value).dynamics =
      before ++ d.setPtr value :: after := by
  simp only [setTag, setPtr, modify, hi, modify_append_cons, Dynamic.setTag_of_hasType hd]

/-- Where nothing is of the type, nothing happens. -/
theorem shuffle_none (hi : t.dynamics = before ++ after)
    (hbefore : ∀ d ∈ before, d.hasType type = false) :
    shuffle type before.length t none = (t, none) := by
  induction before using List.reverseRecOn generalizing after with
  | nil => rfl
  | append_singleton before x ih =>
    have hx : t.dynamics[before.length]? = some x := by simp [hi]
    rw [List.length_append, List.length_singleton, shuffle, hx]
    simp only [hbefore x (by simp), Bool.false_eq_true, if_false]
    exact ih (by rw [hi, List.append_assoc]) fun d hd => hbefore d (by simp [hd])

/-- From an entry of the type down to the front, and the new value to the first entry of the
type: each takes the value of the one before. -/
theorem shuffle_some (value : BitVec 64) {middle : List Dynamic}
    (hi : t.dynamics = before ++ (middle ++ d :: after))
    (hmiddle : ∀ x ∈ middle, x.hasType type = false) (hd : d.hasType type = true) :
    ∃ t' q, shuffle type before.length t (some (before ++ middle).length) = (t', some q) ∧
      ((t'.setTag q (type.setWidth 64)).setPtr q value).dynamics =
        pushed type value (before ++ (middle ++ [d])) ++ after := by
  induction before using List.reverseRecOn generalizing t middle d after with
  | nil =>
    obtain ⟨hpushed, hcarried⟩ := pushed_of_forall value hmiddle
    refine ⟨t, middle.length, rfl, ?_⟩
    rw [dynamics_write hi hd, List.nil_append, pushed_append, hpushed, hcarried]
    simp [pushed, hd]
  | append_singleton before x ih =>
    have hx : t.dynamics[before.length]? = some x := by simp [hi]
    rw [List.length_append, List.length_singleton, shuffle, hx]
    cases hx' : x.hasType type with
    | true =>
      have htag : x.d_tag = type.setWidth 64 := of_decide_eq_true hx'
      have hi' : t.dynamics = (before ++ [x] ++ middle) ++ d :: after := by rw [hi]; simp
      -- the entry ahead takes the value of `x`, and `x` is the next to be written
      have hwrite : ((t.setTag (before ++ [x] ++ middle).length x.d_tag).setPtr
          (before ++ [x] ++ middle).length x.d_ptr).dynamics =
          before ++ ([] ++ x :: (middle ++ d.setPtr x.d_ptr :: after)) := by
        rw [htag, dynamics_write hi' hd]
        simp
      obtain ⟨t', q, hshuffle, hdynamics⟩ := ih hwrite nofun hx'
      refine ⟨t', q, by simpa [hx'] using hshuffle, ?_⟩
      obtain ⟨hpushed, hcarried⟩ := pushed_of_forall x.d_ptr hmiddle
      rw [hdynamics]
      simp [pushed_append, pushed, hx', hd, hpushed, hcarried]
    | false =>
      have hi : t.dynamics = before ++ (x :: middle ++ d :: after) := by rw [hi]; simp
      obtain ⟨t', q, hshuffle, hdynamics⟩ := ih hi (List.forall_mem_cons.mpr ⟨hx', hmiddle⟩) hd
      exact ⟨t', q, by simpa [hx'] using hshuffle, by rw [hdynamics]; simp⟩

end Shuffle

/-! ## One entry -/

section Prepend

variable {t : DynamicTable} {type strOffset : BitVec 32} {live rest : List Dynamic}
  {slot : Dynamic}

/-- A table with a free slot has a first one. -/
theorem exists_slot (h : ∃ d ∈ t.dynamics, d.hasType DT_NULL = true) :
    ∃ live slot rest, t.dynamics = live ++ slot :: rest ∧
      (∀ d ∈ live, d.hasType DT_NULL = false) ∧ slot.hasType DT_NULL = true := by
  obtain ⟨d, hd, hnull⟩ := h
  obtain ⟨slot, hfind⟩ := Option.isSome_iff_exists.mp (List.find?_isSome.mpr ⟨d, hd, hnull⟩)
  obtain ⟨hslot, live, rest, hsplit, hlive⟩ := List.find?_eq_some_iff_append.mp hfind
  exact ⟨live, slot, rest, hsplit, fun d hd => by simpa using hlive d hd, hslot⟩

theorem findEmptyDynamic_eq (hi : t.dynamics = live ++ slot :: rest)
    (hlive : ∀ d ∈ live, d.hasType DT_NULL = false) (hslot : slot.hasType DT_NULL = true) :
    t.findEmptyDynamic = live.length := by
  have hnone : live.findIdx (·.hasType DT_NULL) = live.length :=
    List.findIdx_eq_length.mpr hlive
  rw [findEmptyDynamic, hi, List.findIdx_append, hnone, if_neg (Nat.lt_irrefl _)]
  simp [List.findIdx_cons, hslot]

/-- What `prependEntry` does where the slot can be given the type. -/
theorem prependEntry_eq_some (strOffset : BitVec 32) (hi : t.dynamics = live ++ slot :: rest)
    (hlive : ∀ d ∈ live, d.hasType DT_NULL = false) (hslot : slot.hasType DT_NULL = true)
    (hfits : slot.is64 = false → (t.effectiveType type).toNat < 2 ^ 31) :
    ∃ t' prev, t.prependEntry type strOffset = some (t', prev) ∧
      t'.dynamics = pushed (t.effectiveType type) (strOffset.setWidth 64)
        (live ++ [slot.setTag ((t.effectiveType type).setWidth 64)]) ++ rest := by
  generalize heff : t.effectiveType type = eff at hfits ⊢
  have hi' : (t.setTag live.length (eff.setWidth 64)).dynamics =
      live ++ ([] ++ slot.setTag (eff.setWidth 64) :: rest) := by
    simp [setTag, modify, hi, modify_append_cons]
  have hfirst : (t.setTag live.length (eff.setWidth 64)).dynamics[live.length]? =
      some (slot.setTag (eff.setWidth 64)) := by simp [hi']
  have htype := Dynamic.hasType_setTag.mpr hfits
  obtain ⟨t', prev, hshuffle, hdynamics⟩ := shuffle_some (strOffset.setWidth 64) hi' nofun htype
  refine ⟨_, prev, ?_, hdynamics⟩
  rw [List.append_nil] at hshuffle
  simp only [prependEntry, findEmptyDynamic_eq hi hlive hslot, heff, shuffle, hfirst, htype,
    if_true, hshuffle]
  rw [if_pos (by simp [hi])]

/-- A 32-bit entry cannot be given a type that is no `int32_t`, and no entry in front of it has
the type either. -/
theorem prependEntry_eq_none (hi : t.dynamics = live ++ slot :: rest)
    (hlive : ∀ d ∈ live, d.hasType DT_NULL = false) (hslot : slot.hasType DT_NULL = true)
    (hnarrow : slot.is64 = false) (hlarge : ¬ (t.effectiveType type).toNat < 2 ^ 31) :
    t.prependEntry type strOffset = none := by
  generalize heff : t.effectiveType type = eff at hlarge
  have hi' : (t.setTag live.length (eff.setWidth 64)).dynamics =
      live ++ slot.setTag (eff.setWidth 64) :: rest := by
    simp [setTag, modify, hi, modify_append_cons]
  have hfirst : (t.setTag live.length (eff.setWidth 64)).dynamics[live.length]? =
      some (slot.setTag (eff.setWidth 64)) := by simp [hi']
  have htype : (slot.setTag (eff.setWidth 64)).hasType eff = false := by
    rw [← Bool.not_eq_true, Dynamic.hasType_setTag]
    exact fun h => hlarge (h hnarrow)
  have hbefore : ∀ d ∈ live, d.hasType eff = false := fun d hd => by
    have hordered := t.ordered
    rw [hi, List.map_append, List.map_cons, List.pairwise_append] at hordered
    have hle := hordered.2.2 d.is64 (List.mem_map_of_mem hd) slot.is64 List.mem_cons_self
    cases d with
    | dynamic32 d_tag d_ptr =>
      rw [← Bool.not_eq_true, Dynamic.hasType_dynamic32]
      exact fun h => hlarge h.2
    | dynamic64 =>
      rw [hnarrow] at hle
      cases hle rfl
  simp only [prependEntry, findEmptyDynamic_eq hi hlive hslot, heff, shuffle, hfirst, htype,
    Bool.false_eq_true, if_false, shuffle_none hi' hbefore, ite_self]

/-- The request for another type than its own is one for the same kind of type. -/
theorem fits_effectiveType : Fits (t.effectiveType type) slot ↔ Fits type slot := by
  unfold effectiveType
  split
  · rename_i h
    simp [h.1, Fits, DT_RPATH, DT_RUNPATH, DT_NULL]
  · rfl

/-- The slots behind the first one stay free, and no other becomes so. -/
theorem freeSlots_of_dynamics {t' : DynamicTable} {eff : BitVec 32} {value : BitVec 64}
    (hlive : ∀ d ∈ live, d.hasType DT_NULL = false) (hfits : Fits eff slot)
    (ht' : t'.dynamics = pushed eff value (live ++ [slot.setTag (eff.setWidth 64)]) ++ rest) :
    t'.freeSlots = rest.filter (·.hasType DT_NULL) := by
  have hnone : ∀ d ∈ live ++ [slot.setTag (eff.setWidth 64)], d.hasType DT_NULL = false := by
    refine List.forall_mem_append.mpr ⟨hlive, List.forall_mem_singleton.mpr ?_⟩
    rw [← Bool.not_eq_true]
    exact fun h => hfits.1 (Dynamic.hasType_unique (Dynamic.hasType_setTag.mpr hfits.2) h)
  have hpushed : (pushed eff value (live ++ [slot.setTag (eff.setWidth 64)])).filter
      (·.hasType DT_NULL) = [] := by
    refine List.filter_eq_nil_iff.mpr fun d hd => ?_
    obtain ⟨d', hd', htag⟩ := List.mem_map.mp (map_d_tag_pushed ▸ List.mem_map_of_mem hd)
    have hsame : d.hasType DT_NULL = d'.hasType DT_NULL := by
      rw [Dynamic.hasType, Dynamic.hasType, htag]
    rw [hsame, hnone d' hd']
    exact Bool.false_ne_true
  rw [freeSlots, ht', List.filter_append, hpushed, List.nil_append]

/-- Where there is a free slot behind the first one and that can be given the type, the entry is
prepended. -/
theorem prepended_of_fits {t' : DynamicTable} (hi : t.dynamics = live ++ slot :: rest)
    (hlive : ∀ d ∈ live, d.hasType DT_NULL = false) (hslot : slot.hasType DT_NULL = true)
    (hfits : Fits (t.effectiveType type) slot) (hrest : ∃ d ∈ rest, d.hasType DT_NULL = true)
    (ht' : t'.dynamics = pushed (t.effectiveType type) (strOffset.setWidth 64)
      (live ++ [slot.setTag ((t.effectiveType type).setWidth 64)]) ++ rest) :
    Prepended t type strOffset t' := by
  generalize heff : t.effectiveType type = eff at hfits ht'
  have htype : (slot.setTag (eff.setWidth 64)).hasType eff = true :=
    Dynamic.hasType_setTag.mpr hfits.2
  have hother : slot.hasType eff = false := by
    rw [← Bool.not_eq_true]
    exact fun h => hfits.1 (Dynamic.hasType_unique h hslot)
  refine ⟨?_, fun i d hlt hd hne => ?_, ?_⟩
  · have hordered : ((live ++ [slot.setTag (eff.setWidth 64)]).map Dynamic.is64).Pairwise
        (· ≤ ·) := by
      have hordered := t.ordered
      rw [hi, List.append_cons, List.map_append, List.pairwise_append] at hordered
      simpa using hordered.1
    have hfitsAll : ∀ d ∈ live ++ [slot.setTag (eff.setWidth 64)], d.is64 = false →
        (strOffset.setWidth 64).toNat < 2 ^ 32 := fun _ _ _ => by
      have := strOffset.isLt
      rw [BitVec.toNat_setWidth]
      omega
    -- what is shifted out is the old content of the slot
    have hcarried : carried eff (strOffset.setWidth 64) (live ++ [slot.setTag (eff.setWidth 64)]) =
        (slot.setTag (eff.setWidth 64)).d_ptr := by
      rw [carried_append, carried, if_pos htype, carried]
    have hvalues : ((pushed eff (strOffset.setWidth 64)
        (live ++ [slot.setTag (eff.setWidth 64)])).filter (·.hasType eff)).map Dynamic.d_ptr ++ _ =
          _ := values_pushed hordered hfitsAll
    have hlast : [slot.setTag (eff.setWidth 64)].filter (·.hasType eff) =
        [slot.setTag (eff.setWidth 64)] := by simp [htype]
    rw [hcarried, List.filter_append, hlast, List.map_append, List.map_singleton,
      ← List.cons_append] at hvalues
    have hvalues := List.append_cancel_right hvalues
    rw [heff, values, ht', List.filter_append, List.map_append, hvalues, values, hi]
    simp [hother]
  · rw [findEmptyDynamic_eq hi hlive hslot] at hlt
    rw [hi, List.getElem?_append_left hlt] at hd
    rw [heff] at hne
    have hd' : (live ++ [slot.setTag (eff.setWidth 64)])[i]? = some d := by
      rw [List.getElem?_append_left hlt, hd]
    have hpushed : (pushed eff (strOffset.setWidth 64)
        (live ++ [slot.setTag (eff.setWidth 64)]))[i]? = some d := getElem?_pushed hd' hne
    rw [ht', List.getElem?_append_left (List.getElem?_eq_some_iff.mp hpushed).1, hpushed]
  · obtain ⟨d, hd, hnull⟩ := hrest
    exact ⟨d, by simp [ht', hd], hnull⟩

/-- The values of a type are as many as the entries of its tag. -/
theorem length_values : (t.values type).length =
    (t.dynamics.map Dynamic.d_tag).countP (· = type.setWidth 64) := by
  rw [values, List.length_map, List.countP_map, List.countP_eq_length_filter]
  rfl

/-- A request that has a slot of its own, and leaves one, is fulfilled. -/
theorem exists_prepended (hi : t.dynamics = live ++ slot :: rest)
    (hlive : ∀ d ∈ live, d.hasType DT_NULL = false) (hslot : slot.hasType DT_NULL = true)
    (hfits : Fits type slot) (hrest : ∃ d ∈ rest, d.hasType DT_NULL = true) :
    ∃ t' prev, t.prependEntry type strOffset = some (t', prev) ∧
      Prepended t type strOffset t' ∧ t'.freeSlots = rest.filter (·.hasType DT_NULL) := by
  have hfits : Fits (t.effectiveType type) slot := fits_effectiveType.mpr hfits
  obtain ⟨t', prev, hsome, ht'⟩ := prependEntry_eq_some strOffset hi hlive hslot
    hfits.2
  exact ⟨t', prev, hsome, prepended_of_fits hi hlive hslot hfits hrest ht',
    freeSlots_of_dynamics hlive hfits ht'⟩

/-- A request that is fulfilled has a slot of its own and leaves one. -/
theorem Prepended.fits {t' : DynamicTable} {prev : Nat} (hi : t.dynamics = live ++ slot :: rest)
    (hlive : ∀ d ∈ live, d.hasType DT_NULL = false) (hslot : slot.hasType DT_NULL = true)
    (hsome : t.prependEntry type strOffset = some (t', prev))
    (h : Prepended t type strOffset t') :
    Fits type slot ∧ rest.filter (·.hasType DT_NULL) ≠ [] ∧
      t'.freeSlots = rest.filter (·.hasType DT_NULL) := by
  have hnarrow : slot.is64 = false → (t.effectiveType type).toNat < 2 ^ 31 := fun hnarrow => by
    by_contra hlarge
    rw [prependEntry_eq_none hi hlive hslot hnarrow hlarge] at hsome
    cases hsome
  obtain ⟨t'', prev', hsome', ht'⟩ := prependEntry_eq_some strOffset hi hlive hslot
    hnarrow
  obtain ⟨rfl, rfl⟩ : t'' = t' ∧ prev' = prev := by simpa [hsome'] using hsome
  have hnull : t.effectiveType type ≠ DT_NULL := fun hnull => by
    -- no tag changes, so that there are no more values than before
    have htags : t''.dynamics.map Dynamic.d_tag = t.dynamics.map Dynamic.d_tag := by
      have hslotTag : slot.d_tag = DT_NULL.setWidth 64 := of_decide_eq_true hslot
      rw [ht', hnull, Dynamic.setTag_of_hasType hslot, List.map_append, map_d_tag_pushed, hi]
      simp
    have hlength := congrArg List.length h.values
    rw [List.length_cons, length_values, length_values, htags] at hlength
    omega
  have hfits : Fits (t.effectiveType type) slot := ⟨hnull, hnarrow⟩
  have hfree := freeSlots_of_dynamics hlive hfits ht'
  refine ⟨fits_effectiveType.mp hfits, fun hnil => ?_, hfree⟩
  obtain ⟨d, hd, hdnull⟩ := h.terminated
  have hmem : d ∈ t''.freeSlots := List.mem_filter.mpr ⟨hd, hdnull⟩
  rw [hfree, hnil] at hmem
  cases hmem

end Prepend

/-! ## A run of requests -/

section Run

variable {t : DynamicTable} {entries : List (BitVec 32 × BitVec 32)}

/-- The requests are all fulfilled if and only if there are no free slots at all, or more of
them than requests, and each request can take its slot. -/
theorem allPrepended_iff : t.AllPrepended entries ↔
    t.freeSlots = [] ∨ entries.length < t.freeSlots.length ∧
      ∀ request ∈ entries.zip t.freeSlots, Fits request.1.1 request.2 := by
  induction entries generalizing t with
  | nil => simp [AllPrepended, List.length_pos_iff, em]
  | cons request entries ih =>
    obtain ⟨type, strOffset⟩ := request
    rw [AllPrepended]
    by_cases hfree : ∃ d ∈ t.dynamics, d.hasType DT_NULL = true
    · obtain ⟨live, slot, rest, hi, hlive, hslot⟩ := exists_slot hfree
      have hslots : t.freeSlots = slot :: rest.filter (·.hasType DT_NULL) := by
        rw [freeSlots, hi, List.filter_append, List.filter_eq_nil_iff.mpr (by simpa using hlive)]
        simp [hslot]
      rw [hslots]
      simp only [hfree, true_imp_iff]
      constructor
      · rintro ⟨t', prev, hsome, hprepended, hrun⟩
        obtain ⟨hfits, hne, hfree'⟩ := hprepended.fits hi hlive hslot hsome
        rw [ih, hfree'] at hrun
        obtain ⟨hlength, hall⟩ := hrun.resolve_left hne
        exact .inr ⟨Nat.succ_lt_succ hlength, List.forall_mem_cons.mpr ⟨hfits, hall⟩⟩
      · rintro (hnil | ⟨hlength, hall⟩)
        · cases hnil
        obtain ⟨hfits, hall⟩ := List.forall_mem_cons.mp hall
        have hlength := Nat.lt_of_succ_lt_succ hlength
        obtain ⟨d, hd⟩ := List.exists_mem_of_length_pos (Nat.zero_lt_of_lt hlength)
        obtain ⟨t', prev, hsome, hprepended, hfree'⟩ := exists_prepended hi hlive hslot hfits
          ⟨d, List.mem_filter.mp hd⟩
        refine ⟨t', prev, hsome, hprepended, ih.mpr (.inr ?_)⟩
        rw [hfree']
        exact ⟨hlength, hall⟩
    · have hnil : t.freeSlots = [] :=
        List.filter_eq_nil_iff.mpr fun d hd hnull => hfree ⟨d, hd, hnull⟩
      exact iff_of_true (fun h => absurd h hfree) (.inl hnil)

/-- The slots that `extendTable` adds are free. -/
theorem freeSlots_extendTable (t : DynamicTable) (num : Nat) :
    (t.extendTable num).freeSlots = t.freeSlots ++ List.replicate num Dynamic.empty := by
  have hempty : Dynamic.empty.hasType DT_NULL = true := rfl
  rw [freeSlots, extendTable, List.filter_append, freeSlots]
  simp [hempty]

/-- After `extendTable`, exactly which requests are prepended. -/
theorem prepends_right_iff (t : DynamicTable) (num : Nat)
    (entries : List (BitVec 32 × BitVec 32)) :
    (t.extendTable num).AllPrepended entries ↔
      t.freeSlots ++ List.replicate num Dynamic.empty = [] ∨
      entries.length < t.freeSlots.length + num ∧
        ∀ request ∈ entries.zip (t.freeSlots ++ List.replicate num Dynamic.empty),
          Fits request.1.1 request.2 := by
  rw [allPrepended_iff, freeSlots_extendTable, List.length_append, List.length_replicate]

/-- The last `DT_NULL` is taken. -/
theorem not_prepends_terminator :
    (prependEntry ⟨[.dynamic64 1 5, .dynamic64 0 0], by decide⟩ 1 9).map (·.1.dynamics) =
        some [.dynamic64 1 9, .dynamic64 1 5] ∧
      ¬ (extendTable ⟨[.dynamic64 1 5, .dynamic64 0 0], by decide⟩ 0).AllPrepended [(1, 9)] := by
  refine ⟨by decide, fun h => ?_⟩
  obtain ⟨t', prev, hsome, hprepended, -⟩ := h ⟨.dynamic64 0 0, by decide, by decide⟩
  have hdynamics : ((extendTable ⟨[.dynamic64 1 5, .dynamic64 0 0], by decide⟩ 0).prependEntry
      1 9).map (·.1.dynamics) = some [.dynamic64 1 9, .dynamic64 1 5] := by decide
  rw [hsome] at hdynamics
  have hdynamics : t'.dynamics = [.dynamic64 1 9, .dynamic64 1 5] := Option.some.inj hdynamics
  obtain ⟨d, hd, hnull⟩ := hprepended.terminated
  rw [hdynamics] at hd
  revert d
  decide

end Run

end DynamicTable

end Pebil

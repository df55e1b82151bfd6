import Mathlib.Data.Finset.Basic
import Mathlib.Data.List.FinRange
import Pebil.Lib.ByteMemory

/-!
# Dynamic points (instcode/InstrumentationCommon.hpp:58–125, instcode/Metasim.hpp:113–122)

A dynamic point is a stretch of instrumented code that a run switches on and off. Its record
keeps, in `OppContent`, the bytes that are not in the code at the moment: fill instructions
while the point is enabled, the instrumented code while it is not. `SetDynamicPointStatus`
swaps the two.

`Dynamics` maps a key to the points registered under it, the ones that are enabled when their
image is loaded. A pointer to a record is an element of any type with equality.
-/

namespace Pebil

open ByteMemory

/-- `DYNAMIC_POINT_SIZE_LIMIT`. -/
def dynamicPointSizeLimit : Nat := 128

/-- `DynamicInst`. -/
structure DynamicInst where
  virtualAddress : Nat
  key : Nat
  size : Nat
  oppContent : Fin dynamicPointSizeLimit → BitVec 8
  isEnabled : Bool

namespace DynamicInst

/-- The bytes `memcpy` takes out of `OppContent`. -/
def content (d : DynamicInst) : List (BitVec 8) := (List.ofFn d.oppContent).take d.size

/-- `OppContent` after `memcpy` put `bytes` there. -/
def store (d : DynamicInst) (bytes : List (BitVec 8)) : Fin dynamicPointSizeLimit → BitVec 8 :=
  fun i => (bytes[i.val]?).getD (d.oppContent i)

end DynamicInst

/-- The code, the records of the points, and `Dynamics`. -/
structure DynamicState (ι : Type*) where
  memory : ByteMemory
  insts : ι → DynamicInst
  dynamics : List (Nat × List ι)

/-- `(*Dynamics)[k].push_back(d)`, with a new vector for a new key. -/
def pushBack {ι : Type*} (k : Nat) (d : ι) : List (Nat × List ι) → List (Nat × List ι)
  | [] => [(k, [d])]
  | (k', dyns) :: rest =>
    if k' = k then (k', dyns ++ [d]) :: rest else (k', dyns) :: pushBack k d rest

namespace DynamicState

variable {ι : Type*}

/-- `InitializeDynamicInstrumentation` for the records that `dyn` points to. -/
def initializeDynamicInstrumentation (st : DynamicState ι) (dyn : List ι) : DynamicState ι :=
  let dynamics := dyn.foldl (fun dynamics d =>
    if (st.insts d).isEnabled then pushBack (st.insts d).key d dynamics else dynamics) st.dynamics
  { st with dynamics := dynamics }

/-- The code bytes of a point. -/
def code (st : DynamicState ι) (d : ι) : List (BitVec 8) :=
  st.memory.read (st.insts d).virtualAddress (st.insts d).size

/-- The bytes of a point when it is enabled: in the code of an enabled point, in the record of
another. -/
def instrumented (st : DynamicState ι) (d : ι) : List (BitVec 8) :=
  if (st.insts d).isEnabled then st.code d else (st.insts d).content

/-- The bytes of a point when it is disabled. -/
def disabled (st : DynamicState ι) (d : ι) : List (BitVec 8) :=
  if (st.insts d).isEnabled then (st.insts d).content else st.code d

/-- The points are where they were in `base`, each has its instrumented bytes in the code
exactly when it is enabled and the other bytes in its record, and the rest of the memory is
as it was. -/
structure Agrees (base st : DynamicState ι) : Prop where
  place : ∀ d, (st.insts d).virtualAddress = (base.insts d).virtualAddress ∧
    (st.insts d).key = (base.insts d).key ∧ (st.insts d).size = (base.insts d).size
  dynamics : st.dynamics = base.dynamics
  code : ∀ d, st.code d =
    if (st.insts d).isEnabled then base.instrumented d else base.disabled d
  opposite : ∀ d, (st.insts d).content =
    if (st.insts d).isEnabled then base.disabled d else base.instrumented d
  frame : ∀ x, (∀ d, ¬InRange (base.insts d).virtualAddress (base.insts d).size x) →
    st.memory x = base.memory x

/-- The ranges of the points are disjoint and fit their records. -/
structure Separate (st : DynamicState ι) : Prop where
  size_le : ∀ d, (st.insts d).size ≤ dynamicPointSizeLimit
  apart : ∀ d e, d ≠ e → Apart (st.insts d).virtualAddress (st.insts d).size
    (st.insts e).virtualAddress (st.insts e).size

variable [DecidableEq ι]

/-- `SetDynamicPointStatus`. -/
def setDynamicPointStatus (st : DynamicState ι) (d : ι) (state : Bool) : DynamicState ι :=
  let inst := st.insts d
  let t := st.memory.read inst.virtualAddress inst.size
  { st with
    memory := st.memory.write inst.virtualAddress inst.content
    insts := Function.update st.insts d
      { inst with oppContent := inst.store t, isEnabled := state } }

/-- The body of the inner loop of `SetDynamicPoints`. -/
def setPoint (state : Bool) (st : DynamicState ι) (d : ι) : DynamicState ι :=
  if state ≠ (st.insts d).isEnabled then st.setDynamicPointStatus d state else st

/-- `SetDynamicPoints`. -/
def setDynamicPoints (st : DynamicState ι) (keys : Finset Nat) (state : Bool) :
    DynamicState ι :=
  st.dynamics.foldl (fun st entry =>
    if entry.1 ∈ keys then entry.2.foldl (setPoint state) st else st) st

/-- A sequence of calls of `SetDynamicPoints`. -/
def run (st : DynamicState ι) (calls : List (Finset Nat × Bool)) : DynamicState ι :=
  calls.foldl (fun st call => st.setDynamicPoints call.1 call.2) st

/-! ## The swap of one point -/

section Swap

variable {base st : DynamicState ι} {d e : ι} {state : Bool}

theorem length_content {p : DynamicInst} (h : p.size ≤ dynamicPointSizeLimit) :
    p.content.length = p.size := by
  simp [DynamicInst.content, h]

/-- What is stored is the content. -/
theorem content_store {p : DynamicInst} {bytes : List (BitVec 8)} (hlen : bytes.length = p.size)
    (h : p.size ≤ dynamicPointSizeLimit) (enabled : Bool) :
    ({ p with oppContent := p.store bytes, isEnabled := enabled } : DynamicInst).content =
      bytes := by
  refine List.ext_getElem ((length_content (by exact h)).trans hlen.symm) fun i hi hi' => ?_
  simp [DynamicInst.content, DynamicInst.store, hi']

omit [DecidableEq ι] in
theorem Agrees.refl (base : DynamicState ι) : Agrees base base where
  place _ := ⟨rfl, rfl, rfl⟩
  dynamics := rfl
  code d := by
    unfold instrumented disabled
    split <;> rfl
  opposite d := by
    unfold instrumented disabled
    split <;> rfl
  frame _ _ := rfl

omit [DecidableEq ι] in
theorem Agrees.separate (h : Agrees base st) (hbase : base.Separate) : st.Separate where
  size_le d := by
    rw [(h.place d).2.2]
    exact hbase.size_le d
  apart d e hne := by
    rw [(h.place d).1, (h.place d).2.2, (h.place e).1, (h.place e).2.2]
    exact hbase.apart d e hne

/-- The other points keep their records and their code. -/
theorem setDynamicPointStatus_of_ne (state : Bool) (hst : st.Separate) (hne : e ≠ d) :
    (st.setDynamicPointStatus d state).insts e = st.insts e ∧
      (st.setDynamicPointStatus d state).code e = st.code e := by
  have hinst : (st.setDynamicPointStatus d state).insts e = st.insts e :=
    Function.update_of_ne hne ..
  refine ⟨hinst, ?_⟩
  unfold DynamicState.code
  rw [hinst]
  refine read_write_of_apart ?_
  rw [length_content (hst.size_le d)]
  exact hst.apart d e hne.symm

/-- The point swaps its code and its content. -/
theorem setDynamicPointStatus_self (state : Bool) (hst : st.Separate) :
    (st.setDynamicPointStatus d state).code d = (st.insts d).content ∧
      ((st.setDynamicPointStatus d state).insts d).content = st.code d ∧
      ((st.setDynamicPointStatus d state).insts d).isEnabled = state := by
  have hlen := length_content (hst.size_le d)
  refine ⟨?_, ?_, ?_⟩
  · unfold DynamicState.code setDynamicPointStatus
    simp only [Function.update_self]
    rw [← hlen]
    exact read_write
  · unfold setDynamicPointStatus
    simp only [Function.update_self]
    exact content_store (length_read ..) (hst.size_le d) state
  · unfold setDynamicPointStatus
    simp only [Function.update_self]

/-- A swap that changes the status keeps the points in agreement. -/
theorem Agrees.setDynamicPointStatus (hbase : base.Separate) (h : Agrees base st)
    (hd : state ≠ (st.insts d).isEnabled) : Agrees base (st.setDynamicPointStatus d state) := by
  have hst := h.separate hbase
  obtain ⟨hcode, hcontent, henabled⟩ := setDynamicPointStatus_self (d := d) state hst
  constructor
  case place =>
    intro e
    by_cases he : e = d
    · subst he
      simp only [DynamicState.setDynamicPointStatus, Function.update_self]
      exact h.place e
    · rw [(setDynamicPointStatus_of_ne _ hst he).1]
      exact h.place e
  case dynamics => exact h.dynamics
  case code =>
    intro e
    by_cases he : e = d
    · subst he
      rw [hcode, henabled, h.opposite e]
      cases state <;> simp_all
    · obtain ⟨hinst, hsame⟩ := setDynamicPointStatus_of_ne state hst he
      rw [hsame, hinst]
      exact h.code e
  case opposite =>
    intro e
    by_cases he : e = d
    · subst he
      rw [hcontent, henabled, h.code e]
      cases state <;> simp_all
    · rw [(setDynamicPointStatus_of_ne _ hst he).1]
      exact h.opposite e
  case frame =>
    intro x hx
    rw [← h.frame x hx]
    refine write_of_not_inRange ?_
    rw [length_content (hst.size_le d), (h.place d).1, (h.place d).2.2]
    exact hx d

end Swap

/-! ## Registered points -/

omit [DecidableEq ι] in
theorem mem_pushBack {k k' : Nat} {d e : ι} {dynamics : List (Nat × List ι)} :
    (∃ entry ∈ pushBack k d dynamics, entry.1 = k' ∧ e ∈ entry.2) ↔
      (∃ entry ∈ dynamics, entry.1 = k' ∧ e ∈ entry.2) ∨ (k = k' ∧ e = d) := by
  induction dynamics with
  | nil => simp [pushBack]
  | cons entry rest ih =>
    unfold pushBack
    split
    · rename_i hk
      subst hk
      simp only [List.mem_cons, exists_eq_or_imp, List.mem_append, List.not_mem_nil, or_false]
      rw [and_or_left, or_right_comm]
    · simp only [List.mem_cons, exists_eq_or_imp, ih]
      rw [or_assoc]

/-- The points that a call with these keys goes through. -/
def selected (st : DynamicState ι) (keys : Finset Nat) : List ι :=
  (st.dynamics.filter fun entry => entry.1 ∈ keys).flatMap fun entry => entry.2

omit [DecidableEq ι] in
theorem mem_selected {st : DynamicState ι} {keys : Finset Nat} {e : ι} :
    e ∈ st.selected keys ↔ ∃ k ∈ keys, ∃ entry ∈ st.dynamics, entry.1 = k ∧ e ∈ entry.2 := by
  simp only [selected, List.mem_flatMap, List.mem_filter, decide_eq_true_eq]
  constructor
  · rintro ⟨entry, ⟨hentry, hk⟩, he⟩
    exact ⟨entry.1, hk, entry, hentry, rfl, he⟩
  · rintro ⟨k, hk, entry, hentry, rfl, he⟩
    exact ⟨entry, ⟨hentry, hk⟩, he⟩

omit [DecidableEq ι] in
/-- Loading an image registers its enabled points under their keys. -/
theorem mem_selected_initialize {st : DynamicState ι} {dyn : List ι} {keys : Finset Nat} {e : ι} :
    e ∈ (st.initializeDynamicInstrumentation dyn).selected keys ↔
      e ∈ st.selected keys ∨ (e ∈ dyn ∧ (st.insts e).isEnabled = true ∧ (st.insts e).key ∈ keys) := by
  simp only [mem_selected, initializeDynamicInstrumentation]
  generalize st.dynamics = dynamics
  induction dyn generalizing dynamics with
  | nil => simp
  | cons d dyn ih =>
    rw [List.foldl_cons]
    refine (ih _).trans ?_
    by_cases hd : (st.insts d).isEnabled = true
    · rw [if_pos hd]
      simp only [mem_pushBack, List.mem_cons]
      constructor
      · rintro (⟨k, hk, hold | ⟨rfl, rfl⟩⟩ | ⟨he, hrest⟩)
        · exact .inl ⟨k, hk, hold⟩
        · exact .inr ⟨.inl rfl, hd, hk⟩
        · exact .inr ⟨.inr he, hrest⟩
      · rintro (⟨k, hk, hold⟩ | ⟨rfl | he, henabled, hk⟩)
        · exact .inl ⟨k, hk, .inl hold⟩
        · exact .inl ⟨_, hk, .inr ⟨rfl, rfl⟩⟩
        · exact .inr ⟨he, henabled, hk⟩
    · rw [if_neg hd]
      simp only [List.mem_cons]
      constructor
      · rintro (hold | ⟨he, hrest⟩)
        · exact .inl hold
        · exact .inr ⟨.inr he, hrest⟩
      · rintro (hold | ⟨rfl | he, henabled, hk⟩)
        · exact .inl hold
        · exact absurd henabled hd
        · exact .inr ⟨he, henabled, hk⟩

/-- Every point is registered under its own key. -/
def Keyed (st : DynamicState ι) : Prop :=
  ∀ k d, d ∈ st.selected {k} → (st.insts d).key = k

omit [DecidableEq ι] in
theorem Keyed.initialize {st : DynamicState ι} (dyn : List ι) (h : st.Keyed) :
    (st.initializeDynamicInstrumentation dyn).Keyed := by
  intro k d hd
  rcases mem_selected_initialize.mp hd with hold | ⟨-, -, hk⟩
  · exact h k d hold
  · exact Finset.mem_singleton.mp hk

omit [DecidableEq ι] in
/-- A call goes through the registered points with its keys. -/
theorem Keyed.mem_selected_iff {st : DynamicState ι} {keys : Finset Nat} {d : ι} (h : st.Keyed) :
    d ∈ st.selected keys ↔ d ∈ st.selected {(st.insts d).key} ∧ (st.insts d).key ∈ keys := by
  constructor
  · intro hd
    obtain ⟨k, hk, hentry⟩ := mem_selected.mp hd
    have hsel : d ∈ st.selected {k} := mem_selected.mpr ⟨k, Finset.mem_singleton_self k, hentry⟩
    rw [h k d hsel]
    exact ⟨hsel, hk⟩
  · rintro ⟨hd, hk⟩
    obtain ⟨k, hmem, hentry⟩ := mem_selected.mp hd
    rw [Finset.mem_singleton.mp hmem] at hentry
    exact mem_selected.mpr ⟨_, hk, hentry⟩

/-! ## One call -/

section Call

variable {base st : DynamicState ι} {d e : ι} {keys : Finset Nat} {state : Bool}

/-- The two loops of `SetDynamicPoints` go through the selected points in turn. -/
theorem setDynamicPoints_eq :
    st.setDynamicPoints keys state = (st.selected keys).foldl (setPoint state) st := by
  unfold setDynamicPoints selected
  generalize st.dynamics = dynamics
  induction dynamics generalizing st with
  | nil => rfl
  | cons entry rest ih =>
    rw [List.foldl_cons, ih]
    by_cases hk : entry.1 ∈ keys
    · rw [if_pos hk, List.filter_cons_of_pos (by simpa using hk), List.flatMap_cons,
        List.foldl_append]
    · rw [if_neg hk, List.filter_cons_of_neg (by simpa using hk)]

theorem setPoint_isEnabled : ((setPoint state st d).insts d).isEnabled = state := by
  unfold setPoint
  split
  · simp [setDynamicPointStatus]
  · rename_i hsame
    exact (not_not.mp hsame).symm

theorem setPoint_of_ne (hne : e ≠ d) : (setPoint state st d).insts e = st.insts e := by
  unfold setPoint
  split
  · exact Function.update_of_ne hne ..
  · rfl

theorem Agrees.setPoint (hbase : base.Separate) (h : Agrees base st) :
    Agrees base (setPoint state st d) := by
  unfold DynamicState.setPoint
  split
  · rename_i hne
    exact h.setDynamicPointStatus hbase hne
  · exact h

/-- Points gone through in turn end up with the status, and the others are left alone. -/
theorem foldl_setPoint (state : Bool) (st : DynamicState ι) (ids : List ι) :
    (∀ d ∈ ids, ((ids.foldl (setPoint state) st).insts d).isEnabled = state) ∧
      ∀ d ∉ ids, (ids.foldl (setPoint state) st).insts d = st.insts d := by
  induction ids generalizing st with
  | nil => exact ⟨by simp, by simp⟩
  | cons e ids ih =>
    obtain ⟨hset, hkept⟩ := ih (setPoint state st e)
    rw [List.foldl_cons]
    refine ⟨fun d hd => ?_, fun d hd => ?_⟩
    · by_cases hmem : d ∈ ids
      · exact hset d hmem
      · obtain rfl := (List.mem_cons.mp hd).resolve_right hmem
        rw [hkept d hmem, setPoint_isEnabled]
    · obtain ⟨hne, hmem⟩ := not_or.mp (mt List.mem_cons.mpr hd)
      rw [hkept d hmem, setPoint_of_ne hne]

/-- Going through points changes no registration and no key. -/
theorem foldl_setPoint_key (state : Bool) (st : DynamicState ι) (ids : List ι) :
    (ids.foldl (setPoint state) st).dynamics = st.dynamics ∧
      ∀ d, ((ids.foldl (setPoint state) st).insts d).key = (st.insts d).key := by
  induction ids generalizing st with
  | nil => exact ⟨rfl, fun _ => rfl⟩
  | cons e ids ih =>
    have hstep : (setPoint state st e).dynamics = st.dynamics ∧
        ∀ d, ((setPoint state st e).insts d).key = (st.insts d).key := by
      unfold setPoint setDynamicPointStatus
      split
      · refine ⟨rfl, fun d => ?_⟩
        by_cases hd : d = e
        · subst hd
          simp only [Function.update_self]
        · simp only [Function.update_of_ne hd]
      · exact ⟨rfl, fun _ => rfl⟩
    obtain ⟨hdynamics, hkey⟩ := ih (setPoint state st e)
    exact ⟨hdynamics.trans hstep.1, fun d => (hkey d).trans (hstep.2 d)⟩

theorem Agrees.foldl_setPoint (state : Bool) (hbase : base.Separate) (ids : List ι) (h : Agrees base st) :
    Agrees base (ids.foldl (DynamicState.setPoint state) st) := by
  induction ids generalizing st with
  | nil => exact h
  | cons e ids ih => exact ih (h.setPoint hbase)

/-- When the points already have the status, nothing happens. -/
theorem foldl_setPoint_of_isEnabled (ids : List ι)
    (h : ∀ d ∈ ids, (st.insts d).isEnabled = state) : ids.foldl (setPoint state) st = st := by
  induction ids with
  | nil => rfl
  | cons e ids ih =>
    have hsame : setPoint state st e = st := by
      unfold setPoint
      rw [if_neg (not_not_intro (h e List.mem_cons_self).symm)]
    rw [List.foldl_cons, hsame]
    exact ih fun d hd => h d (List.mem_cons_of_mem e hd)

theorem isEnabled_setDynamicPoints : ((st.setDynamicPoints keys state).insts d).isEnabled =
    if d ∈ st.selected keys then state else (st.insts d).isEnabled := by
  rw [setDynamicPoints_eq]
  obtain ⟨hset, hkept⟩ := foldl_setPoint state st (st.selected keys)
  split
  · rename_i hd
    exact hset d hd
  · rename_i hd
    rw [hkept d hd]

@[simp] theorem setDynamicPoints_dynamics :
    (st.setDynamicPoints keys state).dynamics = st.dynamics := by
  rw [setDynamicPoints_eq]
  exact (foldl_setPoint_key _ _ _).1

@[simp] theorem setDynamicPoints_key :
    ((st.setDynamicPoints keys state).insts d).key = (st.insts d).key := by
  rw [setDynamicPoints_eq]
  exact (foldl_setPoint_key _ _ _).2 d

@[simp] theorem setDynamicPoints_selected {keys' : Finset Nat} :
    (st.setDynamicPoints keys state).selected keys' = st.selected keys' := by
  unfold selected
  rw [setDynamicPoints_dynamics]

theorem Keyed.setDynamicPoints (h : st.Keyed) : (st.setDynamicPoints keys state).Keyed := by
  intro k d hd
  rw [setDynamicPoints_selected] at hd
  rw [setDynamicPoints_key]
  exact h k d hd

/-- What one call of `SetDynamicPoints` does. -/
structure CallSpec (base st : DynamicState ι) (keys : Finset Nat) (state : Bool)
    (st' : DynamicState ι) : Prop where
  agrees : Agrees base st'
  set : ∀ d ∈ base.selected keys, (st'.insts d).isEnabled = state
  kept : ∀ d ∉ base.selected keys, st'.insts d = st.insts d ∧ st'.code d = st.code d

omit [DecidableEq ι] in
theorem Agrees.selected (h : Agrees base st) : st.selected keys = base.selected keys := by
  unfold DynamicState.selected
  rw [h.dynamics]

theorem Agrees.setDynamicPoints (keys : Finset Nat) (state : Bool) (hbase : base.Separate)
    (h : Agrees base st) :
    CallSpec base st keys state (st.setDynamicPoints keys state) := by
  rw [setDynamicPoints_eq, h.selected]
  have hagrees := h.foldl_setPoint state hbase (base.selected keys)
  obtain ⟨hset, hkept⟩ := DynamicState.foldl_setPoint state st
    (base.selected keys)
  refine ⟨hagrees, hset, fun d hd => ⟨hkept d hd, ?_⟩⟩
  rw [hagrees.code d, h.code d, hkept d hd]

theorem Agrees.run (hbase : base.Separate) (h : Agrees base st)
    (calls : List (Finset Nat × Bool)) : Agrees base (st.run calls) := by
  induction calls generalizing st with
  | nil => exact h
  | cons call calls ih => exact ih (h.setDynamicPoints _ _ hbase).agrees

/-- Repeating a call has no effect. -/
theorem Agrees.setDynamicPoints_twice (hbase : base.Separate) (h : Agrees base st) :
    (st.setDynamicPoints keys state).setDynamicPoints keys state =
      st.setDynamicPoints keys state := by
  have hspec := h.setDynamicPoints keys state hbase
  rw [setDynamicPoints_eq, hspec.agrees.selected]
  exact foldl_setPoint_of_isEnabled _ hspec.set

omit [DecidableEq ι] in
/-- Where the statuses agree, so do the memories. -/
theorem Agrees.memory_eq {st' : DynamicState ι} (h : Agrees base st) (h' : Agrees base st')
    (hflags : ∀ d, (st'.insts d).isEnabled = (st.insts d).isEnabled) :
    st'.memory = st.memory := by
  funext x
  by_cases hx : ∃ d, InRange (base.insts d).virtualAddress (base.insts d).size x
  · obtain ⟨d, hd⟩ := hx
    have hcode : st'.code d = st.code d := by rw [h'.code d, h.code d, hflags d]
    unfold DynamicState.code at hcode
    rw [(h'.place d).1, (h'.place d).2.2, (h.place d).1, (h.place d).2.2] at hcode
    obtain ⟨i, rfl⟩ := Nat.exists_eq_add_of_le hd.1
    have hi : i < (base.insts d).size := Nat.lt_of_add_lt_add_left hd.2
    have hbyte := congrArg (fun bytes => bytes[i]?) hcode
    simp only [getElem?_read hi] at hbyte
    exact Option.some.inj hbyte
  · have hnone : ∀ d, ¬InRange (base.insts d).virtualAddress (base.insts d).size x :=
      fun d hd => hx ⟨d, hd⟩
    rw [h'.frame x hnone, h.frame x hnone]

/-- Switching points that have one status to the other and back restores the memory. -/
theorem Agrees.setDynamicPoints_back (hbase : base.Separate) (h : Agrees base st)
    (hall : ∀ d ∈ base.selected keys, (st.insts d).isEnabled = state) :
    ((st.setDynamicPoints keys (!state)).setDynamicPoints keys state).memory = st.memory := by
  have hspec := h.setDynamicPoints keys (!state) hbase
  have hback := hspec.agrees.setDynamicPoints keys state hbase
  refine h.memory_eq hback.agrees fun d => ?_
  by_cases hd : d ∈ base.selected keys
  · rw [hback.set d hd, hall d hd]
  · rw [(hback.kept d hd).1, (hspec.kept d hd).1]

end Call

/-! ## Runs -/

/-- An image with `n` points in its array, after `tool_dynamic_init`. -/
def load {n : Nat} (memory : ByteMemory) (insts : Fin n → DynamicInst) : DynamicState (Fin n) :=
  initializeDynamicInstrumentation ⟨memory, insts, []⟩ (List.finRange n)

theorem mem_selected_load {n : Nat} {memory : ByteMemory} {insts : Fin n → DynamicInst}
    {keys : Finset Nat} {d : Fin n} :
    d ∈ (load memory insts).selected keys ↔
      (insts d).isEnabled = true ∧ (insts d).key ∈ keys := by
  rw [load, mem_selected_initialize]
  simp [selected, List.mem_finRange]

/-- After any calls the points agree with the image as it was loaded, and one more call sets
the registered points of its keys, leaves the others alone, does nothing when it is repeated
and is undone by its opposite. -/
theorem agrees_run {n : Nat} (memory : ByteMemory) (insts : Fin n → DynamicInst)
    (hsep : (load memory insts).Separate) (calls : List (Finset Nat × Bool)) :
    Agrees (load memory insts) ((load memory insts).run calls) ∧
      ∀ (keys : Finset Nat) (state : Bool),
        (∀ d, (insts d).key ∉ keys →
          (((load memory insts).run calls).setDynamicPoints keys state).insts d =
              ((load memory insts).run calls).insts d ∧
            (((load memory insts).run calls).setDynamicPoints keys state).code d =
              ((load memory insts).run calls).code d) ∧
        (∀ d, (insts d).isEnabled = true → (insts d).key ∈ keys →
          ((((load memory insts).run calls).setDynamicPoints keys state).insts d).isEnabled =
            state) ∧
        (((load memory insts).run calls).setDynamicPoints keys state).setDynamicPoints keys state =
          ((load memory insts).run calls).setDynamicPoints keys state ∧
        ((∀ d, (insts d).key ∈ keys →
            (((load memory insts).run calls).insts d).isEnabled = false) →
          ((((load memory insts).run calls).setDynamicPoints keys true).setDynamicPoints
            keys false).memory = ((load memory insts).run calls).memory) := by
  have hagrees := (Agrees.refl (load memory insts)).run hsep calls
  refine ⟨hagrees, fun keys state => ⟨fun d hd => ?_, fun d henabled hd => ?_,
    hagrees.setDynamicPoints_twice hsep, fun hall => ?_⟩⟩
  · refine (hagrees.setDynamicPoints keys state hsep).kept d fun hsel => ?_
    exact hd (mem_selected_load.mp hsel).2
  · exact (hagrees.setDynamicPoints keys state hsep).set d (mem_selected_load.mpr ⟨henabled, hd⟩)
  · exact hagrees.setDynamicPoints_back hsep fun d hsel => hall d (mem_selected_load.mp hsel).2

/-- Two points of five bytes, one behind the other. -/
def twoPoints : Fin 2 → DynamicInst := fun d =>
  { virtualAddress := 5 * d.val, key := d.val, size := 5, oppContent := fun _ => 0x90
    isEnabled := true }

theorem separate_twoPoints : (load (fun _ => 0xe9) twoPoints).Separate where
  size_le d := by
    show 5 ≤ 128
    decide
  apart d e hne := by
    show 5 * d.val + 5 ≤ 5 * e.val ∨ 5 * e.val + 5 ≤ 5 * d.val
    have := Fin.val_ne_of_ne hne
    omega

theorem agrees_run_twoPoints :
    Agrees (load (fun _ => 0xe9) twoPoints)
      ((load (fun _ => 0xe9) twoPoints).run [({0}, false), ({0, 1}, false), ({1}, true)]) :=
  (agrees_run _ twoPoints separate_twoPoints _).1

end DynamicState

end Pebil

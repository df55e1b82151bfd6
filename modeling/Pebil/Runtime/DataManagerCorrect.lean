import Mathlib.Tactic.ByContra
import Pebil.Runtime.DataManager

/-!
# Additions in order keep the data apart

As long as images come before a second thread and threads before a second image, every new
object, set of handlers and buffer is one that was never used (`Kept`), and a table entry that
is taken stays.
-/

namespace Pebil.DataManager

variable {dm dm' : DataManager} {s d iid tid firstimage : Nat}

/-! ## What the parts do -/

theorem generateCacheStats_thread :
    dm.generateCacheStats s .threadType iid tid firstimage = some (dm.next,
      { dm with
        heap := Function.update dm.heap dm.next ⟨tid, iid, dm.next + 1, dm.next + 2⟩
        next := dm.next + 3 }) := by
  rfl

/-- For an image other than the first, the handlers and the buffer are those of the thread's
data for the first image. -/
theorem generateCacheStats_image {fs : Nat} (hne : iid ≠ firstimage)
    (hfs : dm.getData firstimage tid = some fs) :
    dm.generateCacheStats s .imageType iid tid firstimage = some (s,
      { dm with
        heap := Function.update dm.heap s
          ⟨tid, iid, (dm.heap fs).handlers, (dm.heap fs).buffer⟩ }) := by
  simp [generateCacheStats, hne, hfs]

theorem generateCacheStats_firstimage :
    dm.generateCacheStats s .imageType iid tid iid = some (s,
      { dm with
        heap := Function.update dm.heap s ⟨tid, iid, dm.next, (dm.heap s).buffer⟩
        next := dm.next + 1 }) := by
  simp [generateCacheStats]

theorem id_freeSlot {td : Nat → ThreadData} {fuel actual slot : Nat}
    (h : freeSlot td fuel actual = some slot) : (td slot).id = 0 := by
  induction fuel generalizing actual with
  | zero => cases h
  | succ fuel ih =>
    unfold freeSlot at h
    split at h
    · rename_i hfree
      exact Option.some.inj h ▸ hfree
    · exact ih h

/-- `SetThreadData` enters the data at the hash of the thread, which was free. -/
theorem setThreadData_eq_some {ref : Nat}
    (h : dm.setThreadData iid tid = some (ref, dm')) :
    dm.datamap iid tid = some ref ∧ ∃ td, dm.threaddata iid = some td ∧
      (td (hashThread tid)).id = 0 ∧
      dm' = { dm with
        threaddata := Function.update dm.threaddata iid
          (some (Function.update td (hashThread tid) ⟨tid, ref⟩)) } := by
  unfold setThreadData at h
  obtain ⟨td, htd, h⟩ := Option.bind_eq_some_iff.mp h
  obtain ⟨d, hd, h⟩ := Option.bind_eq_some_iff.mp h
  obtain ⟨actual, hactual, h⟩ := Option.bind_eq_some_iff.mp h
  split at h
  · rename_i heq
    obtain ⟨rfl, rfl⟩ := Prod.mk.inj (Option.some.inj h)
    subst heq
    exact ⟨hd, td, htd, id_freeSlot hactual, rfl⟩
  · cases h

/-- The probe for a thread ends at once when the entry at its hash is its own. -/
theorem threadSlot_hash {td : Nat → ThreadData} (h : (td (hashThread tid)).id = tid) :
    threadSlot td tid (threadHashMod + 1) (hashThread tid) = some (hashThread tid) := by
  unfold threadSlot
  rw [if_pos h]

/-! ## The invariant -/

/-- What additions in order keep. -/
structure Kept (dm : DataManager) : Prop where
  data : ∀ i ∈ dm.allimages, ∀ t ∈ dm.allthreads, ∃ d, dm.getData i t = some d
  added : ∀ i t d, dm.getData i t = some d → i ∈ dm.allimages ∧ t ∈ dm.allthreads
  below : ∀ i t d, dm.getData i t = some d →
    d < dm.next ∧ (dm.heap d).handlers < dm.next ∧ (dm.heap d).buffer < dm.next
  distinct : ∀ i t i' t' d, dm.getData i t = some d → dm.getData i' t' = some d → i = i' ∧ t = t'
  entered : ∀ i t d, dm.getData i t = some d →
    ∃ td, dm.threaddata i = some td ∧ td (hashThread t) = ⟨t, d⟩
  shared : ∀ i i' t d d', dm.getData i t = some d → dm.getData i' t = some d' →
    (dm.heap d).handlers = (dm.heap d').handlers ∧ (dm.heap d).buffer = (dm.heap d').buffer
  apart : ∀ i t i' t' d d', dm.getData i t = some d → dm.getData i' t' = some d' → t ≠ t' →
    (dm.heap d).handlers ≠ (dm.heap d').handlers ∧ (dm.heap d).buffer ≠ (dm.heap d').buffer
  firstimage : if dm.firstimage = 0 then dm.allimages = [] ∧ dm.allthreads = []
    else dm.firstimage ∈ dm.allimages
  threads_nodup : dm.allthreads.Nodup
  threads_ne_zero : ∀ t ∈ dm.allthreads, t ≠ 0

theorem Kept.owned (h : dm.Kept) : dm.Owned where
  data := h.data
  distinct := h.distinct
  hashed i t d hd := by
    obtain ⟨td, htd, hentry⟩ := h.entered i t d hd
    exact ⟨td, hashThread t, htd, threadSlot_hash (by rw [hentry]), hentry⟩
  shared := h.shared
  apart := h.apart

theorem kept_create (creator : Nat) : (create creator).Kept where
  data _ hi := absurd hi List.not_mem_nil
  added _ _ _ hd := by cases hd
  below _ _ _ hd := by cases hd
  distinct _ _ _ _ _ hd := by cases hd
  entered _ _ _ hd := by cases hd
  shared _ _ _ _ _ hd := by cases hd
  apart _ _ _ _ _ _ hd := by cases hd
  firstimage := ⟨rfl, rfl⟩
  threads_nodup := List.nodup_nil
  threads_ne_zero _ ht := absurd ht List.not_mem_nil

/-- The manager after one more pair got an object of its own. -/
structure Added (dm : DataManager) (iid tid d : Nat) (dm' : DataManager) : Prop where
  fresh : dm.next ≤ d
  lt : d < dm'.next
  heap : ∀ o, o < dm.next → dm'.heap o = dm.heap o
  getData : ∀ i t, dm'.getData i t = if i = iid ∧ t = tid then some d else dm.getData i t
  old : dm.getData iid tid = none
  entered : ∃ td, dm'.threaddata iid = some td ∧ td (hashThread tid) = ⟨tid, d⟩ ∧
    ∀ t o, dm.getData iid t = some o → td (hashThread t) = ⟨t, o⟩
  tables : ∀ i ≠ iid, dm'.threaddata i = dm.threaddata i
  handlers : (dm'.heap d).handlers < dm'.next ∧ (dm'.heap d).buffer < dm'.next
  own : ∀ i t o, dm.getData i t = some o → t ≠ tid →
    (dm.heap o).handlers ≠ (dm'.heap d).handlers ∧ (dm.heap o).buffer ≠ (dm'.heap d).buffer
  same : ∀ i o, dm.getData i tid = some o →
    (dm.heap o).handlers = (dm'.heap d).handlers ∧ (dm.heap o).buffer = (dm'.heap d).buffer

/-- One more pair keeps the data apart, when it completes the pairs of the images and
threads. -/
theorem Kept.added_pair (h : dm.Kept) (hadd : Added dm iid tid d dm')
    (himages : ∀ i, i ∈ dm'.allimages ↔ i = iid ∨ i ∈ dm.allimages)
    (hthreads : ∀ t, t ∈ dm'.allthreads ↔ t = tid ∨ t ∈ dm.allthreads)
    (hdata : ∀ i ∈ dm'.allimages, ∀ t ∈ dm'.allthreads,
      (i = iid ∧ t = tid) ∨ (i ∈ dm.allimages ∧ t ∈ dm.allthreads))
    (hfirst : dm'.firstimage ≠ 0 ∧ dm'.firstimage ∈ dm'.allimages)
    (hnodup : dm'.allthreads.Nodup) (htid : tid ≠ 0) : dm'.Kept := by
  -- a pair of the new manager is the new one, or an old one whose object has not changed
  have hcases : ∀ i t o, dm'.getData i t = some o →
      (i = iid ∧ t = tid ∧ o = d) ∨
        (¬(i = iid ∧ t = tid) ∧ dm.getData i t = some o ∧ o < dm.next ∧ dm'.heap o = dm.heap o) := by
    intro i t o ho
    rw [hadd.getData] at ho
    split at ho
    · rename_i hnew
      exact .inl ⟨hnew.1, hnew.2, (Option.some.inj ho).symm⟩
    · rename_i hnew
      have hlt := (h.below i t o ho).1
      exact .inr ⟨hnew, ho, hlt, hadd.heap o hlt⟩
  have hfresh := hadd.fresh
  constructor
  case data =>
    intro i hi t ht
    rw [hadd.getData]
    split
    · exact ⟨d, rfl⟩
    · rename_i hnew
      obtain ⟨hi, ht⟩ := (hdata i hi t ht).resolve_left hnew
      exact h.data i hi t ht
  case added =>
    intro i t o ho
    rw [himages, hthreads]
    rcases hcases i t o ho with ⟨rfl, rfl, -⟩ | ⟨-, hold, -, -⟩
    · exact ⟨.inl rfl, .inl rfl⟩
    · obtain ⟨hi, ht⟩ := h.added i t o hold
      exact ⟨.inr hi, .inr ht⟩
  case below =>
    intro i t o ho
    have hlt := hadd.lt
    rcases hcases i t o ho with ⟨-, -, rfl⟩ | ⟨-, hold, hlow, hheap⟩
    · exact ⟨hlt, hadd.handlers⟩
    · obtain ⟨-, hhandlers, hbuffer⟩ := h.below i t o hold
      rw [hheap]
      omega
  case distinct =>
    intro i t i' t' o ho ho'
    rcases hcases i t o ho with ⟨rfl, rfl, rfl⟩ | ⟨-, hold, hlow, -⟩
    · rcases hcases i' t' o ho' with ⟨rfl, rfl, -⟩ | ⟨-, -, hlow', -⟩
      · exact ⟨rfl, rfl⟩
      · omega
    · rcases hcases i' t' o ho' with ⟨-, -, rfl⟩ | ⟨-, hold', -, -⟩
      · omega
      · exact h.distinct i t i' t' o hold hold'
  case entered =>
    obtain ⟨td, htd, hself, hothers⟩ := hadd.entered
    intro i t o ho
    rcases hcases i t o ho with ⟨rfl, rfl, rfl⟩ | ⟨-, hold, -, -⟩
    · exact ⟨td, htd, hself⟩
    · by_cases hi : i = iid
      · subst hi
        exact ⟨td, htd, hothers t o hold⟩
      · rw [hadd.tables i hi]
        exact h.entered i t o hold
  case shared =>
    intro i i' t o o' ho ho'
    rcases hcases i t o ho with ⟨rfl, rfl, rfl⟩ | ⟨-, hold, -, hheap⟩
    · rcases hcases i' t o' ho' with ⟨-, -, rfl⟩ | ⟨-, hold', -, hheap'⟩
      · exact ⟨rfl, rfl⟩
      · obtain ⟨hh, hb⟩ := hadd.same i' o' hold'
        rw [hheap']
        exact ⟨hh.symm, hb.symm⟩
    · rcases hcases i' t o' ho' with ⟨-, rfl, rfl⟩ | ⟨-, hold', -, hheap'⟩
      · rw [hheap]
        exact hadd.same i o hold
      · rw [hheap, hheap']
        exact h.shared i i' t o o' hold hold'
  case apart =>
    intro i t i' t' o o' ho ho' hne
    rcases hcases i t o ho with ⟨rfl, rfl, rfl⟩ | ⟨-, hold, -, hheap⟩
    · rcases hcases i' t' o' ho' with ⟨-, rfl, -⟩ | ⟨-, hold', -, hheap'⟩
      · exact absurd rfl hne
      · obtain ⟨hh, hb⟩ := hadd.own i' t' o' hold' hne.symm
        rw [hheap']
        exact ⟨hh.symm, hb.symm⟩
    · rcases hcases i' t' o' ho' with ⟨-, rfl, rfl⟩ | ⟨-, hold', -, hheap'⟩
      · rw [hheap]
        exact hadd.own i t o hold hne
      · rw [hheap, hheap']
        exact h.apart i t i' t' o o' hold hold' hne
  case firstimage =>
    rw [if_neg hfirst.1]
    exact hfirst.2
  case threads_nodup => exact hnodup
  case threads_ne_zero =>
    intro t ht
    rcases (hthreads t).mp ht with rfl | hold
    · exact htid
    · exact h.threads_ne_zero t hold

/-! ## The additions -/

/-- The round of `AddThread` for an image. -/
theorem addThreadTo_eq_some (h : addThreadTo tid dm iid = some dm') :
    dm.datamap iid tid = none ∧ ∃ td, dm.threaddata iid = some td ∧
      (td (hashThread tid)).id = 0 ∧
      dm' = { dm.setData iid tid dm.next with
        heap := Function.update dm.heap dm.next ⟨tid, iid, dm.next + 1, dm.next + 2⟩
        next := dm.next + 3
        threaddata := Function.update dm.threaddata iid
          (some (Function.update td (hashThread tid) ⟨tid, dm.next⟩)) } := by
  unfold addThreadTo at h
  split at h
  · cases h
  · rename_i hnone
    split at h
    · cases h
    · obtain ⟨s, -, h⟩ := Option.bind_eq_some_iff.mp h
      obtain ⟨⟨o, dm₀⟩, hgen, h⟩ := Option.bind_eq_some_iff.mp h
      rw [generateCacheStats_thread] at hgen
      obtain ⟨rfl, rfl⟩ := Prod.mk.inj (Option.some.inj hgen)
      obtain ⟨⟨ref, dm₁⟩, hset, h⟩ := Option.bind_eq_some_iff.mp h
      obtain ⟨hdata, td, htd, hfree, hdm₁⟩ := setThreadData_eq_some hset
      obtain rfl := Option.some.inj h
      have href : dm.next = ref := by
        simpa [setData] using hdata
      subst href
      exact ⟨by simpa using hnone, td, htd, hfree, hdm₁⟩

@[simp] theorem getData_setData {data i t : Nat} : (dm.setData iid tid data).getData i t =
    if i = iid ∧ t = tid then some data else dm.getData i t := by
  unfold setData getData
  by_cases hi : i = iid
  · subst hi
    by_cases ht : t = tid
    · simp [ht]
    · simp [ht]
  · simp [hi]

/-- A round of `AddThread` adds a pair, when the thread has none yet. -/
theorem Kept.addThreadTo (h : dm.Kept) (hnew : tid ∉ dm.allthreads)
    (hadd : addThreadTo tid dm iid = some dm') : Added dm iid tid dm.next dm' := by
  obtain ⟨hnone, td, htd, hfree, rfl⟩ := addThreadTo_eq_some hadd
  constructor
  case fresh => exact le_refl _
  case lt => simp only; omega
  case heap => exact fun o ho => Function.update_of_ne ho.ne ..
  case getData => exact fun i t => getData_setData
  case old => exact hnone
  case entered =>
    refine ⟨_, Function.update_self .., Function.update_self .., fun t o ho => ?_⟩
    obtain ⟨td', htd', hentry⟩ := h.entered iid t o ho
    obtain rfl := Option.some.inj (htd.symm.trans htd')
    have ht := h.threads_ne_zero t (h.added iid t o ho).2
    rw [Function.update_of_ne, hentry]
    intro heq
    rw [← heq, hentry] at hfree
    exact ht hfree
  case tables => exact fun i hi => Function.update_of_ne hi ..
  case handlers =>
    simp only [Function.update_self]
    omega
  case own =>
    intro i t o ho _
    obtain ⟨-, hhandlers, hbuffer⟩ := h.below i t o ho
    simp only [Function.update_self]
    omega
  case same => exact fun i o ho => absurd (h.added i tid o ho).2 hnew

theorem foldlM_of_eq_singleton {α σ : Type*} {l : List α} {a : α} {f : σ → α → Option σ} {x : σ}
    (h : l = [a]) : l.foldlM f x = f x a := by
  subst h
  simp

/-- Sequence numbers play no part. -/
theorem Kept.of_threadseq (h : dm.Kept) (threadseq : Nat → Option Nat) (current : Nat) :
    Kept { dm with threadseq := threadseq, currentthreadseq := current } :=
  ⟨h.data, h.added, h.below, h.distinct, h.entered, h.shared, h.apart, h.firstimage,
    h.threads_nodup, h.threads_ne_zero⟩

/-- The thread is entered last. -/
theorem Added.of_allthreads (h : Added dm iid tid d dm') (allthreads : List Nat) :
    Added dm iid tid d { dm' with allthreads := allthreads } :=
  ⟨h.fresh, h.lt, h.heap, h.getData, h.old, h.entered, h.tables, h.handlers, h.own, h.same⟩

/-- Before a second image a thread adds one pair: its object is a copy with all that it needs
of its own. -/
theorem Kept.addThread (h : dm.Kept) (hone : dm.allimages.length ≤ 1) (htid : tid ≠ 0)
    (hadd : dm.addThread tid = some dm') : dm'.Kept := by
  unfold DataManager.addThread at hadd
  split at hadd
  · cases hadd
  · rename_i hguard
    obtain ⟨hnew, -, hfirst⟩ : tid ∉ dm.allthreads ∧ ¬(dm.threadseq tid).isSome = true ∧
        dm.firstimage ≠ 0 := by
      simpa only [not_or] using hguard
    have hmem : dm.firstimage ∈ dm.allimages := by
      simpa only [if_neg hfirst] using h.firstimage
    obtain ⟨i, himages⟩ : ∃ i, dm.allimages = [i] :=
      List.length_eq_one_iff.mp (le_antisymm hone (List.length_pos_of_mem hmem))
    obtain ⟨dm₁, hround, hresult⟩ := Option.bind_eq_some_iff.mp hadd
    obtain rfl := Option.some.inj hresult
    replace hround := (foldlM_of_eq_singleton himages).symm.trans hround
    have hseq := h.of_threadseq (Function.update dm.threadseq tid (some dm.currentthreadseq))
      (dm.currentthreadseq + 1)
    have hadded := hseq.addThreadTo hnew hround
    obtain ⟨-, td, -, -, rfl⟩ := addThreadTo_eq_some hround
    refine hseq.added_pair (hadded.of_allthreads _) ?_ (fun t => mem_insertKey) ?_ ⟨hfirst, hmem⟩
      (nodup_insertKey h.threads_nodup) htid
    · intro i'
      show i' ∈ dm.allimages ↔ i' = i ∨ i' ∈ dm.allimages
      rw [himages]
      simp
    · intro i' hi' t ht
      have hi : i' = i := by
        have hlist : i' ∈ dm.allimages := hi'
        rw [himages] at hlist
        exact List.mem_singleton.mp hlist
      rcases mem_insertKey.mp ht with rfl | ht
      · exact .inl ⟨hi, rfl⟩
      · exact .inr ⟨hi', ht⟩

/-- The only thread there is. -/
theorem insertKey_of_forall_eq {k : Nat} {keys : List Nat} (hnodup : keys.Nodup)
    (h : ∀ k' ∈ keys, k' = k) : insertKey k keys = [k] := by
  cases keys with
  | nil => rfl
  | cons x rest =>
    obtain rfl := h x List.mem_cons_self
    cases rest with
    | nil => simp [insertKey]
    | cons y rest =>
      obtain rfl := h y (List.mem_cons_of_mem x List.mem_cons_self)
      exact absurd List.mem_cons_self (List.nodup_cons.mp hnodup).1

theorem generateCacheStats_image_eq_some {r : Nat × DataManager} (hne : iid ≠ firstimage)
    (h : dm.generateCacheStats s .imageType iid tid firstimage = some r) :
    ∃ fs, dm.getData firstimage tid = some fs ∧ r = (s,
      { dm with
        heap := Function.update dm.heap s
          ⟨tid, iid, (dm.heap fs).handlers, (dm.heap fs).buffer⟩ }) := by
  cases hfs : dm.getData firstimage tid with
  | none => simp [generateCacheStats, hne, hfs] at h
  | some fs =>
    rw [generateCacheStats_image hne hfs] at h
    exact ⟨fs, rfl, (Option.some.inj h).symm⟩

section Fill

variable {dataloc : Nat}

@[simp] theorem fillThreadData_heap : (dm.fillThreadData iid dataloc).heap = dm.heap := by
  unfold fillThreadData
  split <;> rfl

@[simp] theorem fillThreadData_next : (dm.fillThreadData iid dataloc).next = dm.next := by
  unfold fillThreadData
  split <;> rfl

@[simp] theorem fillThreadData_datamap :
    (dm.fillThreadData iid dataloc).datamap = dm.datamap := by
  unfold fillThreadData
  split <;> rfl

@[simp] theorem fillThreadData_allthreads :
    (dm.fillThreadData iid dataloc).allthreads = dm.allthreads := by
  unfold fillThreadData
  split <;> rfl

@[simp] theorem fillThreadData_allimages :
    (dm.fillThreadData iid dataloc).allimages = dm.allimages := by
  unfold fillThreadData
  split <;> rfl

@[simp] theorem fillThreadData_threadseq :
    (dm.fillThreadData iid dataloc).threadseq = dm.threadseq := by
  unfold fillThreadData
  split <;> rfl

@[simp] theorem fillThreadData_currentthreadseq :
    (dm.fillThreadData iid dataloc).currentthreadseq = dm.currentthreadseq := by
  unfold fillThreadData
  split <;> rfl

@[simp] theorem fillThreadData_firstimage :
    (dm.fillThreadData iid dataloc).firstimage = dm.firstimage := by
  unfold fillThreadData
  split <;> rfl

/-- The entry that was set stays as it is. -/
theorem fillThreadData_entered (dm : DataManager) (tid : Nat) {td : Nat → ThreadData} (htd : dm.threaddata iid = some td)
    (hentry : td (hashThread tid) = ⟨tid, dataloc⟩) :
    ∃ td', (dm.fillThreadData iid dataloc).threaddata iid = some td' ∧
      td' (hashThread tid) = ⟨tid, dataloc⟩ := by
  unfold fillThreadData
  split
  · exact ⟨fun i => { td i with data := dataloc }, by simp [htd], by simp [hentry]⟩
  · exact ⟨td, htd, hentry⟩

theorem fillThreadData_tables {i : Nat} (hi : i ≠ iid) :
    (dm.fillThreadData iid dataloc).threaddata i = dm.threaddata i := by
  unfold fillThreadData
  split
  · exact Function.update_of_ne hi ..
  · rfl

end Fill

theorem setFirstimage_eq : dm.setFirstimage iid =
    { dm with firstimage := if dm.firstimage = 0 then iid else dm.firstimage } := by
  unfold setFirstimage
  split <;> rfl

/-- For the only thread there is, `AddImage` comes to its loop with the image's object as the
data and in the table, and nothing else changed. -/
structure BeforeLoop (dm : DataManager) (iid tid : Nat) (dm₁ : DataManager) : Prop where
  heap : dm₁.heap = Function.update dm.heap dm.next ⟨0, 0, 0, dm.next + 1⟩
  next : dm₁.next = dm.next + 2
  datamap : dm₁.datamap = Function.update dm.datamap iid
    (Function.update (fun _ => none) tid (some dm.next))
  allthreads : dm₁.allthreads = insertKey tid dm.allthreads
  allimages : dm₁.allimages = insertKey iid dm.allimages
  threadseq : dm₁.threadseq = dm.threadseq
  currentthreadseq : dm₁.currentthreadseq = dm.currentthreadseq
  firstimage : dm₁.firstimage = if dm.firstimage = 0 then iid else dm.firstimage
  entered : ∃ td, dm₁.threaddata iid = some td ∧ td (hashThread tid) = ⟨tid, dm.next⟩
  tables : ∀ i ≠ iid, dm₁.threaddata i = dm.threaddata i

theorem addImage_eq_some (h : dm.addImage iid tid = some dm') :
    iid ∉ dm.allimages ∧ ∃ dm₁, BeforeLoop dm iid tid dm₁ ∧
      dm₁.allthreads.foldlM (addImageFor dm.next iid) dm₁ = some dm' := by
  unfold DataManager.addImage at h
  split at h
  · cases h
  · rename_i hnew
    obtain ⟨⟨ref, dm₁⟩, hset, h⟩ := Option.bind_eq_some_iff.mp h
    obtain ⟨href, td, htd, -, rfl⟩ := setThreadData_eq_some hset
    obtain rfl : dm.next = ref := by simpa [insertImage] using href
    refine ⟨hnew, _, ?_, h⟩
    rw [setFirstimage_eq]
    obtain ⟨td', htd', hentry⟩ := fillThreadData_entered
      { dm.insertImage iid tid with
        threaddata := Function.update (dm.insertImage iid tid).threaddata iid
          (some (Function.update td (hashThread tid) ⟨tid, dm.next⟩)) }
      tid (Function.update_self ..) (Function.update_self ..)
    constructor
    case heap => simp [insertImage]
    case next => simp [insertImage]
    case datamap => simp [insertImage]
    case allthreads => simp [insertImage]
    case allimages => simp [insertImage]
    case threadseq => simp [insertImage]
    case currentthreadseq => simp [insertImage]
    case firstimage => simp [insertImage]
    case entered => exact ⟨td', htd', hentry⟩
    case tables =>
      intro i hi
      simp only [fillThreadData_tables hi, Function.update_of_ne hi, insertImage]

/-- Before a second thread an image adds one pair: its own object, with the handlers and the
buffer of the thread's data for the first image. -/
theorem Kept.addImage (h : dm.Kept) (halone : ∀ t ∈ dm.allthreads, t = tid) (hiid : iid ≠ 0)
    (htid : tid ≠ 0) (hadd : dm.addImage iid tid = some dm') : dm'.Kept := by
  obtain ⟨hnew, dm₁, hbefore, hloop⟩ := addImage_eq_some hadd
  have hthreads : dm₁.allthreads = [tid] :=
    hbefore.allthreads.trans (insertKey_of_forall_eq h.threads_nodup halone)
  replace hloop := (foldlM_of_eq_singleton hthreads).symm.trans hloop
  unfold addImageFor at hloop
  obtain ⟨⟨ref, dm₂⟩, hgen, hresult⟩ := Option.bind_eq_some_iff.mp hloop
  obtain rfl := Option.some.inj hresult
  have hother : ∀ i t, i ≠ iid → dm₁.getData i t = dm.getData i t := by
    intro i t hi
    unfold getData
    rw [hbefore.datamap, Function.update_of_ne hi]
  have hnone : ∀ t, dm.getData iid t = none := by
    intro t
    cases ht : dm.getData iid t with
    | none => rfl
    | some o => exact absurd (h.added iid t o ht).1 hnew
  have hheap : ∀ o, o < dm.next → dm₁.heap o = dm.heap o := by
    intro o ho
    rw [hbefore.heap, Function.update_of_ne ho.ne]
  -- the object's handlers and buffer are new, or those of the data for the first image
  obtain ⟨rfl, handlers, buffer, next, rfl, hnext, hhandlers, hbuffer, hsame, hhere⟩ :
      ref = dm.next ∧ ∃ handlers buffer next, dm₂ = { dm₁ with
        heap := Function.update dm₁.heap dm.next ⟨tid, iid, handlers, buffer⟩
        next := next } ∧ dm.next < next ∧ handlers < next ∧ buffer < next ∧
        (∀ i o, dm.getData i tid = some o →
          (dm.heap o).handlers = handlers ∧ (dm.heap o).buffer = buffer) ∧
        ∀ i ∈ dm.allimages, tid ∈ dm.allthreads := by
    have hfirstKept := h.firstimage
    by_cases hzero : dm.firstimage = 0
    · rw [if_pos hzero] at hfirstKept
      have hfirst : dm₁.firstimage = iid := by rw [hbefore.firstimage, if_pos hzero]
      rw [hfirst, generateCacheStats_firstimage] at hgen
      obtain ⟨rfl, rfl⟩ := Prod.mk.inj (Option.some.inj hgen)
      refine ⟨rfl, _, _, _, rfl, ?_, ?_, ?_, fun i o ho => ?_, fun i hi => ?_⟩
      · rw [hbefore.next]
        omega
      · omega
      · rw [hbefore.heap, hbefore.next, Function.update_self]
        show dm.next + 1 < dm.next + 2 + 1
        omega
      · have himage := (h.added i tid o ho).1
        rw [hfirstKept.1] at himage
        exact absurd himage List.not_mem_nil
      · rw [hfirstKept.1] at hi
        exact absurd hi List.not_mem_nil
    · rw [if_neg hzero] at hfirstKept
      have hfirst : dm₁.firstimage = dm.firstimage := by rw [hbefore.firstimage, if_neg hzero]
      have hne : iid ≠ dm.firstimage := fun heq => hnew (heq ▸ hfirstKept)
      rw [hfirst] at hgen
      obtain ⟨fs, hfs, heq⟩ := generateCacheStats_image_eq_some hne hgen
      obtain ⟨rfl, rfl⟩ := Prod.mk.inj heq
      rw [hother _ _ hne.symm] at hfs
      obtain ⟨hlow, hh, hb⟩ := h.below _ _ _ hfs
      refine ⟨rfl, _, _, _, rfl, ?_, ?_, ?_, fun i o ho => ?_, fun _ _ => (h.added _ tid fs hfs).2⟩
      · rw [hbefore.next]
        omega
      · rw [hheap fs hlow, hbefore.next]
        omega
      · rw [hheap fs hlow, hbefore.next]
        omega
      · rw [hheap fs hlow]
        exact h.shared i _ tid o fs ho hfs
  have hadded : Added dm iid tid dm.next (setData { dm₁ with
      heap := Function.update dm₁.heap dm.next ⟨tid, iid, handlers, buffer⟩
      next := next } iid tid dm.next) := by
    constructor
    case fresh => exact le_refl _
    case lt => exact hnext
    case heap =>
      intro o ho
      show Function.update dm₁.heap dm.next _ o = dm.heap o
      rw [Function.update_of_ne ho.ne, hheap o ho]
    case getData =>
      intro i t
      rw [getData_setData]
      split
      · rfl
      · rename_i hpair
        by_cases hi : i = iid
        · subst hi
          have ht : t ≠ tid := fun ht => hpair ⟨rfl, ht⟩
          show dm₁.datamap i t = dm.getData i t
          rw [hnone t, hbefore.datamap, Function.update_self, Function.update_of_ne ht]
        · exact hother i t hi
    case old => exact hnone tid
    case entered =>
      obtain ⟨td, htd, hentry⟩ := hbefore.entered
      refine ⟨td, htd, hentry, fun t o ho => ?_⟩
      rw [hnone t] at ho
      cases ho
    case tables => exact hbefore.tables
    case handlers =>
      show (Function.update dm₁.heap dm.next _ dm.next).handlers < next ∧
        (Function.update dm₁.heap dm.next _ dm.next).buffer < next
      rw [Function.update_self]
      exact ⟨hhandlers, hbuffer⟩
    case own => exact fun i t o ho ht => absurd (halone t (h.added i t o ho).2) ht
    case same =>
      intro i o ho
      show _ = (Function.update dm₁.heap dm.next _ dm.next).handlers ∧
        _ = (Function.update dm₁.heap dm.next _ dm.next).buffer
      rw [Function.update_self]
      exact hsame i o ho
  refine h.added_pair hadded ?_ ?_ ?_ ?_ ?_ htid
  · intro i
    show i ∈ dm₁.allimages ↔ _
    rw [hbefore.allimages, mem_insertKey]
  · intro t
    show t ∈ dm₁.allthreads ↔ _
    rw [hbefore.allthreads, mem_insertKey]
  · intro i hi t ht
    have hi' : i ∈ insertKey iid dm.allimages := hbefore.allimages ▸ hi
    have ht' : t ∈ [tid] := hthreads ▸ ht
    obtain rfl := List.mem_singleton.mp ht'
    rcases mem_insertKey.mp hi' with rfl | hold
    · exact .inl ⟨rfl, rfl⟩
    · exact .inr ⟨hold, hhere i hold⟩
  · show dm₁.firstimage ≠ 0 ∧ dm₁.firstimage ∈ dm₁.allimages
    have hfirstKept := h.firstimage
    rw [hbefore.firstimage, hbefore.allimages]
    split
    · exact ⟨hiid, mem_insertKey.mpr (.inl rfl)⟩
    · rename_i hzero
      rw [if_neg hzero] at hfirstKept
      exact ⟨hzero, mem_insertKey.mpr (.inr hfirstKept)⟩
  · show dm₁.allthreads.Nodup
    rw [hthreads]
    exact List.nodup_singleton tid

end Pebil.DataManager

namespace Pebil.DataOp

open DataManager

variable {dm dm' : DataManager} {op : DataOp}

theorem kept_apply (h : dm.Kept) (hvalid : op.Valid) (hin : op.InOrder dm)
    (happly : op.apply dm = some dm') : dm'.Kept := by
  cases op with
  | addImage iid tid => exact h.addImage hin hvalid.1 hvalid.2 happly
  | addThread tid => exact h.addThread hin hvalid happly

theorem kept_run {ops : List DataOp} (h : dm.Kept) (hvalid : ∀ op ∈ ops, op.Valid)
    (hin : AllInOrder dm ops) (hrun : run dm ops = some dm') : dm'.Kept := by
  induction ops generalizing dm with
  | nil =>
    obtain rfl := Option.some.inj hrun
    exact h
  | cons op ops ih =>
    unfold run at hrun
    rw [List.foldlM_cons] at hrun
    obtain ⟨dm₁, happly, hrest⟩ := Option.bind_eq_some_iff.mp hrun
    exact ih (kept_apply h (hvalid op List.mem_cons_self) hin.1 happly)
      (fun op' hop' => hvalid op' (List.mem_cons_of_mem op hop')) (hin.2 dm₁ happly) hrest

/-- After any number of additions in order every image and thread have their own object, their
table entry, and a buffer and handlers that belong to the thread. -/
theorem owned_run (creator : Nat) (ops : List DataOp) (dm : DataManager)
    (hvalid : ∀ op ∈ ops, op.Valid) (hin : AllInOrder (create creator) ops)
    (hrun : run (create creator) ops = some dm) : dm.Owned :=
  (kept_run (kept_create creator) hvalid hin hrun).owned

/-- An image, and then a second thread. -/
theorem owned_run_twoThreads :
    ∃ dm, run (create 4096) [.addImage 1 4096, .addThread 8192] = some dm ∧ dm.Owned := by
  refine ⟨_, rfl, owned_run 4096 [.addImage 1 4096, .addThread 8192] _ ?_ ?_ rfl⟩
  · simp [Valid]
  · refine ⟨fun t ht => absurd ht List.not_mem_nil, fun dm' h' => ⟨?_, fun _ _ => trivial⟩⟩
    obtain rfl := Option.some.inj h'
    exact Nat.le_refl 1

/-- A second image that is loaded when there are two threads has one object for both. -/
theorem not_owned_secondImage :
    ¬ ∀ (creator : Nat) (ops : List DataOp) (dm : DataManager), (∀ op ∈ ops, op.Valid) →
      run (create creator) ops = some dm → dm.Owned := by
  intro h
  have howned := h 4096 [.addImage 1 4096, .addThread 8192, .addImage 2 4096] _
    (by simp [Valid]) rfl
  have hpair := howned.distinct 2 4096 2 8192 _ rfl rfl
  exact absurd hpair.2 (by decide)

end Pebil.DataOp

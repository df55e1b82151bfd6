import Mathlib.Tactic.ByContra
import Mathlib.Tactic.Tauto
import Pebil.Runtime.CounterReport
import Pebil.Runtime.DataManagerCorrect

/-!
# Counters of their own

What there is for an image and a thread is right if its counters hold the thread's executions of
the image and the image's table leads to them (`Holds`), and no two share their counters
(`Pairs`). A new thread adds such data for every image, and an image that the only thread loads
adds it for that thread.
-/

namespace Pebil

namespace CounterReport

open CounterData

variable {images : Nat → Image} {dm dm' : CounterData} {executed : Executions}
  {loaded : Nat → Option Nat} {iid tid d k : Nat}

/-! ## The counters of a thread -/

section Counters

variable {image : Image} {e : CounterEntry} {f : Nat → Int}

/-- The counters of an image after executions of its entries. -/
def countsOf (image : Image) (f : Nat → Int) : List (BitVec 64) :=
  image.entries.zipIdx.map fun e =>
    if e.1.type = .instruction then BitVec.ofNat 64 (image.leader e.2) else BitVec.ofInt 64 (f e.2)

theorem getElem?_countsOf (he : image.entries[k]? = some e) : (countsOf image f)[k]? =
    some (if e.type = .instruction then BitVec.ofNat 64 (image.leader k)
      else BitVec.ofInt 64 (f k)) := by
  simp [countsOf, he]

theorem length_countsOf : (countsOf image f).length = image.entries.length := by
  simp [countsOf]

theorem counters_eq (image : Image) : image.counters = countsOf image fun _ => 0 := by
  refine List.ext_getElem? fun k => ?_
  cases he : image.entries[k]? with
  | none =>
    have hk : image.entries.length ≤ k := List.getElem?_eq_none_iff.mp he
    rw [List.getElem?_eq_none (by rw [image.length_eq]; exact hk),
      List.getElem?_eq_none (by rw [length_countsOf]; exact hk)]
  | some e =>
    have hleads := image.leads k e he
    rw [getElem?_countsOf he]
    split at hleads
    · rename_i htype
      rw [hleads.1, if_pos htype]
    · rename_i htype
      rw [hleads.1, if_neg htype]
      rfl

theorem clearCounts_countsOf :
    clearCounts image.entries (countsOf image f) = countsOf image fun _ => 0 := by
  refine List.ext_getElem? fun k => ?_
  rw [clearCounts, List.getElem?_zipWith]
  cases he : image.entries[k]? with
  | none =>
    have hk : image.entries.length ≤ k := List.getElem?_eq_none_iff.mp he
    exact (List.getElem?_eq_none (by rw [length_countsOf]; exact hk)).symm
  | some e =>
    rw [getElem?_countsOf he, getElem?_countsOf he]
    by_cases htype : e.type = .instruction <;> simp [htype]

theorem ofInt_add_step (n : Int) (add : Bool) :
    (if add then BitVec.ofInt 64 n + 1 else BitVec.ofInt 64 n - 1) =
      BitVec.ofInt 64 (n + if add then 1 else -1) := by
  rw [BitVec.ofInt_add]
  cases add with
  | false => exact BitVec.sub_eq_add_neg _ _
  | true => rfl

/-- Counting for an entry. -/
theorem set_countsOf (he : image.entries[k]? = some e) (hne : e.type ≠ .instruction) (n : Int) :
    (countsOf image f).set k (BitVec.ofInt 64 n) = countsOf image (Function.update f k n) := by
  refine List.ext_getElem? fun j => ?_
  rw [List.getElem?_set]
  have hk : k < image.entries.length := (List.getElem?_eq_some_iff.mp he).1
  split
  · rename_i hkj
    subst hkj
    rw [if_pos (by rwa [length_countsOf]), getElem?_countsOf he, if_neg hne,
      Function.update_self]
  · rename_i hkj
    cases he' : image.entries[j]? with
    | none =>
      have hj : image.entries.length ≤ j := List.getElem?_eq_none_iff.mp he'
      rw [List.getElem?_eq_none (by rw [length_countsOf]; exact hj),
        List.getElem?_eq_none (by rw [length_countsOf]; exact hj)]
    | some e' =>
      rw [getElem?_countsOf he', getElem?_countsOf he', Function.update_of_ne (Ne.symm hkj)]

end Counters

/-! ## The invariant -/

/-- The object of an image and a thread: its counters hold the thread's executions, and the
table leads to them. -/
structure Holds (images : Nat → Image) (executed : Executions) (loaded : Nat → Option Nat)
    (dm : CounterData) (i t d : Nat) : Prop where
  entries : (dm.heap d).entries = (images i).entries
  master : (dm.heap d).master = ((images i).master && decide (loaded i = some t))
  counts : dm.memory (dm.heap d).counters = countsOf (images i) (executed i t)
  entered : ∃ td, dm.threaddata i = some td ∧ td (hashThread t) = ⟨t, (dm.heap d).counters⟩

/-- What there is for images and threads is right, and apart. -/
structure Pairs (images : Nat → Image) (executed : Executions) (loaded : Nat → Option Nat)
    (dm : CounterData) : Prop where
  holds : ∀ i t d, dm.datamap i t = some d → Holds images executed loaded dm i t d
  below : ∀ i t d, dm.datamap i t = some d →
    d < dm.next ∧ 0 < (dm.heap d).counters ∧ (dm.heap d).counters < dm.next
  apart : ∀ i t d i' t' d', dm.datamap i t = some d → dm.datamap i' t' = some d' →
    (dm.heap d).counters = (dm.heap d').counters → i = i' ∧ t = t'

/-- The data with one more object, behind those there are, for an image and a thread. -/
structure Added (images : Nat → Image) (loaded : Nat → Option Nat) (dm : CounterData)
    (iid tid : Nat) (dm' : CounterData) : Prop where
  next : dm'.next = dm.next + 2
  datamap : ∀ i t, dm'.datamap i t = if i = iid ∧ t = tid then some dm.next else dm.datamap i t
  entries : (dm'.heap dm.next).entries = (images iid).entries
  master : (dm'.heap dm.next).master = ((images iid).master && decide (loaded iid = some tid))
  counters : (dm'.heap dm.next).counters = dm.next + 1
  heap : ∀ o < dm.next, (dm'.heap o).entries = (dm.heap o).entries ∧
    (dm'.heap o).master = (dm.heap o).master ∧ (dm'.heap o).counters = (dm.heap o).counters
  memory : dm'.memory =
    Function.update dm.memory (dm.next + 1) (countsOf (images iid) fun _ => 0)
  entered : ∃ td, dm'.threaddata iid = some td ∧ td (hashThread tid) = ⟨tid, dm.next + 1⟩ ∧
    ∀ t o, dm.datamap iid t = some o → td (hashThread t) = ⟨t, (dm.heap o).counters⟩
  tables : ∀ i ≠ iid, dm'.threaddata i = dm.threaddata i

/-- One more object keeps the others right. -/
theorem Pairs.add (h : Pairs images executed loaded dm)
    (hadd : Added images loaded dm iid tid dm')
    (hnew : ∀ k, executed iid tid k = 0) : Pairs images executed loaded dm' := by
  have hold : ∀ i t o, dm.datamap i t = some o → (dm'.heap o).counters = (dm.heap o).counters :=
    fun i t o ho => (hadd.heap o (h.below i t o ho).1).2.2
  -- an object is the new one or one of the others
  have hcases : ∀ i t d, dm'.datamap i t = some d →
      (i = iid ∧ t = tid ∧ d = dm.next) ∨ dm.datamap i t = some d := by
    intro i t d hd
    rw [hadd.datamap] at hd
    split at hd
    · rename_i hit
      exact .inl ⟨hit.1, hit.2, (Option.some.inj hd).symm⟩
    · exact .inr hd
  refine ⟨fun i t d hd => ?_, fun i t d hd => ?_, fun i t d i' t' d' hd hd' heq => ?_⟩
  · rcases hcases i t d hd with ⟨rfl, rfl, rfl⟩ | hd
    · obtain ⟨td, htd, hentry, -⟩ := hadd.entered
      refine ⟨hadd.entries, hadd.master, ?_, td, htd, by rw [hadd.counters]; exact hentry⟩
      rw [hadd.counters, hadd.memory, Function.update_self]
      exact congrArg _ (funext fun k => (hnew k).symm)
    · obtain ⟨hentries, hmaster, hcounts, td, htd, hentry⟩ := h.holds i t d hd
      obtain ⟨hlt, -, hclt⟩ := h.below i t d hd
      obtain ⟨heq, heq', heq''⟩ := hadd.heap d hlt
      refine ⟨heq.trans hentries, heq'.trans hmaster, ?_, ?_⟩
      · rw [heq'', hadd.memory, Function.update_of_ne (by omega), hcounts]
      · rw [heq'']
        rcases eq_or_ne i iid with rfl | hne
        · obtain ⟨td', htd', -, hentries'⟩ := hadd.entered
          exact ⟨td', htd', hentries' t d hd⟩
        · exact ⟨td, (hadd.tables i hne).trans htd, hentry⟩
  · rw [hadd.next]
    rcases hcases i t d hd with ⟨rfl, rfl, rfl⟩ | hd
    · rw [hadd.counters]
      omega
    · rw [hold i t d hd]
      have hbelow := h.below i t d hd
      omega
  · rcases hcases i t d hd with ⟨rfl, rfl, rfl⟩ | hd <;>
      rcases hcases i' t' d' hd' with ⟨rfl, rfl, rfl⟩ | hd'
    · exact ⟨rfl, rfl⟩
    · rw [hadd.counters, hold i' t' d' hd'] at heq
      have hbelow := h.below i' t' d' hd'
      omega
    · rw [hadd.counters, hold i t d hd] at heq
      have hbelow := h.below i t d hd
      omega
    · rw [hold i t d hd, hold i' t' d' hd'] at heq
      exact h.apart i t d i' t' d' hd hd' heq

/-! ## A thread is added -/

theorem setThreadData_eq_some {ref : Nat} (h : dm.setThreadData iid tid = some (ref, dm')) :
    ∃ d td, dm.datamap iid tid = some d ∧ dm.threaddata iid = some td ∧
      ref = (dm.heap d).counters ∧ (td (hashThread tid)).id = 0 ∧
      dm' = { dm with
        threaddata := Function.update dm.threaddata iid
          (some (Function.update td (hashThread tid) ⟨tid, ref⟩)) } := by
  unfold setThreadData at h
  obtain ⟨td, htd, h⟩ := Option.bind_eq_some_iff.mp h
  obtain ⟨d, hd, h⟩ := Option.bind_eq_some_iff.mp h
  obtain ⟨actual, hactual, h⟩ := Option.bind_eq_some_iff.mp h
  split at h
  · rename_i heq
    obtain ⟨rfl, rfl⟩ := Prod.mk.inj (Option.some.inj h)
    subst heq
    exact ⟨d, td, hd, htd, rfl, DataManager.id_freeSlot hactual, rfl⟩
  · cases h

/-- The keys and their numbers are the same, and so are the images with a table. -/
structure SameKeys (dm dm' : CounterData) : Prop where
  allthreads : dm'.allthreads = dm.allthreads
  allimages : dm'.allimages = dm.allimages
  threadseq : dm'.threadseq = dm.threadseq
  imageseq : dm'.imageseq = dm.imageseq
  tables : ∀ i, (dm'.threaddata i).isSome = (dm.threaddata i).isSome

theorem SameKeys.trans {dm'' : CounterData} (h : SameKeys dm dm') (h' : SameKeys dm' dm'') :
    SameKeys dm dm'' :=
  ⟨h'.1.trans h.1, h'.2.trans h.2, h'.3.trans h.3, h'.4.trans h.4, fun i =>
    (h'.5 i).trans (h.5 i)⟩

/-- For an image a thread adds an object that has counted nothing. -/
theorem Pairs.addThreadTo (h : Pairs images executed loaded dm) (htid : tid ≠ 0)
    (hnew : ∀ t d, dm.datamap iid t = some d → t ≠ 0) (hloaded : loaded iid ≠ some tid)
    (hadd : CounterData.addThreadTo tid dm iid = some dm') :
    Added images loaded dm iid tid dm' ∧ SameKeys dm dm' := by
  unfold CounterData.addThreadTo at hadd
  split at hadd
  · cases hadd
  rename_i hnone
  have hnone : dm.datamap iid tid = none := by simpa using hnone
  split at hadd
  · cases hadd
  rename_i t rest _
  obtain ⟨s, hs, hadd⟩ := Option.bind_eq_some_iff.mp hadd
  obtain ⟨⟨ref, dm₁⟩, hset, hadd⟩ := Option.bind_eq_some_iff.mp hadd
  obtain rfl := Option.some.inj hadd
  obtain ⟨d, td, hd, htd, rfl, hfree, rfl⟩ := setThreadData_eq_some hset
  have hd : d = dm.next := by
    simpa [CounterData.setData, CounterData.generateCounterArray, eq_comm] using hd
  subst hd
  obtain ⟨hentries, -, hcounts, td', htd', -⟩ := h.holds iid t s hs
  have hslt := (h.below iid t s hs).1
  have htd : dm.threaddata iid = some td := htd
  refine ⟨⟨rfl, fun i t' => ?_, ?_, ?_, ?_, fun o ho => ?_, ?_, ?_, fun i hi => ?_⟩, rfl, rfl, rfl,
    rfl, fun i => ?_⟩
  · simp only [CounterData.setData]
    by_cases hi : i = iid
    · subst hi
      by_cases ht : t' = tid
      · subst ht
        simp
      · simp [ht]
    · simp [hi]
  · simp [CounterData.setData, hentries]
  · simp [CounterData.setData, hloaded]
  · simp [CounterData.setData]
  · have hne : o ≠ dm.next := Nat.ne_of_lt ho
    simp only [CounterData.setData, Function.update_of_ne hne]
    rcases eq_or_ne o s with rfl | hos
    · simp
    · simp [hos]
  · simp [CounterData.setData, hentries, hcounts,
      clearCounts_countsOf]
  · refine ⟨_, Function.update_self .., ?_, fun t' o ho => ?_⟩
    · simp [CounterData.setData]
    · obtain ⟨td'', htd'', hentry⟩ := (h.holds iid t' o ho).entered
      obtain rfl := Option.some.inj (htd''.symm.trans htd)
      -- the slot of another thread is taken
      have hslot : hashThread t' ≠ hashThread tid := fun heq => by
        rw [← heq, hentry] at hfree
        exact hnew t' o ho hfree
      rw [Function.update_of_ne hslot, hentry]
  · exact Function.update_of_ne hi ..
  · rcases eq_or_ne i iid with rfl | hi
    · simp [htd]
    · simp [CounterData.setData, hi]

/-- A thread adds an object for every image. -/
theorem Pairs.addThreadTo_all {is : List Nat} (h : Pairs images executed loaded dm)
    (hnodup : is.Nodup) (htid : tid ≠ 0) (hnone : ∀ i ∈ is, dm.datamap i tid = none)
    (hnew : ∀ i t d, dm.datamap i t = some d → t ≠ 0) (hloaded : ∀ i, loaded i ≠ some tid)
    (hexecuted : ∀ i k, executed i tid k = 0)
    (hadd : is.foldlM (CounterData.addThreadTo tid) dm = some dm') :
    Pairs images executed loaded dm' ∧ SameKeys dm dm' ∧
      ∀ i t, (dm'.datamap i t).isSome = ((dm.datamap i t).isSome || decide (i ∈ is ∧ t = tid)) := by
  induction is generalizing dm with
  | nil =>
    obtain rfl := Option.some.inj hadd
    exact ⟨h, ⟨rfl, rfl, rfl, rfl, fun _ => rfl⟩, by simp⟩
  | cons i is ih =>
    rw [List.foldlM_cons] at hadd
    obtain ⟨dm₁, hfirst, hrest⟩ := Option.bind_eq_some_iff.mp hadd
    obtain ⟨hi, hnodup⟩ := List.nodup_cons.mp hnodup
    obtain ⟨hadded, hkeys⟩ := h.addThreadTo htid (hnew i) (hloaded i) hfirst
    obtain ⟨hpairs, hkeys', hsome⟩ := ih (h.add hadded (hexecuted i)) hnodup
      (fun j hj => by
        rw [hadded.datamap, if_neg (by rintro ⟨rfl, -⟩; exact hi hj)]
        exact hnone j (List.mem_cons_of_mem i hj))
      (fun j t d hd => by
        rw [hadded.datamap] at hd
        split at hd
        · rename_i hjt
          exact hjt.2 ▸ htid
        · exact hnew j t d hd) hrest
    refine ⟨hpairs, hkeys.trans hkeys', fun j t => ?_⟩
    rw [hsome, hadded.datamap]
    by_cases hj : j = i ∧ t = tid
    · simp [hj]
    · rw [if_neg hj]
      congr 1
      rw [decide_eq_decide, List.mem_cons]
      tauto

/-! ## An image is added -/

/-- All that differs is what the objects say they belong to. -/
structure Relabelled (dm dm' : CounterData) : Prop extends SameKeys dm dm' where
  heap : ∀ o, (dm'.heap o).entries = (dm.heap o).entries ∧
    (dm'.heap o).master = (dm.heap o).master ∧ (dm'.heap o).counters = (dm.heap o).counters
  memory : dm'.memory = dm.memory
  next : dm'.next = dm.next
  datamap : dm'.datamap = dm.datamap
  threaddata : dm'.threaddata = dm.threaddata

theorem Relabelled.trans {dm'' : CounterData} (h : Relabelled dm dm') (h' : Relabelled dm' dm'') :
    Relabelled dm dm'' where
  toSameKeys := h.toSameKeys.trans h'.toSameKeys
  heap o := ⟨(h'.heap o).1.trans (h.heap o).1, (h'.heap o).2.1.trans (h.heap o).2.1,
    (h'.heap o).2.2.trans (h.heap o).2.2⟩
  memory := h'.memory.trans h.memory
  next := h'.next.trans h.next
  datamap := h'.datamap.trans h.datamap
  threaddata := h'.threaddata.trans h.threaddata

theorem Added.relabelled {dm₁ : CounterData} (h : Added images loaded dm iid tid dm₁)
    (h' : Relabelled dm₁ dm') : Added images loaded dm iid tid dm' where
  next := h'.next.trans h.next
  datamap i t := by rw [h'.datamap, h.datamap]
  entries := (h'.heap _).1.trans h.entries
  master := (h'.heap _).2.1.trans h.master
  counters := (h'.heap _).2.2.trans h.counters
  heap o ho := ⟨(h'.heap o).1.trans (h.heap o ho).1, (h'.heap o).2.1.trans (h.heap o ho).2.1,
    (h'.heap o).2.2.trans (h.heap o ho).2.2⟩
  memory := h'.memory.trans h.memory
  entered := by rw [h'.threaddata]; exact h.entered
  tables i hi := by rw [h'.threaddata]; exact h.tables i hi

theorem relabelled_setHeap (dm : CounterData) (o t i : Nat) : Relabelled dm { dm with
    heap := Function.update dm.heap o { dm.heap o with threadid := t, imageid := i } } where
  toSameKeys := ⟨rfl, rfl, rfl, rfl, fun _ => rfl⟩
  heap o' := by
    rcases eq_or_ne o' o with rfl | hne
    · simp
    · simp [hne]
  memory := rfl
  next := rfl
  datamap := rfl
  threaddata := rfl

theorem relabelled_setFirstimage (dm : CounterData) (iid : Nat) :
    Relabelled dm (dm.setFirstimage iid) := by
  unfold setFirstimage
  split <;> exact ⟨⟨rfl, rfl, rfl, rfl, fun _ => rfl⟩, fun _ => ⟨rfl, rfl, rfl⟩, rfl, rfl, rfl, rfl⟩

/-- The image's object is the thread's already. -/
theorem relabelled_addImageFor (h : dm.datamap iid tid = some d) :
    Relabelled dm (addImageFor d iid dm tid) := by
  refine (relabelled_setHeap dm d tid iid).trans ?_
  refine ⟨⟨rfl, rfl, rfl, rfl, fun _ => rfl⟩, fun _ => ⟨rfl, rfl, rfl⟩, rfl, rfl, ?_, rfl⟩
  show Function.update dm.datamap iid (Function.update (dm.datamap iid) tid (some d)) = dm.datamap
  rw [← h, Function.update_eq_self, Function.update_eq_self]

theorem fillThreadData_eq (h : dm.allthreads.length = 1) {ref : Nat} :
    dm.fillThreadData iid ref = { dm with
      threaddata := Function.update dm.threaddata iid
        ((dm.threaddata iid).map fun td i => { td i with data := ref }) } :=
  if_pos h

/-- The image, its only thread and the table before the loop of `AddImage`. -/
theorem added_insertImage (hnew : ∀ t, dm.datamap iid t = none)
    (halone : insertKey tid dm.allthreads = [tid]) (hloaded : loaded iid = some tid)
    {ref : Nat}
    (h : (dm.insertImage (images iid) iid tid).setThreadData iid tid = some (ref, dm')) :
    Added images loaded dm iid tid (dm'.fillThreadData iid ref) ∧
      (dm'.fillThreadData iid ref).allthreads = [tid] ∧
      (dm'.fillThreadData iid ref).allimages = insertKey iid dm.allimages ∧
      (dm'.fillThreadData iid ref).threadseq = dm.threadseq ∧
      (dm'.fillThreadData iid ref).imageseq =
        Function.update dm.imageseq iid (some dm.currentimageseq) := by
  obtain ⟨d, td, hd, htd, rfl, -, rfl⟩ := setThreadData_eq_some h
  obtain rfl : d = dm.next := by simpa [insertImage, eq_comm] using hd
  obtain rfl : td = fun _ => ⟨0, 0⟩ := by simpa [insertImage, eq_comm] using htd
  have hlength : (insertKey tid dm.allthreads).length = 1 := by rw [halone]; rfl
  rw [fillThreadData_eq (by exact hlength)]
  refine ⟨⟨rfl, fun i t => ?_, ?_, ?_, ?_, fun o ho => ?_, ?_, ?_, fun i hi => ?_⟩, halone, rfl,
    rfl, rfl⟩
  · simp only [insertImage]
    by_cases hi : i = iid
    · subst hi
      by_cases ht : t = tid
      · subst ht
        simp
      · simp [ht, hnew]
    · simp [hi]
  · simp [insertImage]
  · simp [insertImage, hloaded]
  · simp [insertImage]
  · simp [insertImage, Nat.ne_of_lt ho]
  · simp [insertImage, counters_eq]
  · -- the thread's entry is the one at its hash, and its data are in all
    refine ⟨fun k => ⟨(Function.update (fun _ => (⟨0, 0⟩ : ThreadData)) (hashThread tid)
      ⟨tid, dm.next + 1⟩ k).id, dm.next + 1⟩, ?_, ?_, fun t o ho => ?_⟩
    · simp [insertImage]
    · simp
    · rw [hnew] at ho
      cases ho
  · simp [insertImage, hi]

/-- `tool_image_init` of an image that was not loaded, by the only thread. -/
theorem added_of_addImage (hold : iid ∉ dm.allimages) (hnew : ∀ t, dm.datamap iid t = none)
    (halone : insertKey tid dm.allthreads = [tid]) (hloaded : loaded iid = some tid)
    (h : dm.addImage (images iid) iid tid = some dm') :
    Added images loaded dm iid tid dm' ∧ dm'.allthreads = [tid] ∧
      dm'.allimages = insertKey iid dm.allimages ∧ dm'.threadseq = dm.threadseq ∧
      dm'.imageseq = Function.update dm.imageseq iid (some dm.currentimageseq) := by
  rw [addImage, if_neg hold] at h
  obtain ⟨⟨ref, dm₁⟩, hset, h⟩ := Option.bind_eq_some_iff.mp h
  obtain ⟨hadded, hthreads, himages, hthreadseq, himageseq⟩ :=
    added_insertImage hnew halone hloaded hset
  have hfirst := relabelled_setFirstimage (dm₁.fillThreadData iid ref) iid
  have hdata : ((dm₁.fillThreadData iid ref).setFirstimage iid).datamap iid tid =
      some dm.next := by
    rw [hfirst.datamap, hadded.datamap, if_pos ⟨rfl, rfl⟩]
  have hsame := hfirst.trans (relabelled_addImageFor hdata)
  have heq : dm' =
      addImageFor dm.next iid ((dm₁.fillThreadData iid ref).setFirstimage iid) tid := by
    rw [← Option.some.inj h, hfirst.allthreads, hthreads]
    rfl
  subst heq
  exact ⟨hadded.relabelled hsame, hsame.allthreads.trans hthreads,
    hsame.allimages.trans himages, hsame.threadseq.trans hthreadseq,
    hsame.imageseq.trans himageseq⟩

end CounterReport

end Pebil

import Pebil.Runtime.DataManagerCorrect

/-!
# The data of a buffer's entries (instcode/InstrumentationCommon.hpp:742–866)

`FastData` keeps for each thread a row with a slot for each entry of its buffer. With one
image the rows are filled when the thread is added; with more, `Refresh` looks the image of
each entry up, once for a stretch of entries of one image. A blank entry, image 0, is passed
over when there are several threads; a single thread should not have one, and `Refresh`
asserts that.

Every addition is made to the `DataManager` and then to the `FastData`, as `tool_image_init`
and `tool_thread_init` do (`Session`).
-/

namespace Pebil

/-- `GetData(tid)`: the data for the first image in the order of the keys. -/
def DataManager.getDataOf (dm : DataManager) (tid : Nat) : Option Nat := do
  let iid ← dm.allimages.head?
  dm.getData iid tid

/-- `FastData<SimulationStats*, BufferEntry*>`. A slot that was never set is `none`. -/
structure FastData where
  threadcount : Nat
  imagecount : Nat
  capacity : Nat
  stats : Nat → Nat → Option Nat

namespace FastData

/-- The constructor, called by thread `tid`. -/
def create (dm : DataManager) (capacity tid : Nat) : Option FastData :=
  if dm.allthreads.length = 1 ∧ dm.allimages.length = 1 ∧ dm.threadseq tid = some 0 then do
    let dat ← dm.getDataOf tid
    some
      { threadcount := 1
        imagecount := 0
        capacity := capacity
        stats := Function.update (fun _ _ => none) 0 fun j =>
          if j < capacity then some dat else none }
  else none

/-- `AddThread`. -/
def addThread (fd : FastData) (dm : DataManager) (tid : Nat) : Option FastData := do
  let tidIndex ← dm.threadseq tid
  let newsize := if fd.threadcount < tidIndex + 1 then tidIndex + 1 else fd.threadcount
  let tmp := fun i => if i < fd.threadcount then fd.stats i else fun _ => none
  if fd.imagecount = 1 then do
    let dat ← dm.getDataOf tid
    some
      { fd with
        threadcount := newsize
        stats := Function.update tmp tidIndex fun j =>
          if j < fd.capacity then some dat else none }
  else some { fd with threadcount := newsize, stats := tmp }

/-- `AddImage`, called by thread `tid`. -/
def addImage (fd : FastData) (dm : DataManager) (tid : Nat) : Option FastData :=
  if fd.imagecount + 1 = 1 then
    if fd.threadcount = 1 ∧ fd.imagecount + 1 = dm.allimages.length ∧
        fd.threadcount = dm.allthreads.length then do
      let dat ← dm.getDataOf tid
      some
        { fd with
          imagecount := fd.imagecount + 1
          stats := Function.update fd.stats 0 fun j =>
            if j < fd.capacity then some dat else none }
    else none
  else some { fd with imagecount := fd.imagecount + 1 }

/-- The loop of `Refresh` over the image ids of the entries from slot `j` on; `ci` and `di` are
the image and the data of the entry looked up last. -/
def refreshFrom (dm : DataManager) (tid : Nat) :
    List Nat → Nat → Nat → Option Nat → (Nat → Option Nat) → Option (Nat → Option Nat)
  | [], _, _, _, row => some row
  | i :: buffer, j, ci, di, row =>
    if i = 0 then
      if 1 < dm.allthreads.length then refreshFrom dm tid buffer (j + 1) ci di row
      -- the assertion on blank entries of a single thread
      else none
    else if i ≠ ci then
      match dm.getData i tid with
      | none => none
      | some d => refreshFrom dm tid buffer (j + 1) i (some d) (Function.update row j (some d))
    else refreshFrom dm tid buffer (j + 1) ci di (Function.update row j di)

/-- `Refresh` for the image ids of the first `num` entries of a buffer. -/
def refresh (fd : FastData) (dm : DataManager) (buffer : List Nat) (tid : Nat) :
    Option FastData :=
  if fd.imagecount = 1 then some fd
  else do
    let threadseq ← dm.threadseq tid
    if threadseq < fd.threadcount then do
      let row ← refreshFrom dm tid buffer 0 0 none (fd.stats threadseq)
      some { fd with stats := Function.update fd.stats threadseq row }
    else none

end FastData

/-- The two managers. -/
structure Session where
  dm : DataManager
  fd : FastData

/-- The calls on a session. -/
inductive SessionOp where
  | addImage (iid tid : Nat)
  | addThread (tid : Nat)
  | refresh (buffer : List Nat) (tid : Nat)
  deriving DecidableEq, Repr

namespace Session

/-- `tool_image_init` of the first image, by thread `tid`. -/
def start (capacity iid tid : Nat) : Option Session := do
  let dm ← (DataManager.create tid).addImage iid tid
  let fd ← FastData.create dm capacity tid
  let fd ← fd.addImage dm tid
  some ⟨dm, fd⟩

def apply (sess : Session) : SessionOp → Option Session
  | .addImage iid tid => do
    let dm ← sess.dm.addImage iid tid
    let fd ← sess.fd.addImage dm tid
    some ⟨dm, fd⟩
  | .addThread tid => do
    let dm ← sess.dm.addThread tid
    let fd ← sess.fd.addThread dm tid
    some ⟨dm, fd⟩
  | .refresh buffer tid => do
    let fd ← sess.fd.refresh sess.dm buffer tid
    some ⟨sess.dm, fd⟩

/-- A session from its first image on. -/
def run (capacity iid tid : Nat) (ops : List SessionOp) : Option Session := do
  let sess ← start capacity iid tid
  ops.foldlM apply sess

end Session

namespace DataManager

variable {dm dm' : DataManager} {iid tid : Nat}

/-! ## What additions do to the data -/

/-- What adding a thread leaves. -/
structure ThreadAdded (dm : DataManager) (tid : Nat) (images : List Nat) (dm' : DataManager) :
    Prop where
  allthreads : dm'.allthreads = dm.allthreads
  allimages : dm'.allimages = dm.allimages
  threadseq : dm'.threadseq = dm.threadseq
  currentthreadseq : dm'.currentthreadseq = dm.currentthreadseq
  firstimage : dm'.firstimage = dm.firstimage
  others : ∀ i t, t ≠ tid → dm'.getData i t = dm.getData i t
  outside : ∀ i, i ∉ images → dm'.getData i tid = dm.getData i tid
  data : ∀ i ∈ images, ∃ d, dm'.getData i tid = some d

theorem foldlM_addThreadTo {images : List Nat}
    (h : images.foldlM (addThreadTo tid) dm = some dm') : ThreadAdded dm tid images dm' := by
  induction images generalizing dm with
  | nil =>
    obtain rfl := Option.some.inj h
    exact ⟨rfl, rfl, rfl, rfl, rfl, fun _ _ _ => rfl, fun _ _ => rfl,
      fun _ hi => absurd hi List.not_mem_nil⟩
  | cons i images ih =>
    rw [List.foldlM_cons] at h
    obtain ⟨dm₁, hround, hrest⟩ := Option.bind_eq_some_iff.mp h
    obtain ⟨hnone, td, -, -, rfl⟩ := addThreadTo_eq_some hround
    have hround := ih hrest
    have hset : ∀ i' t, (dm.setData i tid dm.next).getData i' t =
        if i' = i ∧ t = tid then some dm.next else dm.getData i' t := fun _ _ => getData_setData
    constructor
    case allthreads => exact hround.allthreads
    case allimages => exact hround.allimages
    case threadseq => exact hround.threadseq
    case currentthreadseq => exact hround.currentthreadseq
    case firstimage => exact hround.firstimage
    case others =>
      intro i' t ht
      rw [hround.others i' t ht]
      exact (hset i' t).trans (if_neg fun hpair => ht hpair.2)
    case outside =>
      intro i' hi'
      obtain ⟨hne, hmem⟩ := not_or.mp (mt List.mem_cons.mpr hi')
      rw [hround.outside i' hmem]
      exact (hset i' tid).trans (if_neg fun hpair => hne hpair.1)
    case data =>
      intro i' hi'
      by_cases hmem : i' ∈ images
      · exact hround.data i' hmem
      · obtain rfl := (List.mem_cons.mp hi').resolve_right hmem
        refine ⟨dm.next, ?_⟩
        rw [hround.outside i' hmem]
        exact (hset i' tid).trans (if_pos ⟨rfl, rfl⟩)

theorem addThread_eq_some (h : dm.addThread tid = some dm') :
    (tid ∉ dm.allthreads ∧ dm.threadseq tid = none) ∧ ∃ dm₁, ThreadAdded { dm with
        threadseq := Function.update dm.threadseq tid (some dm.currentthreadseq)
        currentthreadseq := dm.currentthreadseq + 1 } tid dm.allimages dm₁ ∧
      dm' = { dm₁ with allthreads := insertKey tid dm₁.allthreads } := by
  unfold addThread at h
  split at h
  · cases h
  · rename_i hguard
    obtain ⟨hnew, hseq, -⟩ : tid ∉ dm.allthreads ∧ ¬(dm.threadseq tid).isSome = true ∧
        dm.firstimage ≠ 0 := by
      simpa only [not_or] using hguard
    obtain ⟨dm₁, hround, hresult⟩ := Option.bind_eq_some_iff.mp h
    exact ⟨⟨hnew, by simpa using hseq⟩, dm₁, foldlM_addThreadTo hround,
      (Option.some.inj hresult).symm⟩

/-- Making data changes the memory only. -/
theorem generateCacheStats_datamap {s firstimage d : Nat} {typ : DataType}
    (h : dm.generateCacheStats s typ iid tid firstimage = some (d, dm')) :
    dm'.datamap = dm.datamap ∧ dm'.threadseq = dm.threadseq ∧ dm'.allthreads = dm.allthreads ∧
      dm'.allimages = dm.allimages ∧ dm'.firstimage = dm.firstimage ∧
      dm'.currentthreadseq = dm.currentthreadseq := by
  cases typ with
  | threadType =>
    rw [generateCacheStats_thread] at h
    obtain ⟨-, rfl⟩ := Prod.mk.inj (Option.some.inj h)
    exact ⟨rfl, rfl, rfl, rfl, rfl, rfl⟩
  | imageType =>
    by_cases hfirst : iid = firstimage
    · subst hfirst
      rw [generateCacheStats_firstimage] at h
      obtain ⟨-, rfl⟩ := Prod.mk.inj (Option.some.inj h)
      exact ⟨rfl, rfl, rfl, rfl, rfl, rfl⟩
    · obtain ⟨fs, -, heq⟩ := generateCacheStats_image_eq_some hfirst h
      obtain ⟨-, rfl⟩ := Prod.mk.inj heq
      exact ⟨rfl, rfl, rfl, rfl, rfl, rfl⟩

/-- What the loop of `AddImage` over the threads leaves. -/
structure ImageAdded (dm : DataManager) (iid : Nat) (threads : List Nat) (dm' : DataManager) :
    Prop where
  allthreads : dm'.allthreads = dm.allthreads
  allimages : dm'.allimages = dm.allimages
  threadseq : dm'.threadseq = dm.threadseq
  currentthreadseq : dm'.currentthreadseq = dm.currentthreadseq
  firstimage : dm'.firstimage = dm.firstimage
  others : ∀ i t, i ≠ iid → dm'.getData i t = dm.getData i t
  outside : ∀ t, t ∉ threads → dm'.getData iid t = dm.getData iid t
  data : ∀ t ∈ threads, ∃ d, dm'.getData iid t = some d
  source : iid ≠ dm.firstimage → ∀ t ∈ threads, ∃ fs, dm.getData dm.firstimage t = some fs

theorem foldlM_addImageFor {data : Nat} {threads : List Nat}
    (h : threads.foldlM (addImageFor data iid) dm = some dm') : ImageAdded dm iid threads dm' := by
  induction threads generalizing dm with
  | nil =>
    obtain rfl := Option.some.inj h
    exact ⟨rfl, rfl, rfl, rfl, rfl, fun _ _ _ => rfl, fun _ _ => rfl,
      fun _ ht => absurd ht List.not_mem_nil, fun _ _ ht => absurd ht List.not_mem_nil⟩
  | cons t threads ih =>
    rw [List.foldlM_cons] at h
    obtain ⟨dm₁, hround, hrest⟩ := Option.bind_eq_some_iff.mp h
    obtain ⟨⟨d, dm₂⟩, hgen, hset⟩ := Option.bind_eq_some_iff.mp hround
    obtain rfl := Option.some.inj hset
    obtain ⟨hdatamap, hseq, hthreads, himages, hfirst, hcurrent⟩ := generateCacheStats_datamap hgen
    have hround := ih hrest
    have hget : ∀ i t', (dm₂.setData iid t d).getData i t' =
        if i = iid ∧ t' = t then some d else dm.getData i t' := by
      intro i t'
      rw [getData_setData]
      unfold getData
      rw [hdatamap]
    constructor
    case allthreads => exact hround.allthreads.trans hthreads
    case allimages => exact hround.allimages.trans himages
    case threadseq => exact hround.threadseq.trans hseq
    case currentthreadseq => exact hround.currentthreadseq.trans hcurrent
    case firstimage => exact hround.firstimage.trans hfirst
    case others =>
      intro i t' hi
      rw [hround.others i t' hi, hget, if_neg fun hpair => hi hpair.1]
    case outside =>
      intro t' ht'
      obtain ⟨hne, hmem⟩ := not_or.mp (mt List.mem_cons.mpr ht')
      rw [hround.outside t' hmem, hget, if_neg fun hpair => hne hpair.2]
    case data =>
      intro t' ht'
      by_cases hmem : t' ∈ threads
      · exact hround.data t' hmem
      · obtain rfl := (List.mem_cons.mp ht').resolve_right hmem
        exact ⟨d, by rw [hround.outside t' hmem, hget, if_pos ⟨rfl, rfl⟩]⟩
    case source =>
      intro hne t' ht'
      by_cases hmem : t' ∈ threads
      · have hfirst' : (dm₂.setData iid t d).firstimage = dm.firstimage := hfirst
        obtain ⟨fs, hfs⟩ := hround.source (hfirst' ▸ hne) t' hmem
        rw [hfirst', hget, if_neg fun hpair => hne hpair.1.symm] at hfs
        exact ⟨fs, hfs⟩
      · obtain rfl := (List.mem_cons.mp ht').resolve_right hmem
        obtain ⟨fs, hfs, -⟩ := generateCacheStats_image_eq_some hne hgen
        exact ⟨fs, hfs⟩

theorem length_insertKey {k : Nat} {keys : List Nat} (h : k ∉ keys) :
    (insertKey k keys).length = keys.length + 1 := by
  rw [insertKey, if_neg h]
  exact List.orderedInsert_length ..

end DataManager

namespace FastData

/-- `AddThread` makes room for the row of the thread's number, filled while there is one
image. -/
theorem addThread_eq_some (dm : DataManager) {tid : Nat} {fd fd' : FastData} {q : Nat}
    (hq : dm.threadseq tid = some q)
    (h : fd.addThread dm tid = some fd') :
    fd'.imagecount = fd.imagecount ∧ fd'.capacity = fd.capacity ∧
      fd.threadcount ≤ fd'.threadcount ∧ q < fd'.threadcount ∧
      (∀ q' < fd.threadcount, q' ≠ q → fd'.stats q' = fd.stats q') ∧
      (fd.imagecount = 1 → ∃ dat, dm.getDataOf tid = some dat ∧
        ∀ j < fd.capacity, fd'.stats q j = some dat) := by
  unfold addThread at h
  rw [hq] at h
  have hsize : fd.threadcount ≤ (if fd.threadcount < q + 1 then q + 1 else fd.threadcount) ∧
      q < if fd.threadcount < q + 1 then q + 1 else fd.threadcount := by
    split <;> omega
  simp only [Option.bind_eq_bind, Option.bind_some] at h
  split at h
  · obtain ⟨dat, hdat, hresult⟩ := Option.bind_eq_some_iff.mp h
    obtain rfl := Option.some.inj hresult
    refine ⟨rfl, rfl, hsize.1, hsize.2, fun q' hq' hne => ?_, fun _ => ⟨dat, hdat, fun j hj => ?_⟩⟩
    · simp only [Function.update_of_ne hne, if_pos hq']
    · simp only [Function.update_self, if_pos hj]
  · rename_i hmany
    obtain rfl := Option.some.inj h
    refine ⟨rfl, rfl, hsize.1, hsize.2, fun q' hq' _ => ?_, fun hone => absurd hone hmany⟩
    simp only [if_pos hq']

end FastData

namespace Session

open DataManager

variable {sess sess' : Session} {dm : DataManager} {iid tid : Nat}

/-! ## The invariant -/

/-- The pairs of the images and threads all have data, the threads have a row each, and as
long as there is one image the rows hold its data. -/
structure Aligned (sess : Session) : Prop where
  data : ∀ i ∈ sess.dm.allimages, ∀ t ∈ sess.dm.allthreads, ∃ d, sess.dm.getData i t = some d
  added : ∀ i t d, sess.dm.getData i t = some d → t ∈ sess.dm.allthreads
  images : sess.fd.imagecount = sess.dm.allimages.length
  images_pos : 0 < sess.fd.imagecount
  firstimage : sess.dm.firstimage ≠ 0 ∧ sess.dm.firstimage ∈ sess.dm.allimages
  sequence : ∀ t ∈ sess.dm.allthreads, ∃ q, sess.dm.threadseq t = some q
  row : ∀ t q, sess.dm.threadseq t = some q →
    q < sess.fd.threadcount ∧ q < sess.dm.currentthreadseq ∧ t ∈ sess.dm.allthreads
  sequence_inj : ∀ t t' q, sess.dm.threadseq t = some q → sess.dm.threadseq t' = some q → t = t'
  filled : sess.fd.imagecount = 1 → ∀ i ∈ sess.dm.allimages, ∀ t q,
    sess.dm.threadseq t = some q → ∀ j < sess.fd.capacity,
      sess.fd.stats q j = sess.dm.getData i t

/-- With one image, the data of a thread are those for that image. -/
theorem getDataOf_of_one {i : Nat} (h : dm.allimages = [i]) (tid : Nat) :
    dm.getDataOf tid = dm.getData i tid := by
  simp [getDataOf, h]

/-- Adding a thread gives it a row, filled while there is one image. -/
theorem Aligned.addThread (h : sess.Aligned)
    (hadd : sess.apply (.addThread tid) = some sess') : sess'.Aligned := by
  obtain ⟨dm', hdm, hadd⟩ := Option.bind_eq_some_iff.mp hadd
  obtain ⟨fd', hfd, hadd⟩ := Option.bind_eq_some_iff.mp hadd
  obtain rfl := Option.some.inj hadd
  obtain ⟨⟨hnew, hnoseq⟩, dm₁, hround, rfl⟩ := addThread_eq_some hdm
  have hseq : dm₁.threadseq = Function.update sess.dm.threadseq tid
      (some sess.dm.currentthreadseq) := hround.threadseq
  have hcurrent : dm₁.currentthreadseq = sess.dm.currentthreadseq + 1 := hround.currentthreadseq
  have himages : dm₁.allimages = sess.dm.allimages := hround.allimages
  have hthreads : ∀ t, t ∈ insertKey tid dm₁.allthreads ↔ t = tid ∨ t ∈ sess.dm.allthreads := by
    intro t
    rw [mem_insertKey, hround.allthreads]
  have hothers : ∀ i t, t ≠ tid → dm₁.getData i t = sess.dm.getData i t := hround.others
  have hseqtid : dm₁.threadseq tid = some sess.dm.currentthreadseq := by
    rw [hseq, Function.update_self]
  have hseqof : ∀ t q, dm₁.threadseq t = some q →
      (t = tid ∧ q = sess.dm.currentthreadseq) ∨ (t ≠ tid ∧ sess.dm.threadseq t = some q) := by
    intro t q hq
    rw [hseq] at hq
    by_cases ht : t = tid
    · subst ht
      rw [Function.update_self] at hq
      exact .inl ⟨rfl, (Option.some.inj hq).symm⟩
    · rw [Function.update_of_ne ht] at hq
      exact .inr ⟨ht, hq⟩
  obtain ⟨hcount, hcapacity, hgrow, hroom, hrows, hfill⟩ :=
    FastData.addThread_eq_some { dm₁ with allthreads := insertKey tid dm₁.allthreads }
      hseqtid hfd
  constructor
  case data =>
    intro i hi t ht
    replace hi : i ∈ sess.dm.allimages := himages ▸ hi
    show ∃ d, dm₁.getData i t = some d
    by_cases heq : t = tid
    · subst heq
      exact hround.data i hi
    · rw [hothers i t heq]
      exact h.data i hi t (((hthreads t).mp ht).resolve_left heq)
  case added =>
    intro i t d hd
    refine (hthreads t).mpr ?_
    by_cases heq : t = tid
    · exact .inl heq
    · replace hd : dm₁.getData i t = some d := hd
      rw [hothers i t heq] at hd
      exact .inr (h.added i t d hd)
  case images =>
    show fd'.imagecount = dm₁.allimages.length
    rw [hcount, himages]
    exact h.images
  case images_pos =>
    show 0 < fd'.imagecount
    rw [hcount]
    exact h.images_pos
  case firstimage =>
    show dm₁.firstimage ≠ 0 ∧ dm₁.firstimage ∈ dm₁.allimages
    rw [himages, hround.firstimage]
    exact h.firstimage
  case sequence =>
    intro t ht
    by_cases heq : t = tid
    · exact ⟨_, heq ▸ hseqtid⟩
    · obtain ⟨q, hq⟩ := h.sequence t (((hthreads t).mp ht).resolve_left heq)
      refine ⟨q, ?_⟩
      show dm₁.threadseq t = some q
      rw [hseq, Function.update_of_ne heq, hq]
  case row =>
    intro t q hq
    show q < fd'.threadcount ∧ q < dm₁.currentthreadseq ∧ _
    rw [hcurrent]
    rcases hseqof t q hq with ⟨rfl, rfl⟩ | ⟨-, hold⟩
    · exact ⟨hroom, Nat.lt_succ_self _, (hthreads _).mpr (.inl rfl)⟩
    · obtain ⟨hlt, hlow, hmem⟩ := h.row t q hold
      exact ⟨hlt.trans_le hgrow, Nat.lt_succ_of_lt hlow, (hthreads t).mpr (.inr hmem)⟩
  case sequence_inj =>
    intro t t' q hq hq'
    rcases hseqof t q hq with ⟨rfl, rfl⟩ | ⟨-, hold⟩
    · rcases hseqof t' _ hq' with ⟨rfl, -⟩ | ⟨-, hold'⟩
      · rfl
      · exact absurd (h.row t' _ hold').2.1 (lt_irrefl _)
    · rcases hseqof t' q hq' with ⟨rfl, rfl⟩ | ⟨-, hold'⟩
      · exact absurd (h.row t _ hold).2.1 (lt_irrefl _)
      · exact h.sequence_inj t t' q hold hold'
  case filled =>
    intro hone i hi t q hq j hj
    replace hone : sess.fd.imagecount = 1 := hcount ▸ hone
    replace hj : j < sess.fd.capacity := hcapacity ▸ hj
    replace hi : i ∈ sess.dm.allimages := himages ▸ hi
    show fd'.stats q j = dm₁.getData i t
    rcases hseqof t q hq with ⟨rfl, rfl⟩ | ⟨hne, hold⟩
    · obtain ⟨dat, hdat, hrow⟩ := hfill hone
      obtain ⟨i', himage⟩ := List.length_eq_one_iff.mp (h.images.symm.trans hone)
      obtain rfl : i = i' := by simpa [himage] using hi
      rw [hrow j hj, ← hdat]
      exact getDataOf_of_one (himages.trans himage) t
    · have hq' := (h.row t q hold).1
      have hneq : q ≠ sess.dm.currentthreadseq := ((h.row t q hold).2.1).ne
      rw [hrows q hq' hneq, hothers i t hne]
      exact h.filled hone i hi t q hold j hj

/-- Adding an image: from the second one on the rows are left to `Refresh`. -/
theorem Aligned.addImage (h : sess.Aligned)
    (hadd : sess.apply (.addImage iid tid) = some sess') : sess'.Aligned := by
  obtain ⟨dm', hdm, hadd⟩ := Option.bind_eq_some_iff.mp hadd
  obtain ⟨fd', hfd, hadd⟩ := Option.bind_eq_some_iff.mp hadd
  obtain rfl := Option.some.inj hadd
  obtain ⟨hnew, dm₁, hbefore, hloop⟩ := addImage_eq_some hdm
  have hround := foldlM_addImageFor hloop
  have hcount := h.images_pos
  obtain rfl : fd' = { sess.fd with imagecount := sess.fd.imagecount + 1 } := by
    unfold FastData.addImage at hfd
    rw [if_neg (by omega)] at hfd
    exact (Option.some.inj hfd).symm
  have hfirst : dm₁.firstimage = sess.dm.firstimage := by
    rw [hbefore.firstimage, if_neg h.firstimage.1]
  have hne : iid ≠ sess.dm.firstimage := fun heq => hnew (heq ▸ h.firstimage.2)
  have hother : ∀ i t, i ≠ iid → dm₁.getData i t = sess.dm.getData i t := by
    intro i t hi
    unfold getData
    rw [hbefore.datamap, Function.update_of_ne hi]
  -- the calling thread has data for the first image, so it was added before
  have htid : tid ∈ sess.dm.allthreads := by
    have hmem : tid ∈ dm₁.allthreads := by
      rw [hbefore.allthreads]
      exact mem_insertKey.mpr (.inl rfl)
    obtain ⟨fs, hfs⟩ := hround.source (hfirst ▸ hne) tid hmem
    rw [hfirst, hother _ _ hne.symm] at hfs
    exact h.added _ _ _ hfs
  have hthreads : ∀ t, t ∈ dm'.allthreads ↔ t ∈ sess.dm.allthreads := by
    intro t
    rw [hround.allthreads, hbefore.allthreads, mem_insertKey]
    exact ⟨fun ht => ht.elim (fun heq => heq ▸ htid) id, .inr⟩
  have himages : ∀ i, i ∈ dm'.allimages ↔ i = iid ∨ i ∈ sess.dm.allimages := by
    intro i
    rw [hround.allimages, hbefore.allimages, mem_insertKey]
  have hseq : dm'.threadseq = sess.dm.threadseq := hround.threadseq.trans hbefore.threadseq
  have hcurrent : dm'.currentthreadseq = sess.dm.currentthreadseq :=
    hround.currentthreadseq.trans hbefore.currentthreadseq
  constructor
  case data =>
    intro i hi t ht
    by_cases heq : i = iid
    · subst heq
      refine hround.data t ?_
      rw [← hround.allthreads]
      exact ht
    · show ∃ d, dm'.getData i t = some d
      rw [hround.others i t heq, hother i t heq]
      exact h.data i (((himages i).mp hi).resolve_left heq) t ((hthreads t).mp ht)
  case added =>
    intro i t d hd
    refine (hthreads t).mpr ?_
    replace hd : dm'.getData i t = some d := hd
    by_cases heq : i = iid
    · subst heq
      by_cases hmem : t ∈ dm₁.allthreads
      · exact (hthreads t).mp (hround.allthreads ▸ hmem)
      · have ht : t ≠ tid := fun ht => hmem (by
          rw [hbefore.allthreads, ht]
          exact mem_insertKey.mpr (.inl rfl))
        rw [hround.outside t hmem] at hd
        unfold getData at hd
        rw [hbefore.datamap, Function.update_self, Function.update_of_ne ht] at hd
        cases hd
    · rw [hround.others i t heq, hother i t heq] at hd
      exact h.added i t d hd
  case images =>
    show sess.fd.imagecount + 1 = dm'.allimages.length
    rw [hround.allimages, hbefore.allimages, length_insertKey hnew, h.images]
  case images_pos => exact Nat.succ_pos _
  case firstimage =>
    show dm'.firstimage ≠ 0 ∧ dm'.firstimage ∈ dm'.allimages
    rw [hround.firstimage, hfirst, himages]
    exact ⟨h.firstimage.1, .inr h.firstimage.2⟩
  case sequence =>
    intro t ht
    show ∃ q, dm'.threadseq t = some q
    rw [hseq]
    exact h.sequence t ((hthreads t).mp ht)
  case row =>
    intro t q hq
    replace hq : dm'.threadseq t = some q := hq
    rw [hseq] at hq
    obtain ⟨hlt, hlow, hmem⟩ := h.row t q hq
    exact ⟨hlt, hcurrent ▸ hlow, (hthreads t).mpr hmem⟩
  case sequence_inj =>
    intro t t' q hq hq'
    replace hq : dm'.threadseq t = some q := hq
    replace hq' : dm'.threadseq t' = some q := hq'
    rw [hseq] at hq hq'
    exact h.sequence_inj t t' q hq hq'
  case filled =>
    intro hone
    have : sess.fd.imagecount + 1 = 1 := hone
    omega

/-! ## Refreshing -/

section Refresh

variable {buffer : List Nat} {j ci : Nat} {di : Option Nat} {row row' : Nat → Option Nat}

/-- The loop of `Refresh` sets the slots of the entries that are not blank to the data of
their images, and no slot before them. -/
theorem refreshFrom_spec (hci : ci ≠ 0 → di = dm.getData ci tid)
    (h : FastData.refreshFrom dm tid buffer j ci di row = some row') :
    (∀ k < j, row' k = row k) ∧
      ∀ k i, buffer[k]? = some i → i ≠ 0 → row' (j + k) = dm.getData i tid := by
  induction buffer generalizing j ci di row with
  | nil =>
    obtain rfl := Option.some.inj h
    exact ⟨fun _ _ => rfl, fun k i hk => by simp at hk⟩
  | cons i buffer ih =>
    -- what the rest of the loop leaves, given the value of this slot if it is not blank
    have hrest : ∀ (row₁ : Nat → Option Nat), (∀ k < j, row₁ k = row k) →
        (i ≠ 0 → row₁ j = dm.getData i tid) →
        ((∀ k < j + 1, row' k = row₁ k) ∧
          ∀ k i', buffer[k]? = some i' → i' ≠ 0 → row' (j + 1 + k) = dm.getData i' tid) →
        (∀ k < j, row' k = row k) ∧
          ∀ k i', (i :: buffer)[k]? = some i' → i' ≠ 0 → row' (j + k) = dm.getData i' tid := by
      rintro row₁ hbefore hslot ⟨hsame, hset⟩
      refine ⟨fun k hk => (hsame k (by omega)).trans (hbefore k hk), fun k i' hk hi' => ?_⟩
      cases k with
      | zero =>
        obtain rfl : i = i' := by simpa using hk
        exact (hsame j (Nat.lt_succ_self j)).trans (hslot hi')
      | succ k =>
        rw [show j + (k + 1) = j + 1 + k by omega]
        exact hset k i' (by simpa using hk) hi'
    unfold FastData.refreshFrom at h
    split at h
    · rename_i hblank
      split at h
      · exact hrest row (fun _ _ => rfl) (fun hi => absurd hblank hi) (ih hci h)
      · cases h
    · rename_i hi
      split at h
      · split at h
        · cases h
        · rename_i d hd
          refine hrest _ (fun k hk => Function.update_of_ne hk.ne ..) (fun _ => ?_)
            (ih (fun _ => hd.symm) h)
          rw [Function.update_self, hd]
      · rename_i heq
        obtain rfl : i = ci := not_not.mp heq
        refine hrest _ (fun k hk => Function.update_of_ne hk.ne ..) (fun _ => ?_) (ih hci h)
        rw [Function.update_self]
        exact hci hi

/-- The loop ends for the images that are there, unless a single thread has a blank entry. -/
theorem refreshFrom_eq_none_iff (hdata : ∀ i ∈ buffer, i = 0 ∨ ∃ d, dm.getData i tid = some d) :
    FastData.refreshFrom dm tid buffer j ci di row = none ↔
      dm.allthreads.length ≤ 1 ∧ 0 ∈ buffer := by
  induction buffer generalizing j ci di row with
  | nil => simp [FastData.refreshFrom]
  | cons i buffer ih =>
    have hrest : ∀ i' ∈ buffer, i' = 0 ∨ ∃ d, dm.getData i' tid = some d :=
      fun i' hi' => hdata i' (List.mem_cons_of_mem i hi')
    unfold FastData.refreshFrom
    by_cases hblank : i = 0
    · rw [if_pos hblank]
      by_cases hmany : 1 < dm.allthreads.length
      · rw [if_pos hmany, ih hrest]
        constructor
        · exact fun h => absurd h.1 (by omega)
        · exact fun h => absurd h.1 (by omega)
      · rw [if_neg hmany]
        exact ⟨fun _ => ⟨by omega, by simp [hblank]⟩, fun _ => rfl⟩
    · obtain ⟨d, hd⟩ := (hdata i List.mem_cons_self).resolve_left hblank
      have hmem : 0 ∈ i :: buffer ↔ 0 ∈ buffer := by simp [Ne.symm hblank]
      rw [if_neg hblank, hmem]
      split
      · simp only [hd]
        exact ih hrest
      · exact ih hrest

end Refresh

/-- A refresh writes the row of its thread only, when there are several images. -/
theorem Aligned.refresh {buffer : List Nat} (h : sess.Aligned)
    (hrefresh : sess.apply (.refresh buffer tid) = some sess') : sess'.Aligned := by
  obtain ⟨fd', hfd, hadd⟩ := Option.bind_eq_some_iff.mp hrefresh
  obtain rfl := Option.some.inj hadd
  unfold FastData.refresh at hfd
  split at hfd
  · obtain rfl := Option.some.inj hfd
    exact h
  · rename_i hmany
    obtain ⟨q, -, hfd⟩ := Option.bind_eq_some_iff.mp hfd
    split at hfd
    · obtain ⟨row, -, hfd⟩ := Option.bind_eq_some_iff.mp hfd
      obtain rfl := Option.some.inj hfd
      exact ⟨h.data, h.added, h.images, h.images_pos, h.firstimage, h.sequence, h.row,
        h.sequence_inj, fun hone => absurd hone hmany⟩
    · cases hfd

/-- The first image: one thread, one row, filled. -/
theorem aligned_start {capacity : Nat} (hiid : iid ≠ 0)
    (h : start capacity iid tid = some sess) : sess.Aligned := by
  obtain ⟨dm, hdm, h⟩ := Option.bind_eq_some_iff.mp h
  obtain ⟨fd₀, hcreate, h⟩ := Option.bind_eq_some_iff.mp h
  obtain ⟨fd, hadd, h⟩ := Option.bind_eq_some_iff.mp h
  obtain rfl := Option.some.inj h
  obtain ⟨-, dm₁, hbefore, hloop⟩ := addImage_eq_some hdm
  have hround := foldlM_addImageFor hloop
  have hthreads : dm.allthreads = [tid] := hround.allthreads.trans hbefore.allthreads
  have himages : dm.allimages = [iid] := hround.allimages.trans hbefore.allimages
  have hseq : dm.threadseq = Function.update (fun _ => none) tid (some 0) :=
    hround.threadseq.trans hbefore.threadseq
  have hcurrent : dm.currentthreadseq = 1 :=
    hround.currentthreadseq.trans hbefore.currentthreadseq
  have hfirst : dm.firstimage = iid := hround.firstimage.trans hbefore.firstimage
  have hseqof : ∀ t q, dm.threadseq t = some q → t = tid ∧ q = 0 := by
    intro t q hq
    rw [hseq] at hq
    by_cases ht : t = tid
    · rw [ht, Function.update_self] at hq
      exact ⟨ht, (Option.some.inj hq).symm⟩
    · rw [Function.update_of_ne ht] at hq
      cases hq
  -- the constructor and the first `AddImage` fill the row of the thread
  obtain ⟨hcount, hone, hfilled⟩ : fd.threadcount = 1 ∧ fd.imagecount = 1 ∧
      ∀ j < fd.capacity, fd.stats 0 j = dm.getDataOf tid := by
    unfold FastData.create at hcreate
    split at hcreate
    · obtain ⟨dat₀, -, hcreate⟩ := Option.bind_eq_some_iff.mp hcreate
      obtain rfl := Option.some.inj hcreate
      unfold FastData.addImage at hadd
      rw [if_pos rfl] at hadd
      split at hadd
      · obtain ⟨dat, hdat, hadd⟩ := Option.bind_eq_some_iff.mp hadd
        obtain rfl := Option.some.inj hadd
        refine ⟨rfl, rfl, fun j hj => ?_⟩
        simp only [Function.update_self, if_pos hj, hdat]
      · cases hadd
    · cases hcreate
  constructor
  case data =>
    intro i hi t ht
    replace hi : i ∈ [iid] := himages ▸ hi
    obtain rfl := List.mem_singleton.mp hi
    refine hround.data t ?_
    rw [← hround.allthreads]
    exact ht
  case added =>
    intro i t d hd
    show t ∈ dm.allthreads
    by_contra hmem
    have hout : t ∉ dm₁.allthreads := hround.allthreads ▸ hmem
    have ht : t ≠ tid := fun ht => hmem (by rw [hthreads, ht]; exact List.mem_singleton_self tid)
    replace hd : dm.getData i t = some d := hd
    have hbase : dm₁.getData i t = some d := by
      by_cases hi : i = iid
      · rw [hi] at hd ⊢
        exact (hround.outside t hout).symm.trans hd
      · exact (hround.others i t hi).symm.trans hd
    unfold getData at hbase
    rw [hbefore.datamap] at hbase
    by_cases hi : i = iid
    · rw [hi, Function.update_self, Function.update_of_ne ht] at hbase
      cases hbase
    · rw [Function.update_of_ne hi] at hbase
      cases hbase
  case images =>
    show fd.imagecount = dm.allimages.length
    rw [hone, himages]
    rfl
  case images_pos => exact hone ▸ Nat.one_pos
  case firstimage =>
    show dm.firstimage ≠ 0 ∧ dm.firstimage ∈ dm.allimages
    rw [hfirst, himages]
    exact ⟨hiid, List.mem_singleton_self iid⟩
  case sequence =>
    intro t ht
    replace ht : t ∈ [tid] := hthreads ▸ ht
    refine ⟨0, ?_⟩
    show dm.threadseq t = some 0
    rw [hseq, List.mem_singleton.mp ht, Function.update_self]
  case row =>
    intro t q hq
    obtain ⟨rfl, rfl⟩ := hseqof t q hq
    show 0 < fd.threadcount ∧ 0 < dm.currentthreadseq ∧ t ∈ dm.allthreads
    rw [hcount, hcurrent, hthreads]
    exact ⟨Nat.one_pos, Nat.one_pos, List.mem_singleton_self t⟩
  case sequence_inj =>
    intro t t' q hq hq'
    exact (hseqof t q hq).1.trans (hseqof t' q hq').1.symm
  case filled =>
    intro _ i hi t q hq j hj
    obtain ⟨rfl, rfl⟩ := hseqof t q hq
    replace hi : i ∈ [iid] := himages ▸ hi
    obtain rfl := List.mem_singleton.mp hi
    rw [hfilled j hj]
    exact getDataOf_of_one himages t

/-! ## Runs -/

theorem Aligned.foldlM {ops : List SessionOp} (h : sess.Aligned)
    (hrun : ops.foldlM apply sess = some sess') : sess'.Aligned := by
  induction ops generalizing sess with
  | nil =>
    obtain rfl := Option.some.inj hrun
    exact h
  | cons op ops ih =>
    rw [List.foldlM_cons] at hrun
    obtain ⟨sess₁, hop, hrest⟩ := Option.bind_eq_some_iff.mp hrun
    refine ih ?_ hrest
    cases op with
    | addImage iid tid => exact h.addImage hop
    | addThread tid => exact h.addThread hop
    | refresh buffer tid => exact h.refresh hop

theorem aligned_run {capacity : Nat} {ops : List SessionOp} (hiid : iid ≠ 0)
    (h : run capacity iid tid ops = some sess) : sess.Aligned := by
  obtain ⟨sess₀, hstart, hrest⟩ := Option.bind_eq_some_iff.mp h
  exact (aligned_start hiid hstart).foldlM hrest

/-- `GetBufferStats`: the slot of entry `j` in the row of a thread. -/
def slot (fd : FastData) (dm : DataManager) (tid j : Nat) : Option Nat := do
  let q ← dm.threadseq tid
  fd.stats q j

/-- After any additions and refreshes, `Refresh` gives up exactly when there are several images
and one thread and the buffer has a blank entry; otherwise every entry that is not blank gets
the data that the `DataManager` has for its image and the thread. -/
theorem refresh_slots (capacity iid tid₀ : Nat) (ops : List SessionOp) (sess : Session)
    (hiid : iid ≠ 0) (hrun : run capacity iid tid₀ ops = some sess) (buffer : List Nat)
    (tid : Nat) (htid : tid ∈ sess.dm.allthreads) (hlen : buffer.length ≤ sess.fd.capacity)
    (himages : ∀ i ∈ buffer, i = 0 ∨ i ∈ sess.dm.allimages) :
    (sess.fd.refresh sess.dm buffer tid = none ↔
      1 < sess.dm.allimages.length ∧ sess.dm.allthreads.length ≤ 1 ∧ 0 ∈ buffer) ∧
    ∀ fd', sess.fd.refresh sess.dm buffer tid = some fd' →
      ∀ j i, buffer[j]? = some i → i ≠ 0 →
        ∃ d, sess.dm.getData i tid = some d ∧ slot fd' sess.dm tid j = some d := by
  have h := aligned_run hiid hrun
  obtain ⟨q, hq⟩ := h.sequence tid htid
  have hdata : ∀ i ∈ buffer, i ≠ 0 → ∃ d, sess.dm.getData i tid = some d := fun i hi hne =>
    h.data i ((himages i hi).resolve_left hne) tid htid
  have hpos := h.images_pos
  have hcount := h.images
  by_cases hone : sess.fd.imagecount = 1
  · -- the rows were filled when the threads were added
    have hrefresh : sess.fd.refresh sess.dm buffer tid = some sess.fd := by
      unfold FastData.refresh
      rw [if_pos hone]
    rw [hrefresh]
    constructor
    · constructor
      · intro hnone
        cases hnone
      · rintro ⟨hmany, -⟩
        omega
    · intro fd' hfd j i hj hi
      obtain rfl := Option.some.inj hfd
      have hmem : i ∈ buffer := List.mem_of_getElem? hj
      obtain ⟨d, hd⟩ := hdata i hmem hi
      have hlt : j < buffer.length := (List.getElem?_eq_some_iff.mp hj).1
      refine ⟨d, hd, ?_⟩
      unfold slot
      rw [hq, ← hd]
      exact h.filled hone i ((himages i hmem).resolve_left hi) tid q hq j (hlt.trans_le hlen)
  · have hrefresh : sess.fd.refresh sess.dm buffer tid =
        (FastData.refreshFrom sess.dm tid buffer 0 0 none (sess.fd.stats q)).map fun row =>
          { sess.fd with stats := Function.update sess.fd.stats q row } := by
      unfold FastData.refresh
      simp only [if_neg hone, hq, Option.bind_eq_bind, Option.bind_some, if_pos (h.row tid q hq).1]
      cases FastData.refreshFrom sess.dm tid buffer 0 0 none (sess.fd.stats q) <;> rfl
    rw [hrefresh]
    constructor
    · rw [Option.map_eq_none_iff, refreshFrom_eq_none_iff fun i hi => ?_]
      · constructor
        · rintro ⟨hfew, hblank⟩
          exact ⟨by omega, hfew, hblank⟩
        · exact fun hall => hall.2
      · rcases eq_or_ne i 0 with hzero | hne
        · exact .inl hzero
        · exact .inr (hdata i hi hne)
    · intro fd' hfd j i hj hi
      obtain ⟨row, hrow, rfl⟩ := Option.map_eq_some_iff.mp hfd
      obtain ⟨-, hset⟩ := refreshFrom_spec (fun hzero => absurd rfl hzero) hrow
      obtain ⟨d, hd⟩ := hdata i (List.mem_of_getElem? hj) hi
      refine ⟨d, hd, ?_⟩
      have hslot := hset j i hj hi
      rw [Nat.zero_add, hd] at hslot
      unfold slot
      rw [hq]
      show Function.update sess.fd.stats q row q j = some d
      rw [Function.update_self]
      exact hslot

/-- Two images and two threads: the entries of a buffer with a blank one get their data. -/
theorem refresh_slots_twoImages :
    ∃ sess, run 4 1 4096 [.addThread 8192, .addImage 2 4096] = some sess ∧
      (sess.fd.refresh sess.dm [1, 0, 2] 8192 = none ↔
        1 < sess.dm.allimages.length ∧ sess.dm.allthreads.length ≤ 1 ∧ 0 ∈ [1, 0, 2]) ∧
      ∀ fd', sess.fd.refresh sess.dm [1, 0, 2] 8192 = some fd' →
        ∀ j i, [1, 0, 2][j]? = some i → i ≠ 0 →
          ∃ d, sess.dm.getData i 8192 = some d ∧ slot fd' sess.dm 8192 j = some d :=
  ⟨_, rfl, refresh_slots 4 1 4096 [.addThread 8192, .addImage 2 4096] _ (by decide) rfl [1, 0, 2]
    8192 (by decide) (by decide) (by decide)⟩

/-- Two images and one thread: `Refresh` gives up at a blank entry. -/
theorem refresh_blank :
    ¬ ∀ (capacity iid tid₀ : Nat) (ops : List SessionOp) (sess : Session), iid ≠ 0 →
      run capacity iid tid₀ ops = some sess → ∀ (buffer : List Nat) (tid : Nat),
        tid ∈ sess.dm.allthreads → buffer.length ≤ sess.fd.capacity →
        (∀ i ∈ buffer, i = 0 ∨ i ∈ sess.dm.allimages) →
          ∃ fd', sess.fd.refresh sess.dm buffer tid = some fd' ∧
            ∀ j i, buffer[j]? = some i → i ≠ 0 →
              slot fd' sess.dm tid j = sess.dm.getData i tid := by
  intro h
  obtain ⟨fd', hfd, -⟩ := h 4 1 4096 [.addImage 2 4096] _ (by decide) rfl [1, 0] 4096
    (by decide) (by decide) (by decide)
  cases hfd

end Session

end Pebil

import Pebil.Lib.Rounds
import Pebil.Runtime.CounterArrays

/-!
# The sums that are printed

As long as images come before a second thread, every image and thread have counters of their own,
which hold the thread's executions (`Kept`). The report adds them up, so that all that it can get
wrong is what 32 bits do not hold, and that the executable ends in another thread than the one
that loaded it.
-/

namespace Pebil

namespace CounterReport

open CounterData

variable {images : Nat → Image} {dm dm' : CounterData} {executed : Executions}
  {loaded : Nat → Option Nat} {iid tid d k : Nat}

/-! ## Runs -/

/-- What operations in order keep: images and threads have their objects, and nothing else was
loaded or executed. -/
structure Kept (images : Nat → Image) (executed : Executions) (loaded : Nat → Option Nat)
    (dm : CounterData) : Prop where
  pairs : Pairs images executed loaded dm
  data : ∀ i ∈ dm.allimages, ∀ t ∈ dm.allthreads, ∃ d, dm.datamap i t = some d
  added : ∀ i t d, dm.datamap i t = some d → i ∈ dm.allimages ∧ t ∈ dm.allthreads
  tables : ∀ i td, dm.threaddata i = some td → i ∈ dm.allimages
  images_nodup : dm.allimages.Nodup
  threads_nodup : dm.allthreads.Nodup
  threads_ne_zero : ∀ t ∈ dm.allthreads, t ≠ 0
  threadseq : ∀ t ∈ dm.allthreads, ∃ n, dm.threadseq t = some n
  imageseq : ∀ i ∈ dm.allimages, ∃ n, dm.imageseq i = some n
  executed_mem : ∀ i t k, executed i t k ≠ 0 → i ∈ dm.allimages ∧ t ∈ dm.allthreads
  loader_mem : ∀ i t, loaded i = some t → t ∈ dm.allthreads
  loaded_iff : ∀ i, i ∈ dm.allimages ↔ (loaded i).isSome = true

/-- Before the first image there is nothing. -/
def KeptState (images : Nat → Image) (executed : Executions) (loaded : Nat → Option Nat) :
    Option CounterData → Prop
  | none => (∀ i t k, executed i t k = 0) ∧ ∀ i, loaded i = none
  | some dm => dm.allthreads ≠ [] ∧ Kept images executed loaded dm

/-- The data of the only thread, or of the one that creates them. -/
theorem KeptState.single {allData : Option CounterData}
    (h : KeptState images executed loaded allData)
    (halone : ∀ dm, allData = some dm → ∀ t ∈ dm.allthreads, t = tid) :
    Kept images executed loaded (allData.getD (create tid)) ∧
      (∀ t ∈ (allData.getD (create tid)).allthreads, t = tid) ∧
      ∃ n, (allData.getD (create tid)).threadseq tid = some n := by
  cases allData with
  | none =>
    obtain ⟨hexecuted, hloaded⟩ := h
    refine ⟨?_, fun t ht => absurd ht List.not_mem_nil, 0, by simp [create]⟩
    refine ⟨⟨nofun, nofun, nofun⟩, nofun, nofun, nofun, List.nodup_nil, List.nodup_nil, nofun,
      nofun, nofun, fun i t k hk => absurd (hexecuted i t k) hk, fun i t hi => ?_, fun i => ?_⟩
    · rw [hloaded] at hi
      cases hi
    · rw [hloaded]
      exact ⟨nofun, nofun⟩
  | some dm =>
    obtain ⟨hne, hkept⟩ := h
    have halone := halone dm rfl
    refine ⟨hkept, halone, ?_⟩
    obtain ⟨t, ht⟩ := List.exists_mem_of_ne_nil _ hne
    exact halone t ht ▸ hkept.threadseq t ht

/-- Where an image is loaded plays no part for the others. -/
theorem Pairs.of_loaded {loaded' : Nat → Option Nat} (h : Pairs images executed loaded dm)
    (heq : ∀ i t d, dm.datamap i t = some d → loaded' i = loaded i) :
    Pairs images executed loaded' dm :=
  ⟨fun i t d hd =>
    have hold := h.holds i t d hd
    ⟨hold.entries, by rw [heq i t d hd]; exact hold.master, hold.counts, hold.entered⟩,
    h.below, h.apart⟩

/-- The loaders after an operation that loads an image. -/
def withLoader (loaded : Nat → Option Nat) (iid tid : Nat) : Nat → Option Nat := fun i =>
  (loaded i).or (if i = iid then some tid else none)

/-- The only thread loads an image. -/
theorem Kept.addImage (h : Kept images executed loaded dm) (hold : iid ∉ dm.allimages)
    (halone : ∀ t ∈ dm.allthreads, t = tid) (hseq : ∃ n, dm.threadseq tid = some n)
    (htid : tid ≠ 0) {dm₁ : CounterData} (hadd : dm.addImage (images iid) iid tid = some dm₁)
    (hsame : Relabelled dm₁ dm') :
    dm'.allthreads ≠ [] ∧ Kept images executed (withLoader loaded iid tid) dm' := by
  have hnew : ∀ t, dm.datamap iid t = none := fun t => by
    by_contra hne
    obtain ⟨d, hd⟩ := Option.ne_none_iff_exists'.mp hne
    exact hold (h.added iid t d hd).1
  have hunloaded : loaded iid = none := by
    by_contra hne
    exact hold ((h.loaded_iff iid).mpr (Option.isSome_iff_ne_none.mpr hne))
  have hself : withLoader loaded iid tid iid = some tid := by simp [withLoader, hunloaded]
  have hloaded : ∀ i, i ≠ iid → withLoader loaded iid tid i = loaded i := fun i hi => by
    rw [withLoader, if_neg hi, Option.or_none]
  obtain ⟨hadded, hthreads, himages, hthreadseq, himageseq⟩ := added_of_addImage hold hnew
    (DataManager.insertKey_of_forall_eq h.threads_nodup halone) hself hadd
  have hadded := hadded.relabelled hsame
  have hthreads := hsame.allthreads.trans hthreads
  have himages := hsame.allimages.trans himages
  have hmem : ∀ i, i ∈ dm'.allimages ↔ i = iid ∨ i ∈ dm.allimages := fun i => by
    rw [himages, mem_insertKey]
  have hpairs := h.pairs.of_loaded fun i t d hd =>
    hloaded i fun heq => hold (heq ▸ (h.added i t d hd).1)
  have hexecuted : ∀ i t k, executed i t k ≠ 0 → i ∈ dm.allimages ∧ t = tid := fun i t k hk =>
    ⟨(h.executed_mem i t k hk).1, halone t (h.executed_mem i t k hk).2⟩
  refine ⟨by simp [hthreads], hpairs.add hadded fun k => ?_, ?_, ?_, ?_, ?_, ?_, ?_, ?_, ?_, ?_, ?_,
    ?_⟩
  · by_contra hne
    exact hold (hexecuted iid tid k hne).1
  · intro i hi t ht
    rw [hthreads, List.mem_singleton] at ht
    subst ht
    rw [hadded.datamap]
    rcases (hmem i).mp hi with rfl | hi
    · exact ⟨_, if_pos ⟨rfl, rfl⟩⟩
    · rw [if_neg (by rintro ⟨rfl, -⟩; exact hold hi)]
      obtain ⟨t', ht'⟩ := Option.isSome_iff_exists.mp ((h.loaded_iff i).mp hi)
      have ht' := h.loader_mem i t' ht'
      exact h.data i hi t (halone t' ht' ▸ ht')
  · intro i t d hd
    rw [hadded.datamap] at hd
    rw [hmem, hthreads, List.mem_singleton]
    split at hd
    · rename_i hit
      exact ⟨.inl hit.1, hit.2⟩
    · obtain ⟨hi, ht⟩ := h.added i t d hd
      exact ⟨.inr hi, halone t ht⟩
  · intro i td htd
    rw [hmem]
    rcases eq_or_ne i iid with rfl | hne
    · exact .inl rfl
    · rw [hadded.tables i hne] at htd
      exact .inr (h.tables i td htd)
  · rw [himages]
    exact nodup_insertKey h.images_nodup
  · rw [hthreads]
    exact List.nodup_singleton tid
  · intro t ht
    rw [hthreads, List.mem_singleton] at ht
    exact ht ▸ htid
  · intro t ht
    rw [hthreads, List.mem_singleton] at ht
    rw [hsame.threadseq, hthreadseq, ht]
    exact hseq
  · intro i hi
    rw [hsame.imageseq, himageseq]
    rcases eq_or_ne i iid with rfl | hne
    · exact ⟨_, Function.update_self ..⟩
    · rw [Function.update_of_ne hne]
      exact h.imageseq i (((hmem i).mp hi).resolve_left hne)
  · intro i t k hk
    rw [hmem, hthreads, List.mem_singleton]
    exact ⟨.inr (hexecuted i t k hk).1, (hexecuted i t k hk).2⟩
  · intro i t hi
    rw [hthreads, List.mem_singleton]
    rcases eq_or_ne i iid with rfl | hne
    · exact (Option.some.inj (hself.symm.trans hi)).symm
    · rw [hloaded i hne] at hi
      exact halone t (h.loader_mem i t hi)
  · intro i
    rw [hmem]
    rcases eq_or_ne i iid with rfl | hne
    · simp [hself]
    · rw [hloaded i hne, ← h.loaded_iff]
      simp [hne]

/-- A number for a thread that is none yet. -/
theorem Kept.numberThread (h : Kept images executed loaded dm) (hnew : tid ∉ dm.allthreads)
    (n current : Nat) : Kept images executed loaded { dm with
      threadseq := Function.update dm.threadseq tid (some n)
      currentthreadseq := current } :=
  ⟨⟨fun i t d hd =>
      have hold := h.pairs.holds i t d hd
      ⟨hold.entries, hold.master, hold.counts, hold.entered⟩, h.pairs.below, h.pairs.apart⟩,
    h.data, h.added, h.tables, h.images_nodup, h.threads_nodup, h.threads_ne_zero,
    fun t ht => by
      show ∃ n', Function.update dm.threadseq tid (some n) t = some n'
      rw [Function.update_of_ne (show t ≠ tid from fun heq => hnew (heq ▸ ht))]
      exact h.threadseq t ht,
    h.imageseq, h.executed_mem, h.loader_mem, h.loaded_iff⟩

/-- The loop of `AddThread`, and the thread as the last. -/
theorem Kept.addObjects (h : Kept images executed loaded dm) (htid : tid ≠ 0)
    (hnew : tid ∉ dm.allthreads) (hseq : ∃ n, dm.threadseq tid = some n)
    (hfold : dm.allimages.foldlM (CounterData.addThreadTo tid) dm = some dm') :
    Kept images executed loaded { dm' with allthreads := insertKey tid dm'.allthreads } := by
  obtain ⟨hpairs, hkeys, hsome⟩ := h.pairs.addThreadTo_all h.images_nodup htid
    (fun i _ => by
      by_contra hne
      obtain ⟨d, hd⟩ := Option.ne_none_iff_exists'.mp hne
      exact hnew (h.added i tid d hd).2)
    (fun i t d hd => h.threads_ne_zero t (h.added i t d hd).2)
    (fun i hi => hnew (h.loader_mem i tid hi))
    (fun i k => by
      by_contra hne
      exact hnew (h.executed_mem i tid k hne).2) hfold
  have hthreads : ∀ t, t ∈ insertKey tid dm'.allthreads ↔ t = tid ∨ t ∈ dm.allthreads := fun t => by
    rw [mem_insertKey, hkeys.allthreads]
  have himages : ∀ i, i ∈ dm'.allimages ↔ i ∈ dm.allimages := fun i => by rw [hkeys.allimages]
  refine ⟨⟨fun i t d hd => ?_, hpairs.below, hpairs.apart⟩, fun i hi t ht => ?_,
    fun i t d hd => ?_, fun i td htd => ?_, ?_, ?_, fun t ht => ?_, fun t ht => ?_,
    fun i hi => ?_, fun i t k hk => ?_, fun i t hi => ?_, fun i => ?_⟩
  · have hold := hpairs.holds i t d hd
    exact ⟨hold.entries, hold.master, hold.counts, hold.entered⟩
  · have hi : i ∈ dm.allimages := (himages i).mp hi
    refine Option.isSome_iff_exists.mp ((hsome i t).trans ?_)
    rw [Bool.or_eq_true, decide_eq_true_eq]
    rcases (hthreads t).mp ht with ht | ht
    · exact .inr ⟨hi, ht⟩
    · exact .inl (Option.isSome_iff_exists.mpr (h.data i hi t ht))
  · have hcases := hsome i t
    rw [hd, Option.isSome_some, eq_comm, Bool.or_eq_true, decide_eq_true_eq] at hcases
    rcases hcases with hold | ⟨hi, ht⟩
    · obtain ⟨d', hd'⟩ := Option.isSome_iff_exists.mp hold
      have hmem := h.added i t d' hd'
      exact ⟨(himages i).mpr hmem.1, (hthreads t).mpr (.inr hmem.2)⟩
    · exact ⟨(himages i).mpr hi, (hthreads t).mpr (.inl ht)⟩
  · have htable := hkeys.tables i
    rw [show dm'.threaddata i = some td from htd, Option.isSome_some] at htable
    obtain ⟨td', htd'⟩ := Option.isSome_iff_exists.mp htable.symm
    exact (himages i).mpr (h.tables i td' htd')
  · exact hkeys.allimages ▸ h.images_nodup
  · exact nodup_insertKey (hkeys.allthreads ▸ h.threads_nodup)
  · rcases (hthreads t).mp ht with ht | ht
    · exact ht ▸ htid
    · exact h.threads_ne_zero t ht
  · rw [show dm'.threadseq = dm.threadseq from hkeys.threadseq]
    rcases (hthreads t).mp ht with ht | ht
    · exact ht ▸ hseq
    · exact h.threadseq t ht
  · rw [show dm'.imageseq = dm.imageseq from hkeys.imageseq]
    exact h.imageseq i ((himages i).mp hi)
  · have hmem := h.executed_mem i t k hk
    exact ⟨(himages i).mpr hmem.1, (hthreads t).mpr (.inr hmem.2)⟩
  · exact (hthreads t).mpr (.inr (h.loader_mem i t hi))
  · exact (himages i).trans (h.loaded_iff i)

/-- A thread starts. -/
theorem Kept.addThread (h : Kept images executed loaded dm) (htid : tid ≠ 0)
    (hadd : dm.addThread tid = some dm') :
    dm'.allthreads ≠ [] ∧ Kept images executed loaded dm' := by
  unfold CounterData.addThread at hadd
  split at hadd
  · cases hadd
  rename_i hguard
  have hnew : tid ∉ dm.allthreads := fun hmem => hguard (.inl hmem)
  obtain ⟨dm₁, hfold, hadd⟩ := Option.bind_eq_some_iff.mp hadd
  obtain rfl := Option.some.inj hadd
  refine ⟨List.ne_nil_of_mem (mem_insertKey.mpr (.inl rfl)), ?_⟩
  exact (h.numberThread hnew _ _).addObjects htid hnew ⟨_, Function.update_self ..⟩ hfold

/-- An entry is counted in the counters of its image and thread. -/
theorem Kept.count {add : Bool} {e : CounterEntry} (h : Kept images executed loaded dm)
    (he : (images iid).entries[k]? = some e) (hne : e.type ≠ .instruction)
    (htid : tid ∈ dm.allthreads) (hcount : dm.count iid tid k add = some dm') :
    dm'.allthreads ≠ [] ∧ Kept images (fun i t k' => executed i t k' +
      (Operation.count iid tid k add).executions i t k') loaded dm' := by
  unfold CounterData.count at hcount
  obtain ⟨td, htd, hcount⟩ := Option.bind_eq_some_iff.mp hcount
  obtain ⟨n, hn, hcount⟩ := Option.bind_eq_some_iff.mp hcount
  have hiid := h.tables iid td htd
  obtain ⟨d, hd⟩ := h.data iid hiid tid htid
  have hholds := h.pairs.holds iid tid d hd
  obtain ⟨td', htd', hentry⟩ := hholds.entered
  obtain rfl := Option.some.inj (htd.symm.trans htd')
  rw [hentry] at hn hcount
  simp only [hholds.counts] at hn hcount
  rw [getElem?_countsOf he, if_neg hne] at hn
  obtain rfl := Option.some.inj hn
  split at hcount
  · cases hcount
  obtain rfl := Option.some.inj hcount
  -- the new value, and the new executions of the thread
  have hvalue : (if add then BitVec.ofInt 64 (executed iid tid k) + 1
      else BitVec.ofInt 64 (executed iid tid k) - 1) =
      BitVec.ofInt 64 (executed iid tid k + if add then 1 else -1) :=
    ofInt_add_step _ add
  have hother : ∀ i t, ¬(i = iid ∧ t = tid) → (fun k' => executed i t k' +
      (Operation.count iid tid k add).executions i t k') = executed i t := fun i t hit => by
    funext k'
    have hkey : ¬(i = iid ∧ t = tid ∧ k' = k) := fun hk => hit ⟨hk.1, hk.2.1⟩
    simp [Operation.executions, hkey]
  have hself : (fun k' => executed iid tid k' +
      (Operation.count iid tid k add).executions iid tid k') =
      Function.update (executed iid tid) k (executed iid tid k + if add then 1 else -1) := by
    funext k'
    rcases eq_or_ne k' k with rfl | hk
    · simp [Operation.executions]
    · simp [Operation.executions, hk]
  refine ⟨List.ne_nil_of_mem htid, ⟨fun i t d' hd' => ?_, h.pairs.below, h.pairs.apart⟩, h.data,
    h.added, h.tables, h.images_nodup, h.threads_nodup, h.threads_ne_zero, h.threadseq, h.imageseq,
    fun i t k' hk' => ?_, h.loader_mem, h.loaded_iff⟩
  · have hold := h.pairs.holds i t d' hd'
    refine ⟨hold.entries, hold.master, ?_, hold.entered⟩
    show Function.update dm.memory (dm.heap d).counters _ (dm.heap d').counters = _
    by_cases hit : i = iid ∧ t = tid
    · obtain ⟨rfl, rfl⟩ := hit
      obtain rfl := Option.some.inj (hd.symm.trans hd')
      rw [Function.update_self, hself, hvalue, set_countsOf he hne]
    · rw [hother i t hit, Function.update_of_ne, hold.counts]
      exact fun heq => hit (h.pairs.apart i t d' iid tid d hd' hd heq)
  · by_cases hit : i = iid ∧ t = tid
    · exact ⟨hit.1 ▸ hiid, hit.2 ▸ htid⟩
    · rw [congrFun (hother i t hit) k'] at hk'
      exact h.executed_mem i t k' hk'

/-- **Step**: an operation in order. -/
theorem KeptState.step {allData : Option CounterData} {op : Operation}
    (h : KeptState images executed loaded allData) (hvalid : op.Valid) (horder : op.InOrder allData)
    (hstep : step images allData op = some dm') :
    KeptState images (fun i t k => executed i t k + op.executions i t k)
      (fun i => (loaded i).or (op.loads i)) (some dm') := by
  cases op with
  | imageInit iid tid =>
    have hsame : (fun i t k => executed i t k +
        (Operation.imageInit iid tid).executions i t k) = executed := by
      funext i t k
      exact Int.add_zero _
    rw [hsame]
    replace hstep : toolImageInit (images iid) allData iid tid = some dm' := hstep
    rw [toolImageInit] at hstep
    split at hstep
    · rename_i hold
      obtain rfl := Option.some.inj hstep
      -- the image is there already
      cases allData with
      | none => exact absurd hold List.not_mem_nil
      | some dm =>
        have hloads :
            (fun i => (loaded i).or ((Operation.imageInit iid tid).loads i)) = loaded := by
          funext i
          rcases eq_or_ne iid i with rfl | hne
          · obtain ⟨t, ht⟩ := Option.isSome_iff_exists.mp ((h.2.loaded_iff iid).mp hold)
            rw [ht, Option.some_or]
          · exact (congrArg _ (if_neg hne.symm)).trans Option.or_none
        rw [hloads]
        exact h
    · rename_i hold
      rw [Option.map_eq_some_iff] at hstep
      obtain ⟨dm₁, hadd, rfl⟩ := hstep
      obtain ⟨hkept, halone, hseq⟩ := h.single fun dm hdm => by
        subst hdm
        exact (horder dm rfl).resolve_left hold
      exact hkept.addImage hold halone hseq hvalid.2 hadd (relabelled_setHeap ..)
  | threadInit tid =>
    obtain ⟨dm, rfl, hadd⟩ := Option.bind_eq_some_iff.mp hstep
    have hsame : (fun i t k => executed i t k + (Operation.threadInit tid).executions i t k) =
        executed := by
      funext i t k
      exact Int.add_zero _
    have hloads : (fun i => (loaded i).or ((Operation.threadInit tid).loads i)) = loaded :=
      funext fun i => Option.or_none
    rw [hsame, hloads]
    exact h.2.addThread hvalid hadd
  | count iid tid k add =>
    obtain ⟨dm, rfl, hstep⟩ := Option.bind_eq_some_iff.mp hstep
    obtain ⟨e, he, hstep⟩ := Option.bind_eq_some_iff.mp hstep
    split at hstep
    · cases hstep
    rename_i hguard
    have hloads : (fun i => (loaded i).or ((Operation.count iid tid k add).loads i)) = loaded :=
      funext fun i => Option.or_none
    rw [hloads]
    exact h.2.count he (fun htype => hguard (.inl htype))
      (by_contra fun htid => hguard (.inr htid)) hstep

theorem KeptState.run {allData : Option CounterData} {ops : List Operation}
    (h : KeptState images executed loaded allData) (hvalid : ∀ op ∈ ops, op.Valid)
    (horder : AllInOrder images allData ops) (hrun : run images allData ops = some dm) :
    Kept images (fun i t k => executed i t k + executions ops i t k)
      (fun i => (loaded i).or (loader ops i)) dm := by
  induction ops generalizing allData executed loaded with
  | nil =>
    obtain rfl : allData = some dm := hrun
    simpa [executions, loader] using h.2
  | cons op ops ih =>
    rw [CounterReport.run] at hrun
    split at hrun
    · cases hrun
    rename_i dm₁ hstep
    have hkept := ih (h.step (hvalid op List.mem_cons_self) horder.1 hstep)
      (fun op' hop' => hvalid op' (List.mem_cons_of_mem op hop')) (horder.2 dm₁ hstep) hrun
    have hexecuted : (fun i t k => executed i t k + op.executions i t k + executions ops i t k) =
        fun i t k => executed i t k + executions (op :: ops) i t k := by
      funext i t k
      rw [executions, executions, List.map_cons, List.sum_cons, Int.add_assoc]
    have hloaded : (fun i => ((loaded i).or (op.loads i)).or (loader ops i)) =
        fun i => (loaded i).or (loader (op :: ops) i) := by
      funext i
      rw [loader, loader, List.findSome?_cons, Option.or_assoc]
      cases op.loads i <;> rfl
    rw [hexecuted, hloaded] at hkept
    exact hkept

theorem kept_run {ops : List Operation} (hvalid : ∀ op ∈ ops, op.Valid)
    (horder : AllInOrder images none ops) (hrun : run images none ops = some dm) :
    Kept images (executions ops) (loader ops) dm := by
  have hempty : KeptState images (fun _ _ _ => 0) (fun _ => none) none :=
    ⟨fun _ _ _ => rfl, fun _ => rfl⟩
  simpa using hempty.run hvalid horder hrun

/-! ## The report -/

/-- Adding up in 32 bits. -/
theorem tally_map {α : Type} (f : α → Int) (l : List α) :
    tally (l.map fun a => BitVec.ofInt 64 (f a)) = (BitVec.ofInt 64 (l.map f).sum).setWidth 32 := by
  have hround : ∀ (c : BitVec 32) (n : BitVec 64), (c.setWidth 64 + n).setWidth 32 =
      c + n.setWidth 32 := fun c n => by
    rw [BitVec.setWidth_add _ _ (by decide), BitVec.setWidth_setWidth_of_le _ (by decide),
      BitVec.setWidth_eq]
  have hfold : ∀ c : BitVec 32, (l.map fun a => BitVec.ofInt 64 (f a)).foldl
      (fun counter n => (counter.setWidth 64 + n).setWidth 32) c =
      c + (BitVec.ofInt 64 (l.map f).sum).setWidth 32 := by
    induction l with
    | nil => intro c; simp
    | cons a l ih =>
      intro c
      rw [List.map_cons, List.foldl_cons, ih, hround, List.map_cons, List.sum_cons,
        BitVec.ofInt_add, BitVec.setWidth_add _ _ (by decide), BitVec.add_assoc]
  rw [tally, hfold]
  exact BitVec.zero_add _

/-- The report with a change to every sum. -/
def reportWith (g : BitVec 64 → BitVec 64) (images : Nat → Image) (dm : CounterData)
    (executed : Executions) : List Line :=
  dm.allimages.flatMap fun i => (images i).entries.zipIdx.flatMap fun e =>
    printEntry e.1 e.2 ((dm.imageseq i).getD 0) (g (total images dm.allthreads executed i e.2))
      (dm.allthreads.map fun t => ((dm.threadseq t).getD 0,
        BitVec.ofInt 64 (executed i t ((images i).leader e.2))))

/-- What is left of a sum in 32 bits. -/
def short (n : BitVec 64) : BitVec 64 := (n.setWidth 32).setWidth 64

theorem short_toNat (n : BitVec 64) : (short n).toNat = n.toNat % 2 ^ 32 := by
  rw [short, BitVec.toNat_setWidth, BitVec.toNat_setWidth]
  omega

theorem Image.leader_spec {image : Image} {e : CounterEntry} (he : image.entries[k]? = some e) :
    ∃ e', image.entries[image.leader k]? = some e' ∧ e'.type ≠ .instruction := by
  have hleads := image.leads k e he
  split at hleads
  · exact hleads.2
  · rename_i htype
    exact ⟨e, by rw [hleads.2]; exact he, htype⟩

section Report

variable (h : Kept images executed loaded dm) {i : Nat} (hi : i ∈ dm.allimages)

include h hi

theorem Kept.threadCounts {e : CounterEntry} (he : (images i).entries[k]? = some e)
    (hne : e.type ≠ .instruction) : dm.threadCounts i k = some (dm.allthreads.map fun t =>
      ((dm.threadseq t).getD 0, BitVec.ofInt 64 (executed i t k))) := by
  refine mapM_eq_some_map fun t ht => ?_
  obtain ⟨d, hd⟩ := h.data i hi t ht
  obtain ⟨n, hn⟩ := h.threadseq t ht
  rw [hd, hn]
  simp only [Option.bind_eq_bind, Option.bind_some, (h.pairs.holds i t d hd).counts,
    getElem?_countsOf he, if_neg hne, Option.getD_some]

/-- The line of an entry, with the array of any thread. -/
theorem Kept.printRound {e : CounterEntry} (hd : dm.datamap i tid = some d)
    (he : (images i).entries[k]? = some e) :
    dm.printRound i (dm.heap d) k = some (printEntry e k ((dm.imageseq i).getD 0)
      (short (total images dm.allthreads executed i k))
      (dm.allthreads.map fun t => ((dm.threadseq t).getD 0,
        BitVec.ofInt 64 (executed i t ((images i).leader k))))) := by
  have hholds := h.pairs.holds i tid d hd
  obtain ⟨n, hn⟩ := h.imageseq i hi
  obtain ⟨e', he', hne'⟩ := (images i).leader_spec he
  -- the index is that of the leader
  have hindex : (if e.type = .instruction then ((if e.type = .instruction then
      BitVec.ofNat 64 ((images i).leader k) else BitVec.ofInt 64 (executed i tid k)).setWidth
        32).toNat else k) = (images i).leader k := by
    have hleads := (images i).leads k e he
    split at hleads
    · rename_i htype
      have hlt := (List.getElem?_eq_some_iff.mp he').1
      have hbound := (images i).length_lt
      rw [if_pos htype, if_pos htype, BitVec.toNat_setWidth, BitVec.toNat_ofNat]
      omega
    · rename_i htype
      rw [if_neg htype, hleads.2]
  unfold CounterData.printRound
  simp only [hholds.entries, he, hholds.counts, getElem?_countsOf he, Option.bind_eq_bind,
    Option.bind_some, hindex, h.threadCounts hi he' hne', hn, Option.getD_some, List.map_map]
  congr 2
  exact congrArg _ (tally_map (fun t => executed i t ((images i).leader k)) dm.allthreads)

theorem Kept.printImage (htid : tid ∈ dm.allthreads) : dm.printImage tid i =
    some ((images i).entries.zipIdx.flatMap fun e => printEntry e.1 e.2 ((dm.imageseq i).getD 0)
      (short (total images dm.allthreads executed i e.2))
      (dm.allthreads.map fun t => ((dm.threadseq t).getD 0,
        BitVec.ofInt 64 (executed i t ((images i).leader e.2))))) := by
  obtain ⟨d, hd⟩ := h.data i hi tid htid
  have hentries := (h.pairs.holds i tid d hd).entries
  have hlines : (List.range (dm.heap d).entries.length).mapM (dm.printRound i (dm.heap d)) =
      some ((images i).entries.zipIdx.map fun e => printEntry e.1 e.2 ((dm.imageseq i).getD 0)
        (short (total images dm.allthreads executed i e.2))
        (dm.allthreads.map fun t => ((dm.threadseq t).getD 0,
          BitVec.ofInt 64 (executed i t ((images i).leader e.2))))) := by
    rw [mapM_eq_some_iff, List.forall₂_iff_get]
    refine ⟨by simp [hentries], fun k hk _ => ?_⟩
    have hk : k < (images i).entries.length := by simpa [hentries] using hk
    have hround := h.printRound hi hd (List.getElem?_eq_getElem hk)
    simpa using hround
  unfold CounterData.printImage
  rw [hd]
  simp only [Option.bind_eq_bind, Option.bind_some, hlines]
  rfl

end Report

theorem Kept.printAll (h : Kept images executed loaded dm) (htid : tid ∈ dm.allthreads) :
    (dm.allimages.mapM (dm.printImage tid)).map List.flatten =
      some (reportWith short images dm executed) := by
  rw [mapM_eq_some_map fun i hi => h.printImage hi htid]
  rfl

/-! ## The result -/

theorem counter_of_mem_printEntry {e : CounterEntry} {i seq : Nat} {c : BitVec 64}
    {threads : List (Nat × BitVec 64)} {line : Line} (h : line ∈ printEntry e i seq c threads) :
    line.counter = c := by
  unfold printEntry at h
  split at h
  · rw [List.mem_singleton.mp h]
  · cases h

theorem printEntry_eq_nil_iff {e : CounterEntry} {i seq : Nat} {c : BitVec 64}
    {threads : List (Nat × BitVec 64)} : printEntry e i seq c threads = [] ↔ c.toNat < 1 := by
  have hle : c ≥ printMinimum ↔ 1 ≤ c.toNat := BitVec.le_def
  unfold printEntry
  split
  · rename_i hc
    have hc := hle.mp hc
    exact ⟨nofun, fun hlt => by omega⟩
  · rename_i hc
    have hc := mt hle.mpr hc
    exact ⟨fun _ => by omega, fun _ => rfl⟩

/-- The entries of the report. -/
theorem forall_total_iff {p : BitVec 64 → Prop} :
    (∀ i ∈ dm.allimages, ∀ k < (images i).entries.length,
      p (total images dm.allthreads executed i k)) ↔
    ∀ i ∈ dm.allimages, ∀ e ∈ (images i).entries.zipIdx,
      p (total images dm.allthreads executed i e.2) := by
  refine forall₂_congr fun i _ => ⟨fun h e he => h e.2 ?_, fun h k hk => ?_⟩
  · exact (List.getElem?_eq_some_iff.mp (List.mem_zipIdx_iff_getElem?.mp he)).1
  · exact h ((images i).entries[k], k) (List.mem_zipIdx_iff_getElem?.mpr
      (List.getElem?_eq_getElem hk))

/-- Nothing is to be printed where nothing was executed. -/
theorem expected_eq_nil_iff : expected images dm executed = [] ↔
    ∀ i ∈ dm.allimages, ∀ k < (images i).entries.length,
      (total images dm.allthreads executed i k).toNat < 1 := by
  rw [forall_total_iff (p := fun n => n.toNat < 1), expected, List.flatMap_eq_nil_iff]
  refine forall₂_congr fun i _ => ?_
  rw [List.flatMap_eq_nil_iff]
  exact forall₂_congr fun e _ => printEntry_eq_nil_iff

/-- The short sums are the right ones where all are short. -/
theorem reportWith_short_eq_iff :
    reportWith short images dm executed = expected images dm executed ↔
    ∀ i ∈ dm.allimages, ∀ k < (images i).entries.length,
      (total images dm.allthreads executed i k).toNat < 2 ^ 32 := by
  rw [forall_total_iff (p := fun n => n.toNat < 2 ^ 32)]
  constructor
  · intro heq i hi e he
    by_contra hge
    -- the entry is to be printed, with a sum that no printed line has
    have hprinted : printEntry e.1 e.2 ((dm.imageseq i).getD 0)
        (total images dm.allthreads executed i e.2) (dm.allthreads.map fun t =>
          ((dm.threadseq t).getD 0, BitVec.ofInt 64 (executed i t ((images i).leader e.2)))) ≠ [] :=
      fun hnil => by
        have hlt := printEntry_eq_nil_iff.mp hnil
        omega
    obtain ⟨line, hline⟩ := List.exists_mem_of_ne_nil _ hprinted
    have hmem : line ∈ expected images dm executed :=
      List.mem_flatMap.mpr ⟨i, hi, List.mem_flatMap.mpr ⟨e, he, hline⟩⟩
    rw [← heq, reportWith, List.mem_flatMap] at hmem
    obtain ⟨i', -, hmem⟩ := hmem
    obtain ⟨e', -, hmem⟩ := List.mem_flatMap.mp hmem
    have hcounter := (counter_of_mem_printEntry hline).symm.trans (counter_of_mem_printEntry hmem)
    have hshort := congrArg BitVec.toNat hcounter
    rw [short_toNat] at hshort
    omega
  · intro hlt
    refine List.flatMap_congr fun i hi => List.flatMap_congr fun e he => ?_
    have hshort : short (total images dm.allthreads executed i e.2) =
        total images dm.allthreads executed i e.2 := by
      refine BitVec.eq_of_toNat_eq ?_
      rw [short_toNat]
      exact Nat.mod_eq_of_lt (hlt i hi e he)
    rw [hshort]

/-- **Reported counts**: after operations in order the executable reports the true sums exactly
if all of them are below 2^32 and it ends in the thread that loaded it, or all are 0. -/
theorem reportRight_iff {ops : List Operation} (key tid : Nat) (hvalid : ∀ op ∈ ops, op.Valid)
    (horder : AllInOrder images none ops) (hrun : run images none ops = some dm)
    (hkey : key ∈ dm.allimages) (htid : tid ∈ dm.allthreads) :
    ∃ lines, dm.toolImageFini key tid = some lines ∧
      (ReportRight images dm (executions ops) key lines ↔
        ReportMeets images dm (executions ops) (loader ops key) key tid) := by
  have h := kept_run hvalid horder hrun
  obtain ⟨d, hd⟩ := h.data key hkey tid htid
  have hmaster := (h.pairs.holds key tid d hd).master
  obtain ⟨lines, hlines, hflatten⟩ := Option.map_eq_some_iff.mp (h.printAll htid)
  unfold CounterData.toolImageFini
  rw [hd]
  simp only [Option.bind_eq_bind, Option.bind_some, hmaster, hlines, hflatten, ReportRight,
    ReportMeets, Bool.and_eq_true, decide_eq_true_eq]
  by_cases hexecutable : (images key).master = true
  · by_cases hloader : loader ops key = some tid
    · refine ⟨_, if_pos ⟨hexecutable, hloader⟩, ?_⟩
      simp only [hexecutable, hloader, if_true, forall_const]
      exact reportWith_short_eq_iff
    · refine ⟨_, if_neg fun hand => hloader hand.2, ?_⟩
      simp only [hexecutable, hloader, if_true, if_false, forall_const]
      exact eq_comm.trans expected_eq_nil_iff
  · refine ⟨_, if_neg fun hand => hexecutable hand.1, ?_⟩
    simp [hexecutable]

/-- Images of one block of two instructions; the image 1 is the executable. -/
def blockImages (i : Nat) : Image where
  master := i == 1
  entries := [⟨.basicblock, 7, 0x400, "f", "f.c", 3⟩, ⟨.instruction, 8, 0x404, "f", "f.c", 3⟩]
  counters := [0, 0]
  leader _ := 0
  length_eq := rfl
  length_lt := by decide
  leads k e he := by
    match k, he with
    | 0, he =>
      obtain rfl := Option.some.inj he
      exact ⟨rfl, rfl⟩
    | 1, he =>
      obtain rfl := Option.some.inj he
      exact ⟨rfl, _, rfl, by decide⟩

/-- A second thread executes the block. -/
theorem reportRight_twoThreads : ∃ dm lines, run blockImages none
    [.imageInit 1 4096, .threadInit 8192, .count 1 8192 0 true] = some dm ∧
    dm.toolImageFini 1 4096 = some lines ∧ ReportRight blockImages dm
      (executions [.imageInit 1 4096, .threadInit 8192, .count 1 8192 0 true]) 1 lines := by
  obtain ⟨dm, hrun, himages, hthreads⟩ : ∃ dm, run blockImages none
      [.imageInit 1 4096, .threadInit 8192, .count 1 8192 0 true] = some dm ∧
      dm.allimages = [1] ∧ dm.allthreads = [4096, 8192] := ⟨_, rfl, rfl, rfl⟩
  have hvalid : ∀ op ∈ [Operation.imageInit 1 4096, .threadInit 8192, .count 1 8192 0 true],
      op.Valid := by simp [Operation.Valid]
  obtain ⟨lines, hlines, hiff⟩ := reportRight_iff 1 4096 hvalid
    ⟨nofun, fun _ _ => ⟨trivial, fun _ _ => ⟨trivial, fun _ _ => trivial⟩⟩⟩ hrun
    (by simp [himages]) (by simp [hthreads])
  refine ⟨dm, lines, hrun, hlines, hiff.mpr fun _ i hi k _ => ?_⟩
  rw [himages, List.mem_singleton] at hi
  rw [hi, hthreads, if_pos (by decide), total]
  exact show (BitVec.ofInt 64 1).toNat < 2 ^ 32 by decide

/-- An image that is loaded when there are two threads has one array for both, and an execution is
counted twice. -/
theorem not_reportRight : ¬ ∀ ops dm lines, (∀ op ∈ ops, op.Valid) →
    run blockImages none ops = some dm → dm.toolImageFini 1 4096 = some lines →
      ReportRight blockImages dm (executions ops) 1 lines := by
  intro h
  have hright := h [.imageInit 1 4096, .threadInit 8192, .imageInit 2 4096, .count 2 4096 0 true]
    _ _ (by simp [Operation.Valid]) rfl rfl
  have hcounters := congrArg (List.map Line.counter) hright
  exact absurd hcounters (by decide)

end CounterReport

end Pebil

import Mathlib.Logic.Function.Basic
import Mathlib.Data.List.Basic

/-!
# The access buffer of the cache simulation

Instrumented code collects memory accesses in a per-thread array of
`BUFFER_ENTRIES + 1` entries (tools/CacheSimulation.C:239). Slot 0 is a control
slot: its `address` field counts the filled entries and its `memseq` field holds
the capacity (instcode/Metasim.hpp:58–59, 100–102), and entry `n` is slot `n + 1`.

Three pieces of emitted code work on it (tools/CacheSimulation.C:389–560). Before
the first memory operation of a block with `m` of them, the *check* compares the
count with `BUFFER_ENTRIES - m` and calls `process_thread_buffer` unless it is
less; the *increment* adds `m` to the count; and before the `k`-th memory operation
the *fill* computes the byte offset of entry `current + k - m` from the count and
stores the access there. All three compute on 32- and 64-bit machine words, which
is how they are modelled; the four stores of a fill are one write.

The model reads the count from the control slot every time, so a fill that hit
slot 0 would disturb it.
-/

namespace Pebil

/-- `BUFFER_ENTRIES`. -/
def bufferEntries : Nat := 0x10000

/-- `BufferEntry`: four 64-bit words. -/
structure BufferEntry where
  address : BitVec 64
  memseq : BitVec 64
  imageid : BitVec 64
  threadid : BitVec 64
  deriving DecidableEq, Repr

/-- What `bzero` leaves in an entry. -/
def BufferEntry.zero : BufferEntry := ⟨0, 0, 0, 0⟩

/-- `SimulationStats::Buffer`, by slot. -/
abbrev AccessBuffer := Nat → BufferEntry

/-- What instrumented code does to the buffer, in order. -/
inductive BufferEvent where
  /-- `process_thread_buffer` was called with these entries. -/
  | flush (handed : List BufferEntry)
  /-- A fill stored this access in this slot. -/
  | fill (slot : Nat) (access : BufferEntry)
  deriving DecidableEq, Repr

namespace AccessBuffer

/-- `BUFFER_CURRENT`. -/
def current (b : AccessBuffer) : BitVec 64 := (b 0).address

/-- `BUFFER_CAPACITY`. -/
def capacity (b : AccessBuffer) : BitVec 64 := (b 0).memseq

/-- The buffer in the instrumented image: `intro` in slot 0
(tools/CacheSimulation.C:214–217, 239–241). -/
def initial : AccessBuffer := fun s =>
  if s = 0 then { BufferEntry.zero with memseq := BitVec.ofNat 64 bufferEntries }
  else BufferEntry.zero

/-- `cmp $(BUFFER_ENTRIES - m), r64` and `jl`: the 32-bit immediate is sign
extended and the comparison is signed. True when the call is skipped. -/
def checkSkips (b : AccessBuffer) (m : Nat) : Bool :=
  b.current.slt ((BitVec.ofNat 32 bufferEntries - BitVec.ofNat 32 m).signExtend 64)

/-- The entries `process_thread_buffer` reads: `BUFFER_ENTRY(stats, j)` for
`j < BUFFER_CURRENT(stats)`. -/
def handed (b : AccessBuffer) : List BufferEntry :=
  (List.range b.current.toNat).map fun j => b (j + 1)

/-- `DONE_WITH_BUFFER`: the count to zero, then `BUFFER_CAPACITY` entries cleared
from entry 0 on. -/
def doneWithBuffer (b : AccessBuffer) : AccessBuffer := fun s =>
  if s = 0 then { b 0 with address := 0 }
  else if s ≤ b.capacity.toNat then BufferEntry.zero
  else b s

/-- The increment. Position independent code adds to a 32-bit memory operand
(`emitAddImmToRegaddrImm` emits no REX.W prefix), other code to a 64-bit one. -/
def bufferInc (usePIC : Bool) (b : AccessBuffer) (m : Nat) : AccessBuffer :=
  let sum : BitVec 64 :=
    if usePIC then
      b.current.extractLsb' 32 32 ++ (b.current.setWidth 32 + BitVec.ofNat 32 m)
    else b.current + (BitVec.ofNat 32 m).signExtend 64
  Function.update b 0 { b 0 with address := sum }

/-- The byte offset from the buffer's start that the fill of memory operation `k`
of `m` computes: `current << 5`, plus the sign extended 32-bit displacement that
is the low half of `sizeof(BufferEntry) * bufferIdx`, where `bufferIdx` is the
32-bit `1 + k - m`. -/
def fillOffset (b : AccessBuffer) (m k : Nat) : BitVec 64 :=
  let bufferIdx : BitVec 32 := 1#32 + BitVec.ofNat 32 k - BitVec.ofNat 32 m
  let value : BitVec 64 := 32#64 * bufferIdx.setWidth 64
  (b.current <<< 5) + (value.setWidth 32).signExtend 64

/-- The fill of memory operation `k` of `m`; `none` when the address is not that
of a slot of the buffer. -/
def bufferFill (b : AccessBuffer) (m k : Nat) (access : BufferEntry) :
    Option (AccessBuffer × BufferEvent) :=
  let offset := (b.fillOffset m k).toNat
  if offset % 32 = 0 ∧ offset / 32 < bufferEntries + 1 then
    some (Function.update b (offset / 32) access, .fill (offset / 32) access)
  else none

/-- The fills of memory operations `k`, `k + 1`, … of a block with `m` of them. -/
def fillFrom (m : Nat) : Nat → List BufferEntry → AccessBuffer →
    Option (AccessBuffer × List BufferEvent)
  | _, [], b => some (b, [])
  | k, access :: rest, b => do
    let (b', e) ← b.bufferFill m k access
    let (b'', es) ← fillFrom m (k + 1) rest b'
    return (b'', e :: es)

/-- One execution of a block with the given accesses: check, increment, fills. All
of it hangs on memory operations, so a block without any does nothing. -/
def runBlock (usePIC : Bool) (b : AccessBuffer) (accesses : List BufferEntry) :
    Option (AccessBuffer × List BufferEvent) :=
  let m := accesses.length
  if m = 0 then some (b, [])
  else if b.checkSkips m then fillFrom m 0 accesses (b.bufferInc usePIC m)
  else do
    let (b', es) ← fillFrom m 0 accesses (b.doneWithBuffer.bufferInc usePIC m)
    return (b', .flush b.handed :: es)

/-- A run of instrumented code: its blocks' accesses, block by block. -/
def run (usePIC : Bool) : List (List BufferEntry) → AccessBuffer →
    Option (AccessBuffer × List BufferEvent)
  | [], b => some (b, [])
  | accesses :: rest, b => do
    let (b', es) ← b.runBlock usePIC accesses
    let (b'', es') ← run usePIC rest b'
    return (b'', es ++ es')

/-! ## What the buffer is for -/

/-- A log is right when every fill goes to an entry slot, and every flush hands
over the accesses since the previous one, in order. -/
def LogOk : List BufferEntry → List BufferEvent → Prop
  | _, [] => True
  | pending, .flush es :: log => es = pending ∧ LogOk [] log
  | pending, .fill slot access :: log =>
    (1 ≤ slot ∧ slot ≤ bufferEntries) ∧ LogOk (pending ++ [access]) log

/-- The accesses stored since the last flush of a log that starts with `pending`. -/
def pendingAfter : List BufferEntry → List BufferEvent → List BufferEntry
  | pending, [] => pending
  | _, .flush _ :: log => pendingAfter [] log
  | pending, .fill _ access :: log => pendingAfter (pending ++ [access]) log

/-- The accesses a log stores, in order. -/
def stored : List BufferEvent → List BufferEntry
  | [] => []
  | .flush _ :: log => stored log
  | .fill _ access :: log => access :: stored log

theorem stored_append (log log' : List BufferEvent) :
    stored (log ++ log') = stored log ++ stored log' := by
  induction log with
  | nil => rfl
  | cons e log ih => cases e <;> simp [stored, ih]

theorem pendingAfter_append (log log' : List BufferEvent) :
    ∀ pending, pendingAfter pending (log ++ log') =
      pendingAfter (pendingAfter pending log) log' := by
  induction log with
  | nil => intro _; rfl
  | cons e log ih => intro pending; cases e <;> exact ih _

theorem logOk_append (log log' : List BufferEvent) :
    ∀ pending, LogOk pending (log ++ log') ↔
      LogOk pending log ∧ LogOk (pendingAfter pending log) log' := by
  induction log with
  | nil => intro _; simp [LogOk, pendingAfter]
  | cons e log ih =>
    intro pending
    cases e <;> simp [LogOk, pendingAfter, ih, and_assoc]

/-! ## The invariant -/

/-- The buffer between two fills: `filled` accesses are stored from slot 1 on, the
count is `count` and the capacity is what it was set to. -/
structure Holds (b : AccessBuffer) (count : Nat) (filled : List BufferEntry) : Prop where
  current : b.current = BitVec.ofNat 64 count
  capacity : b.capacity = BitVec.ofNat 64 bufferEntries
  count_le : count ≤ bufferEntries
  length_le : filled.length ≤ count
  slot : ∀ j, (h : j < filled.length) → b (j + 1) = filled[j]

variable {b : AccessBuffer} {count m k : Nat} {filled : List BufferEntry}

theorem holds_initial : Holds initial 0 [] :=
  ⟨rfl, rfl, Nat.zero_le _, Nat.le_refl _, fun _ h => absurd h (Nat.not_lt_zero _)⟩

theorem Holds.toNat_current (h : Holds b count filled) : b.current.toNat = count := by
  have := h.count_le
  unfold bufferEntries at this
  rw [h.current, BitVec.toNat_ofNat]
  omega

/-- The check skips the call exactly when `m` more entries leave one free. -/
theorem Holds.checkSkips_iff (h : Holds b count filled) (hm : m ≤ bufferEntries) :
    b.checkSkips m = true ↔ count + m < bufferEntries := by
  have hc := h.count_le
  have himm : ((BitVec.ofNat 32 bufferEntries - BitVec.ofNat 32 m).signExtend 64).toInt =
      (bufferEntries - m : Int) := by
    rw [BitVec.toInt_signExtend_of_le (by decide), BitVec.toInt_eq_toNat_cond,
      BitVec.toNat_sub, BitVec.toNat_ofNat, BitVec.toNat_ofNat]
    unfold bufferEntries at hm ⊢
    split <;> omega
  have hcur : b.current.toInt = (count : Int) := by
    rw [BitVec.toInt_eq_toNat_cond, h.toNat_current]
    unfold bufferEntries at hc
    split <;> omega
  unfold checkSkips
  rw [BitVec.slt_eq_decide, decide_eq_true_iff, himm, hcur]
  omega

/-- A flush hands over what is stored. -/
theorem Holds.handed_eq (h : Holds b count filled) (hfull : filled.length = count) :
    b.handed = filled := by
  unfold handed
  rw [h.toNat_current, ← hfull]
  refine List.ext_getElem (by simp) fun j hj hj' => ?_
  simp [h.slot j hj']

theorem Holds.doneWithBuffer (h : Holds b count filled) : Holds b.doneWithBuffer 0 [] := by
  refine ⟨?_, ?_, Nat.zero_le _, Nat.le_refl _, fun _ h => absurd h (Nat.not_lt_zero _)⟩
  · simp [AccessBuffer.doneWithBuffer, AccessBuffer.current]
  · have := h.capacity
    unfold AccessBuffer.capacity at this
    simp [AccessBuffer.doneWithBuffer, AccessBuffer.capacity, this]

theorem Holds.bufferInc (h : Holds b count filled) (usePIC : Bool)
    (hm : count + m ≤ bufferEntries) : Holds (b.bufferInc usePIC m) (count + m) filled := by
  have hsum : (b.bufferInc usePIC m).current = BitVec.ofNat 64 (count + m) := by
    have hcur := h.toNat_current
    unfold bufferEntries at hm
    apply BitVec.eq_of_toNat_eq
    unfold AccessBuffer.bufferInc AccessBuffer.current
    simp only [Function.update_self]
    cases usePIC with
    | true =>
      unfold AccessBuffer.current at hcur
      have hhigh : ((b 0).address.extractLsb' 32 32).toNat = 0 := by
        rw [BitVec.extractLsb'_toNat, hcur, Nat.shiftRight_eq_div_pow]
        omega
      simp only [if_true, BitVec.toNat_append, hhigh, Nat.zero_shiftLeft,
        Nat.zero_or, BitVec.toNat_add, BitVec.toNat_setWidth, BitVec.toNat_ofNat, hcur]
      omega
    | false =>
      unfold AccessBuffer.current at hcur
      have himm : ((BitVec.ofNat 32 m).signExtend 64).toNat = m := by
        rw [BitVec.toNat_signExtend, BitVec.msb_eq_decide, BitVec.toNat_setWidth,
          BitVec.toNat_ofNat]
        simp only [decide_eq_true_eq]
        split <;> omega
      simp only [Bool.false_eq_true, if_false, BitVec.toNat_add, himm,
        BitVec.toNat_ofNat, hcur]
  refine ⟨hsum, ?_, hm, by have := h.length_le; omega, fun j hj => ?_⟩
  · simpa [AccessBuffer.bufferInc, AccessBuffer.capacity] using h.capacity
  · simpa [AccessBuffer.bufferInc] using h.slot j hj

/-- The machine arithmetic of a fill: memory operation `k` of `m` goes to slot
`count + 1 + k - m`. -/
theorem Holds.fillOffset_eq (h : Holds b count filled) (hk : k < m) (hm : m ≤ count) :
    (b.fillOffset m k).toNat = 32 * (count + 1 + k - m) := by
  have hc := h.count_le
  unfold bufferEntries at hc
  have hidx : (1#32 + BitVec.ofNat 32 k - BitVec.ofNat 32 m).toNat =
      (2 ^ 32 - (m - 1 - k)) % 2 ^ 32 := by
    simp only [BitVec.toNat_sub, BitVec.toNat_add, BitVec.toNat_ofNat]
    omega
  have hdisp : (((32#64 * (1#32 + BitVec.ofNat 32 k - BitVec.ofNat 32 m).setWidth 64).setWidth
      32).signExtend 64).toNat = (2 ^ 64 - 32 * (m - 1 - k)) % 2 ^ 64 := by
    rw [BitVec.toNat_signExtend, BitVec.msb_eq_decide]
    simp only [BitVec.toNat_setWidth, BitVec.toNat_mul, BitVec.toNat_ofNat, hidx,
      decide_eq_true_eq]
    split <;> omega
  unfold AccessBuffer.fillOffset
  simp only [BitVec.toNat_add, BitVec.toNat_shiftLeft, hdisp, h.toNat_current,
    Nat.shiftLeft_eq]
  omega

/-- **A fill appends**: it writes the next entry slot and nothing else. -/
theorem Holds.bufferFill (h : Holds b count filled) (access : BufferEntry) (hk : k < m)
    (hm : m ≤ count) (hlen : filled.length + m = count + k) :
    ∃ b' slot, b.bufferFill m k access = some (b', .fill slot access) ∧
      (1 ≤ slot ∧ slot ≤ bufferEntries) ∧ Holds b' count (filled ++ [access]) := by
  have hoff := h.fillOffset_eq hk hm
  have hc := h.count_le
  have hslot : 32 * (count + 1 + k - m) / 32 = filled.length + 1 := by omega
  have hmod : 32 * (count + 1 + k - m) % 32 = 0 := by omega
  refine ⟨Function.update b (filled.length + 1) access, filled.length + 1, ?_,
    ⟨by omega, by omega⟩, ?_⟩
  · unfold AccessBuffer.bufferFill
    simp only [hoff, hslot, hmod, true_and]
    rw [if_pos (by omega)]
  · have hctl : (Function.update b (filled.length + 1) access) 0 = b 0 :=
      Function.update_of_ne (by omega) _ _
    refine ⟨?_, ?_, hc, ?_, fun j hj => ?_⟩
    · simpa only [AccessBuffer.current, hctl] using h.current
    · simpa only [AccessBuffer.capacity, hctl] using h.capacity
    · rw [List.length_append, List.length_singleton]
      omega
    · rw [List.length_append, List.length_singleton] at hj
      by_cases hlast : j = filled.length
      · subst hlast
        simp
      · have hj' : j < filled.length := by omega
        rw [Function.update_of_ne (by omega), List.getElem_append_left hj']
        exact h.slot j hj'

/-! ## Blocks and runs -/

/-- All fills of a block. -/
theorem Holds.fillFrom : ∀ (accesses : List BufferEntry) {k : Nat} {b : AccessBuffer}
    {filled : List BufferEntry}, Holds b count filled → k + accesses.length = m → m ≤ count →
    filled.length + m = count + k →
    ∃ b' log, AccessBuffer.fillFrom m k accesses b = some (b', log) ∧ LogOk filled log ∧
      stored log = accesses ∧ pendingAfter filled log = filled ++ accesses ∧
      Holds b' count (filled ++ accesses) := by
  intro accesses
  induction accesses with
  | nil =>
    intro k b filled h _ _ _
    exact ⟨b, [], rfl, trivial, rfl, by simp [pendingAfter], by simpa using h⟩
  | cons access rest ih =>
    intro k b filled h hk hm hlen
    rw [List.length_cons] at hk
    obtain ⟨b₁, slot, hfill, hslot, h₁⟩ := h.bufferFill access (k := k) (by omega) hm hlen
    obtain ⟨b₂, log, hrest, hok, hst, hpend, h₂⟩ := ih (k := k + 1) h₁ (by omega) hm
      (by rw [List.length_append, List.length_singleton]; omega)
    refine ⟨b₂, .fill slot access :: log, ?_, ⟨hslot, hok⟩, ?_, ?_, ?_⟩
    · rw [AccessBuffer.fillFrom, hfill]
      simp [hrest]
    · rw [stored, hst]
    · rw [pendingAfter, hpend, List.append_assoc]
      rfl
    · rw [List.append_assoc] at h₂
      exact h₂

/-- One block, from a buffer that holds exactly the pending accesses. -/
theorem Holds.runBlock (h : Holds b filled.length filled) (usePIC : Bool)
    {accesses : List BufferEntry} (hm : accesses.length ≤ bufferEntries) :
    ∃ b' log, b.runBlock usePIC accesses = some (b', log) ∧ LogOk filled log ∧
      stored log = accesses ∧
      Holds b' (pendingAfter filled log).length (pendingAfter filled log) := by
  have hskip := h.checkSkips_iff (m := accesses.length) hm
  unfold AccessBuffer.runBlock
  by_cases hnil : accesses.length = 0
  · obtain rfl := List.length_eq_zero_iff.mp hnil
    exact ⟨b, [], by simp, trivial, rfl, h⟩
  by_cases hs : filled.length + accesses.length < bufferEntries
  · obtain ⟨b', log, hfill, hok, hst, hpend, hb'⟩ :=
      (h.bufferInc usePIC (m := accesses.length) (by omega)).fillFrom accesses (k := 0)
        (m := accesses.length) (by omega) (by omega) (by omega)
    refine ⟨b', log, ?_, hok, hst, ?_⟩
    · simp [hnil, hskip.mpr hs, hfill]
    · rw [hpend, List.length_append]
      exact hb'
  · obtain ⟨b', log, hfill, hok, hst, hpend, hb'⟩ :=
      (h.doneWithBuffer.bufferInc usePIC (m := accesses.length) (by omega)).fillFrom accesses (k := 0)
        (m := accesses.length) (by omega) (by omega) (by simp)
    have hno : b.checkSkips accesses.length = false :=
      Bool.eq_false_iff.mpr fun hc => hs (hskip.mp hc)
    refine ⟨b', .flush b.handed :: log, ?_, ⟨h.handed_eq rfl, hok⟩, hst, ?_⟩
    · simp [hnil, hno, hfill]
    · rw [pendingAfter, hpend]
      simpa using hb'

/-- A run of blocks. -/
theorem Holds.run (usePIC : Bool) : ∀ {blocks : List (List BufferEntry)} {b : AccessBuffer}
    {filled : List BufferEntry}, Holds b filled.length filled →
    (∀ accesses ∈ blocks, accesses.length ≤ bufferEntries) →
    ∃ b' log, AccessBuffer.run usePIC blocks b = some (b', log) ∧ LogOk filled log ∧
      stored log = blocks.flatten ∧
      Holds b' (pendingAfter filled log).length (pendingAfter filled log) := by
  intro blocks
  induction blocks with
  | nil => exact fun {b filled} h _ => ⟨b, [], rfl, trivial, rfl, h⟩
  | cons accesses blocks ih =>
    intro b filled h hm
    obtain ⟨b₁, log₁, hblock, hok₁, hst₁, h₁⟩ :=
      h.runBlock usePIC (hm accesses List.mem_cons_self)
    obtain ⟨b₂, log₂, hrest, hok₂, hst₂, h₂⟩ :=
      ih h₁ fun acc hacc => hm acc (List.mem_cons_of_mem _ hacc)
    refine ⟨b₂, log₁ ++ log₂, ?_, ?_, ?_, ?_⟩
    · rw [AccessBuffer.run, hblock]
      simp [hrest]
    · exact (logOk_append log₁ log₂ filled).mpr ⟨hok₁, hok₂⟩
    · rw [stored_append, hst₁, hst₂, List.flatten_cons]
    · rw [pendingAfter_append]
      exact h₂

/-- **The access buffer neither overflows nor loses entries.** Every run of blocks
with at most `BUFFER_ENTRIES` memory operations each, from the initial buffer,
goes through; every fill writes slots 1 to `BUFFER_ENTRIES`; the accesses stored
are those executed, in program order; every flush is handed exactly the accesses
since the previous flush; and the accesses since the last flush are in the
buffer. -/
theorem run_initial (usePIC : Bool) (blocks : List (List BufferEntry))
    (hm : ∀ accesses ∈ blocks, accesses.length ≤ bufferEntries) :
    ∃ b log, run usePIC blocks initial = some (b, log) ∧ LogOk [] log ∧
      stored log = blocks.flatten ∧ b.handed = pendingAfter [] log := by
  have hstart : Holds initial ([] : List BufferEntry).length [] := holds_initial
  obtain ⟨b, log, hrun, hok, hst, hb⟩ := Holds.run usePIC hstart hm
  exact ⟨b, log, hrun, hok, hst, hb.handed_eq rfl⟩

/-- Two blocks of one and two accesses. -/
theorem run_initial_two_blocks :
    ∃ b log, run true [[⟨4096, 0, 1, 7⟩], [⟨64, 1, 1, 7⟩, ⟨128, 2, 1, 7⟩]] initial =
        some (b, log) ∧ LogOk [] log ∧
      stored log = [⟨4096, 0, 1, 7⟩, ⟨64, 1, 1, 7⟩, ⟨128, 2, 1, 7⟩] ∧
      b.handed = pendingAfter [] log :=
  run_initial true [[⟨4096, 0, 1, 7⟩], [⟨64, 1, 1, 7⟩, ⟨128, 2, 1, 7⟩]] (by
    intro accesses h
    simp only [List.mem_cons, List.not_mem_nil, or_false] at h
    rcases h with rfl | rfl <;> decide)

end AccessBuffer

end Pebil

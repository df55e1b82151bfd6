import Mathlib.Algebra.Group.Nat.Defs
import Mathlib.Logic.Function.Basic

/-!
# The timer's run time (src/instcode/TimerFunctions.cpp:79–110)

`function_entry` and `function_exit` keep, per thread, how deep each function is nested
and when its outermost activation began. `Activity` says what the tables are for: the
number of open activations, the begin of the outermost one, and the time spent in
outermost activations that have ended; an exit without an entry changes nothing.

The tables agree with the activity throughout a sequence of calls exactly if no exit in
it is unmatched and no function is nested 2^32 times (`agreesThroughout_iff`): the test
for an unmatched exit asks whether an unsigned number is below zero.
-/

namespace Pebil

/-- The two calls of the timer. -/
inductive TimerFunction where
  | functionEntry
  | functionExit
  deriving DecidableEq, Repr

/-- A call as the run time sees it: which function, and the time-stamp counter. -/
structure TimerCall where
  call : TimerFunction
  funcIndex : Nat
  now : BitVec 64
  deriving DecidableEq, Repr

/-- `FunctionTimers`, the tables of one thread. -/
structure FunctionTimers where
  functionTimerAccum : Nat → BitVec 64
  functionTimerLast : Nat → BitVec 64
  inFunction : Nat → BitVec 32

namespace FunctionTimers

/-- `GenerateFunctionTimers`: all zero. -/
def generate : FunctionTimers where
  functionTimerAccum _ := 0
  functionTimerLast _ := 0
  inFunction _ := 0

/-- `function_entry`. -/
def functionEntry (timers : FunctionTimers) (funcIndex : Nat) (now : BitVec 64) :
    FunctionTimers :=
  { timers with
    functionTimerLast :=
      if timers.inFunction funcIndex = 0 then
        Function.update timers.functionTimerLast funcIndex now
      else timers.functionTimerLast
    inFunction := Function.update timers.inFunction funcIndex (timers.inFunction funcIndex + 1) }

/-- `function_exit`. -/
def functionExit (timers : FunctionTimers) (funcIndex : Nat) (now : BitVec 64) :
    FunctionTimers :=
  let recDepth := timers.inFunction funcIndex - 1
  if recDepth = 0 then
    let last := timers.functionTimerLast funcIndex
    { functionTimerAccum := Function.update timers.functionTimerAccum funcIndex
        (timers.functionTimerAccum funcIndex + (now - last))
      functionTimerLast := Function.update timers.functionTimerLast funcIndex now
      inFunction := Function.update timers.inFunction funcIndex recDepth }
  else
    -- `recDepth` is a `uint32_t`
    { timers with
      inFunction := Function.update timers.inFunction funcIndex
        (if recDepth < 0 then 0 else recDepth) }

/-- A call of either function. -/
def step (timers : FunctionTimers) (c : TimerCall) : FunctionTimers :=
  match c.call with
  | .functionEntry => timers.functionEntry c.funcIndex c.now
  | .functionExit => timers.functionExit c.funcIndex c.now

end FunctionTimers

/-! ## What the tables are for -/

/-- The open activations of each function, when the outermost began, and the time spent in
outermost activations so far. -/
structure Activity where
  openCount : Nat → Nat
  since : Nat → BitVec 64
  spent : Nat → BitVec 64

namespace Activity

def start : Activity where
  openCount _ := 0
  since _ := 0
  spent _ := 0

def enter (a : Activity) (f : Nat) (now : BitVec 64) : Activity :=
  { a with
    openCount := Function.update a.openCount f (a.openCount f + 1)
    since := if a.openCount f = 0 then Function.update a.since f now else a.since }

/-- An exit without an entry changes nothing. -/
def leave (a : Activity) (f : Nat) (now : BitVec 64) : Activity :=
  if a.openCount f = 0 then a
  else
    { a with
      openCount := Function.update a.openCount f (a.openCount f - 1)
      spent := if a.openCount f = 1 then
          Function.update a.spent f (a.spent f + (now - a.since f))
        else a.spent }

def step (a : Activity) (c : TimerCall) : Activity :=
  match c.call with
  | .functionEntry => a.enter c.funcIndex c.now
  | .functionExit => a.leave c.funcIndex c.now

/-- The call is no unmatched exit and does not nest its function 2^32 deep. -/
def Matches (a : Activity) (c : TimerCall) : Prop :=
  match c.call with
  | .functionEntry => a.openCount c.funcIndex + 1 < 2 ^ 32
  | .functionExit => 0 < a.openCount c.funcIndex

/-- All calls of a sequence match. -/
def Matched (a : Activity) : List TimerCall → Prop
  | [] => True
  | c :: cs => a.Matches c ∧ (a.step c).Matched cs

end Activity

/-- The tables show the activity. -/
structure Agrees (timers : FunctionTimers) (a : Activity) : Prop where
  inFunction : ∀ f, (timers.inFunction f).toNat = a.openCount f
  accum : ∀ f, timers.functionTimerAccum f = a.spent f

/-- They do before and after every call of a sequence. -/
def AgreesThroughout (timers : FunctionTimers) (a : Activity) : List TimerCall → Prop
  | [] => Agrees timers a
  | c :: cs => Agrees timers a ∧ AgreesThroughout (timers.step c) (a.step c) cs

/-- What is needed of the tables besides. -/
structure Tracks (timers : FunctionTimers) (a : Activity) : Prop extends Agrees timers a where
  last : ∀ f, 0 < a.openCount f → timers.functionTimerLast f = a.since f

variable {timers : FunctionTimers} {a : Activity}

theorem Tracks.enter (h : Tracks timers a) {f : Nat} (hlt : a.openCount f + 1 < 2 ^ 32)
    (now : BitVec 64) : Tracks (timers.functionEntry f now) (a.enter f now) := by
  have hzero : timers.inFunction f = 0 ↔ a.openCount f = 0 := by
    rw [← h.inFunction f, ← BitVec.toNat_inj]
    rfl
  refine ⟨⟨fun g => ?_, fun g => h.accum g⟩, fun g hg => ?_⟩
  · by_cases hgf : g = f
    · subst hgf
      simp only [FunctionTimers.functionEntry, Activity.enter, Function.update_self]
      rw [BitVec.toNat_add, h.inFunction g]
      exact Nat.mod_eq_of_lt hlt
    · simp only [FunctionTimers.functionEntry, Activity.enter, Function.update_of_ne hgf]
      exact h.inFunction g
  · simp only [FunctionTimers.functionEntry, Activity.enter] at hg ⊢
    by_cases ho : a.openCount f = 0
    · rw [if_pos ho, if_pos (hzero.mpr ho)]
      by_cases hgf : g = f
      · subst hgf
        rw [Function.update_self, Function.update_self]
      · rw [Function.update_of_ne hgf] at hg
        rw [Function.update_of_ne hgf, Function.update_of_ne hgf]
        exact h.last g hg
    · rw [if_neg ho, if_neg (mt hzero.mp ho)]
      refine h.last g ?_
      by_cases hgf : g = f
      · subst hgf
        omega
      · rwa [Function.update_of_ne hgf] at hg

theorem Tracks.leave (h : Tracks timers a) {f : Nat} (hpos : 0 < a.openCount f) (now : BitVec 64) :
    Tracks (timers.functionExit f now) (a.leave f now) := by
  have hdepth : (timers.inFunction f - 1).toNat = a.openCount f - 1 := by
    have hin := h.inFunction f
    rw [BitVec.toNat_sub_of_le (BitVec.le_def.mpr (by rw [hin]; exact hpos)), hin]
    rfl
  have hone : timers.inFunction f - 1 = 0 ↔ a.openCount f = 1 := by
    rw [← BitVec.toNat_inj, hdepth]
    show a.openCount f - 1 = 0 ↔ _
    omega
  have hnot : ¬timers.inFunction f - 1 < 0 := BitVec.not_lt_zero
  have hopen : ¬a.openCount f = 0 := by omega
  rw [FunctionTimers.functionExit, Activity.leave, if_neg hopen]
  by_cases h1 : a.openCount f = 1
  · simp only [if_pos (hone.mpr h1), if_pos h1]
    refine ⟨⟨fun g => ?_, fun g => ?_⟩, fun g hg => ?_⟩
    · by_cases hgf : g = f
      · subst hgf
        simp only [Function.update_self, hdepth]
      · simp only [Function.update_of_ne hgf, h.inFunction g]
    · by_cases hgf : g = f
      · subst hgf
        simp only [Function.update_self, h.accum g, h.last g hpos]
      · simp only [Function.update_of_ne hgf, h.accum g]
    · by_cases hgf : g = f
      · subst hgf
        simp [h1] at hg
      · simp only [Function.update_of_ne hgf] at hg ⊢
        exact h.last g hg
  · simp only [if_neg (mt hone.mp h1), if_neg h1, if_neg hnot]
    refine ⟨⟨fun g => ?_, fun g => h.accum g⟩, fun g hg => h.last g ?_⟩
    · by_cases hgf : g = f
      · subst hgf
        simp only [Function.update_self, hdepth]
      · simp only [Function.update_of_ne hgf, h.inFunction g]
    · by_cases hgf : g = f
      · subst hgf
        exact hpos
      · simpa only [Function.update_of_ne hgf] using hg

/-- A call that matches keeps the tables right. -/
theorem Tracks.step (h : Tracks timers a) {c : TimerCall} (hc : a.Matches c) :
    Tracks (timers.step c) (a.step c) := by
  obtain ⟨call, f, now⟩ := c
  cases call with
  | functionEntry => exact h.enter hc now
  | functionExit => exact h.leave hc now

/-- A call that does not match leaves them wrong. -/
theorem Agrees.not_step (h : Agrees timers a) {c : TimerCall} (hc : ¬a.Matches c) :
    ¬Agrees (timers.step c) (a.step c) := by
  obtain ⟨call, f, now⟩ := c
  intro h'
  have hf := h'.inFunction f
  have hin := h.inFunction f
  cases call with
  | functionEntry =>
    have hge : ¬a.openCount f + 1 < 2 ^ 32 := hc
    have hlt := ((FunctionTimers.functionEntry timers f now).inFunction f).isLt
    have hopen : ((a.enter f now).openCount f) = a.openCount f + 1 := Function.update_self ..
    have hf : ((FunctionTimers.functionEntry timers f now).inFunction f).toNat =
        (a.enter f now).openCount f := hf
    omega
  | functionExit =>
    -- the depth goes below zero, and around
    have hzero : a.openCount f = 0 := Nat.eq_zero_of_not_pos hc
    have hin0 : timers.inFunction f = 0 := BitVec.eq_of_toNat_eq (hin.trans hzero)
    have hopen : (a.leave f now).openCount f = 0 := by rw [Activity.leave, if_pos hzero, hzero]
    have hne : ¬((0 : BitVec 32) - 1 = 0) := by decide
    have hdepth : (timers.functionExit f now).inFunction f = 0 - 1 := by
      simp only [FunctionTimers.functionExit, hin0]
      rw [if_neg hne]
      exact (Function.update_self ..).trans (if_neg BitVec.not_lt_zero)
    have hf : ((timers.functionExit f now).inFunction f).toNat = (a.leave f now).openCount f := hf
    rw [hdepth, hopen] at hf
    exact absurd hf (by decide)

/-- The tables show the activity throughout exactly if all calls match. -/
theorem agreesThroughout_iff_matched (h : Tracks timers a) (cs : List TimerCall) :
    AgreesThroughout timers a cs ↔ a.Matched cs := by
  induction cs generalizing timers a with
  | nil => exact iff_of_true h.toAgrees trivial
  | cons c cs ih =>
    rw [AgreesThroughout, Activity.Matched, and_iff_right h.toAgrees]
    by_cases hc : a.Matches c
    · rw [and_iff_right hc]
      exact ih (h.step hc)
    · refine iff_of_false (fun hagrees => h.toAgrees.not_step hc ?_) fun hm => hc hm.1
      cases cs with
      | nil => exact hagrees
      | cons _ _ => exact hagrees.1

theorem tracks_start : Tracks FunctionTimers.generate Activity.start :=
  ⟨⟨fun _ => rfl, fun _ => rfl⟩, fun _ h => absurd h (Nat.lt_irrefl 0)⟩

end Pebil

import Mathlib.Data.Nat.Periodic
import Mathlib.Order.Interval.Finset.Nat
import Pebil.Runtime.Sampling

/-!
# The sampling window (instcode/Simulation.cpp:1263–1313)

The sampler samples `SampleOn` accesses and then skips `SampleOff`. `CurrentlySampling` adds the
two in 32 bits. A sum that wraps around is too short, and every access is sampled; a sum of
exactly 2^32 is 0, and although the source sets `res` for it, it divides by it in the next
statement. Whatever the history of the counter, the windows are right if and only if the sum
does not wrap around or nothing is sampled at all (`windowed_iff`).
-/

namespace Pebil

namespace SamplingMethod

variable (s : SamplingMethod)

/-- `PeriodLength`. -/
def periodLength : Nat := (s.sampleOn + s.sampleOff) % 2 ^ 32

/-- `CurrentlySampling(count)`; none if it divides by zero. -/
def checkedSampling (count : Nat) : Option Bool :=
  if s.sampleOn = 0 then some false
  -- the branch for this only sets `res`, the division comes after it
  else if s.periodLength = 0 then none
  else some (decide ((s.accessCount + count) % 2 ^ 64 % s.periodLength < s.sampleOn))

/-- `SwitchesMode(count)`; none if it divides by zero. -/
def checkedSwitchesMode (count : Nat) : Option Bool :=
  (s.checkedSampling 0).bind fun now => (s.checkedSampling count).map fun later => now != later

/-- The constructor, and `IncrementAccessCount` with each of some amounts. -/
def ofHistory (limit on off : Nat) (amounts : List Nat) : SamplingMethod :=
  amounts.foldl incrementAccessCount ⟨limit, on, off, 0⟩

/-- What the sampler answers for the access with the number `c`. -/
def samplingAt (c : Nat) : Option Bool :=
  s.checkedSampling ((c + 2 ^ 64 - s.accessCount) % 2 ^ 64)

/-- The windows are as `SampleOn` and `SampleOff` say. A phase change is noticed by its two
ends, so the last field is about increments that end before the phase after the next one. -/
structure Windowed : Prop where
  answers : ∀ count, (s.checkedSampling count).isSome ∧ (s.checkedSwitchesMode count).isSome
  window : ∀ n, n + (s.sampleOn + s.sampleOff) ≤ 2 ^ 64 →
    ((Finset.Ico n (n + (s.sampleOn + s.sampleOff))).filter
      fun c => s.samplingAt c = some true).card = s.sampleOn
  switches : ∀ count, s.checkedSwitchesMode count = some true ↔
    (s.incrementAccessCount count).checkedSampling 0 ≠ s.checkedSampling 0
  crosses : ∀ count, s.checkedSwitchesMode count = some true →
    ∃ k < count, s.checkedSampling k ≠ s.checkedSampling (k + 1)
  boundary : ∀ count, count ≤ s.sampleOn → count ≤ s.sampleOff →
    s.accessCount + count < 2 ^ 64 →
    (∃ k < count, s.checkedSampling k ≠ s.checkedSampling (k + 1)) →
    s.checkedSwitchesMode count = some true

variable {s}

/-- Where the division is possible, the answer is that of `currentlySampling`. -/
theorem currentlySampling_of_checked {count : Nat} {b : Bool}
    (h : s.checkedSampling count = some b) : s.currentlySampling count = b := by
  unfold checkedSampling periodLength at h
  unfold currentlySampling
  split_ifs at h with hon hperiod
  · simpa [hon] using h
  · rw [if_neg hon, decide_eq_false hperiod, Bool.false_or]
    exact Option.some.inj h

theorem checkedSampling_isSome_iff {count : Nat} :
    (s.checkedSampling count).isSome ↔ s.sampleOn = 0 ∨ s.periodLength ≠ 0 := by
  unfold checkedSampling
  split_ifs <;> simp_all

theorem checkedSampling_incrementAccessCount (count : Nat) :
    (s.incrementAccessCount count).checkedSampling 0 = s.checkedSampling count := by
  have hcount : ((s.accessCount + count) % 2 ^ 64 + 0) % 2 ^ 64 = (s.accessCount + count) % 2 ^ 64 :=
    Nat.mod_mod ..
  unfold checkedSampling periodLength incrementAccessCount
  simp only [hcount]

/-- With answers to both questions, `SwitchesMode` compares them. -/
theorem checkedSwitchesMode_iff (hsome : ∀ count, (s.checkedSampling count).isSome) (count : Nat) :
    s.checkedSwitchesMode count = some true ↔ s.checkedSampling count ≠ s.checkedSampling 0 := by
  obtain ⟨now, hnow⟩ := Option.isSome_iff_exists.mp (hsome 0)
  obtain ⟨later, hlater⟩ := Option.isSome_iff_exists.mp (hsome count)
  rw [checkedSwitchesMode, hnow, hlater]
  cases now <;> cases later <;> simp

/-- Two different answers have a change between them. -/
theorem exists_change {α : Type*} {f : Nat → α} {count : Nat} (h : f count ≠ f 0) :
    ∃ k < count, f k ≠ f (k + 1) := by
  induction count with
  | zero => exact absurd rfl h
  | succ count ih =>
    by_cases heq : f count = f (count + 1)
    · obtain ⟨k, hk, hne⟩ := ih (heq ▸ h)
      exact ⟨k, by omega, hne⟩
    · exact ⟨count, by omega, heq⟩

section History

variable {limit on off : Nat} {amounts : List Nat}

theorem foldl_incrementAccessCount (s : SamplingMethod) (amounts : List Nat) :
    (amounts.foldl incrementAccessCount s).sampleOn = s.sampleOn ∧
      (amounts.foldl incrementAccessCount s).sampleOff = s.sampleOff ∧
      (s.accessCount < 2 ^ 64 → (amounts.foldl incrementAccessCount s).accessCount < 2 ^ 64) := by
  induction amounts generalizing s with
  | nil => exact ⟨rfl, rfl, id⟩
  | cons amount amounts ih =>
    obtain ⟨hon, hoff, hcount⟩ := ih (s.incrementAccessCount amount)
    exact ⟨hon, hoff, fun _ => hcount (Nat.mod_lt _ (by decide))⟩

@[simp] theorem ofHistory_sampleOn : (ofHistory limit on off amounts).sampleOn = on :=
  (foldl_incrementAccessCount _ amounts).1

@[simp] theorem ofHistory_sampleOff : (ofHistory limit on off amounts).sampleOff = off :=
  (foldl_incrementAccessCount _ amounts).2.1

theorem ofHistory_accessCount_lt : (ofHistory limit on off amounts).accessCount < 2 ^ 64 :=
  (foldl_incrementAccessCount _ amounts).2.2 (Nat.two_pow_pos 64)

end History

/-! ## Windows -/

theorem samplingAt_eq (hcount : s.accessCount < 2 ^ 64) {c : Nat} (hc : c < 2 ^ 64)
    (hon : s.sampleOn ≠ 0) (hperiod : s.periodLength ≠ 0) :
    s.samplingAt c = some (decide (c % s.periodLength < s.sampleOn)) := by
  have hback : (s.accessCount + (c + 2 ^ 64 - s.accessCount) % 2 ^ 64) % 2 ^ 64 = c := by omega
  rw [samplingAt, checkedSampling, if_neg hon, if_neg hperiod, hback]

/-- Among the accesses of a window, as many are sampled as below the period's length. -/
theorem card_window (hcount : s.accessCount < 2 ^ 64) (hon : s.sampleOn ≠ 0)
    (hperiod : s.periodLength ≠ 0) {n len : Nat} (hn : n + len ≤ 2 ^ 64) :
    ((Finset.Ico n (n + len)).filter fun c => s.samplingAt c = some true).card =
      ((Finset.Ico n (n + len)).filter fun c => c % s.periodLength < s.sampleOn).card := by
  refine congrArg Finset.card (Finset.filter_congr fun c hc => ?_)
  have hlt := (Finset.mem_Ico.mp hc).2
  rw [samplingAt_eq hcount (by omega) hon hperiod]
  simp

theorem card_sampled {on len : Nat} (h : on ≤ len) (n : Nat) :
    ((Finset.Ico n (n + len)).filter fun c => c % len < on).card = on := by
  have hperiodic : Function.Periodic (fun c => c % len < on) len := fun c => by
    simp only [Nat.add_mod_right]
  rw [Nat.filter_Ico_card_eq_of_periodic n len _ hperiodic, Nat.count_eq_card_filter_range]
  have hrange : (Finset.range len).filter (fun c => c % len < on) = Finset.range on := by
    ext c
    simp only [Finset.mem_filter, Finset.mem_range]
    constructor
    · rintro ⟨hc, hlt⟩
      rwa [Nat.mod_eq_of_lt hc] at hlt
    · intro hc
      rw [Nat.mod_eq_of_lt (by omega)]
      omega
  rw [hrange, Finset.card_range]

/-- A change within a phase's length is not undone by its end. -/
theorem sampled_ne {on off a k count : Nat} (hcount : count ≤ on) (hcount' : count ≤ off)
    (hk : k < count)
    (hne : ¬((a + k) % (on + off) < on ↔ (a + (k + 1)) % (on + off) < on)) :
    ¬((a + count) % (on + off) < on ↔ a % (on + off) < on) := by
  have hpos : 0 < on + off := by omega
  have hlt := Nat.mod_lt a hpos
  have hstep : ∀ i, (a + i) % (on + off) = (a % (on + off) + i) % (on + off) := fun i => by
    rw [Nat.mod_add_mod]
  have hwrap : ∀ i ≤ count, (a % (on + off) + i) % (on + off) =
      if a % (on + off) + i < on + off then a % (on + off) + i
      else a % (on + off) + i - (on + off) := by
    intro i hi
    split_ifs with h
    · exact Nat.mod_eq_of_lt h
    · rw [Nat.mod_eq_sub_mod (by omega), Nat.mod_eq_of_lt (by omega)]
  rw [hstep k, hstep (k + 1), hwrap k (by omega), hwrap (k + 1) (by omega)] at hne
  rw [hstep count, hwrap count (le_refl _)]
  generalize a % (on + off) = r at *
  split_ifs at * <;> omega

/-- The sampler's windows, of every history, if and only if the period is the sum of its
phases or there is no sampling. -/
theorem windowed_iff (limit : Nat) {on off : Nat} (hon : on < 2 ^ 32) (hoff : off < 2 ^ 32)
    (amounts : List Nat) :
    (ofHistory limit on off amounts).Windowed ↔ on = 0 ∨ on + off < 2 ^ 32 := by
  have hcount : (ofHistory limit on off amounts).accessCount < 2 ^ 64 := ofHistory_accessCount_lt
  have hson : (ofHistory limit on off amounts).sampleOn = on := ofHistory_sampleOn
  have hsoff : (ofHistory limit on off amounts).sampleOff = off := ofHistory_sampleOff
  generalize ofHistory limit on off amounts = s at *
  constructor
  · intro h
    by_contra hnot
    obtain ⟨hpos, hwraps⟩ := not_or.mp hnot
    have hsome := checkedSampling_isSome_iff.mp (h.answers 0).1
    rw [hson] at hsome
    have hperiod := hsome.resolve_left hpos
    -- the period has lost 2^32, so it is shorter than the sampled phase
    have hlen : s.periodLength = on + off - 2 ^ 32 := by
      rw [periodLength, hson, hsoff]
      omega
    have hwindow := h.window 0 (by omega)
    rw [card_window hcount (by omega) hperiod (by omega), hson, hsoff,
      Finset.filter_true_of_mem] at hwindow
    · simp at hwindow
      omega
    · intro c _
      have := Nat.mod_lt c (Nat.pos_of_ne_zero hperiod)
      omega
  · intro h
    have hsome : ∀ count, (s.checkedSampling count).isSome := fun count =>
      checkedSampling_isSome_iff.mpr (by
        rw [hson, periodLength, hson, hsoff]
        omega)
    constructor
    case answers =>
      intro count
      refine ⟨hsome count, ?_⟩
      obtain ⟨now, hnow⟩ := Option.isSome_iff_exists.mp (hsome 0)
      obtain ⟨later, hlater⟩ := Option.isSome_iff_exists.mp (hsome count)
      rw [checkedSwitchesMode, hnow, hlater]
      rfl
    case window =>
      intro n hn
      rcases h with rfl | hlt
      · have hnone : ∀ c, s.samplingAt c = some false := fun c => by
          rw [samplingAt, checkedSampling, if_pos hson]
        simp [hnone, hson]
      · by_cases hzero : on = 0
        · have hnone : ∀ c, s.samplingAt c = some false := fun c => by
            rw [samplingAt, checkedSampling, if_pos (hson.trans hzero)]
          simp [hnone, hson, hzero]
        · have hlen : s.periodLength = on + off := by
            rw [periodLength, hson, hsoff, Nat.mod_eq_of_lt hlt]
          rw [hson, hsoff] at hn ⊢
          rw [card_window hcount (by omega) (by omega) hn, hlen, hson]
          exact card_sampled (by omega) n
    case switches =>
      intro count
      rw [checkedSwitchesMode_iff hsome, checkedSampling_incrementAccessCount]
    case crosses =>
      intro count hswitch
      exact exists_change ((checkedSwitchesMode_iff hsome count).mp hswitch)
    case boundary =>
      rintro count hcon hcoff hfits ⟨k, hk, hne⟩
      rw [checkedSwitchesMode_iff hsome]
      rw [hson] at hcon
      rw [hsoff] at hcoff
      have hlen : s.periodLength = on + off := by
        rw [periodLength, hson, hsoff, Nat.mod_eq_of_lt (by omega)]
      have hanswer : ∀ i ≤ count, s.checkedSampling i =
          some (decide ((s.accessCount + i) % (on + off) < on)) := by
        intro i hi
        rw [checkedSampling, if_neg (by omega), if_neg (by omega), hlen, hson,
          Nat.mod_eq_of_lt (show s.accessCount + i < 2 ^ 64 by omega)]
      rw [hanswer k (by omega), hanswer (k + 1) (by omega)] at hne
      rw [hanswer count (le_refl _), hanswer 0 (by omega)]
      simp only [ne_eq, Option.some.injEq, decide_eq_decide, Nat.add_zero] at hne ⊢
      exact sampled_ne hcon hcoff hk hne

theorem windowed_iff_default : 1000000 < 2 ^ 32 ∧ 100000000 < 2 ^ 32 ∧
    (ofHistory 0 1000000 100000000 [65536, 65536]).Windowed :=
  ⟨by decide, by decide, (windowed_iff 0 (by decide) (by decide) [65536, 65536]).mpr (by decide)⟩

/-- 2^31 accesses of each kind: the first question divides by zero. -/
theorem not_windowed_of_zero_period : ¬ ∀ limit on off, on < 2 ^ 32 → off < 2 ^ 32 →
    ∀ amounts, (ofHistory limit on off amounts).Windowed := by
  intro h
  have hnone := ((h 0 (2 ^ 31) (2 ^ 31) (by decide) (by decide) []).answers 0).1
  simp [ofHistory, checkedSampling, periodLength] at hnone

end SamplingMethod

end Pebil

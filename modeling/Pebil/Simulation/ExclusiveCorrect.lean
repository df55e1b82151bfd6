import Pebil.Simulation.Exclusive

/-!
# Smooth runs keep the exclusive group

One access is followed through its visits by the invariant `Phase`: it seeks its
line (`Seeking`), or it carries a line down the group (`Carrying`), or it is over.
While a line that was found is carried down, the slot it was found in counts as a
hole, so that what is in the slots and in hand stays distinct and stays the same;
the visit of the level that hit fills the hole (`Carrying.victimize`).
-/

namespace Pebil.CacheStructureHandler

variable {h : CacheStructureHandler} {rand : Nat → Nat} {first bits : Nat}

/-- The hierarchies considered: the group starts at `first`, every level can be
indexed, and the levels of the group have one line size. -/
structure Uniform (h : CacheStructureHandler) (first bits : Nat) : Prop where
  firstExcl : h.firstExcl = some first
  usable : ∀ c ∈ h.levels, c.Usable
  linesizeBits : ∀ i c, first ≤ i → h.levels[i]? = some c → c.linesizeBits = bits

theorem Uniform.usable_get (hu : h.Uniform first bits) {i : Nat} {c : CacheLevel}
    (hc : h.levels[i]? = some c) : c.Usable :=
  hu.usable c (List.mem_of_getElem? hc)

theorem Uniform.getStorage (hu : h.Uniform first bits) {i : Nat} {c : CacheLevel} (addr : Nat)
    (hi : first ≤ i) (hc : h.levels[i]? = some c) : c.getStorage addr = addr >>> bits := by
  rw [CacheLevel.getStorage, hu.linesizeBits i c hi hc]

/-- The group between two accesses. -/
structure GroupOk (h : CacheStructureHandler) (first : Nat) (st : HandlerState) : Prop where
  levels : h.LevelsOk first st
  distinct : Distinct (h.line first st) 0

/-- The visits in which the access has found nothing yet: levels it has not visited,
and levels of the group, are as they were. -/
structure Seeking (h : CacheStructureHandler) (first : Nat) (a : Access) (st₀ : HandlerState)
    (v : Visit) : Prop where
  lt : v.next < h.levels.length
  level : v.info.level = invalidCacheLevel
  sets : ∀ j, first ≤ j ∨ v.next ≤ j → v.state.sets j = st₀.sets j
  draws : v.state.draws = st₀.draws + min v.next first
  missed : ∀ j < v.next, h.Misses st₀ a j

/-- The slots with the hole counted as empty. -/
def holed (h : CacheStructureHandler) (first : Nat) (hole : Option Slot) (st : HandlerState) :
    Slot → Nat :=
  match hole with
  | none => h.line first st
  | some p => Function.update (h.line first st) p 0

/-- The hole is the slot the eviction record names, it still holds the line that was
found, and the line that will arrive there belongs to its set. -/
structure HoleOk (h : CacheStructureHandler) (rand : Nat → Nat) (p : Slot) (v : Visit) :
    Prop where
  level : p.level = v.info.level
  set : p.set = v.info.setid
  way : p.way = v.info.lineid
  lt : v.info.level < h.levels.length
  valid : ∀ c, h.levels[p.level]? = some c → p.set < c.countsets ∧ p.way < c.associativity
  arrives : ∀ c, h.levels[p.level]? = some c →
    c.getSet (h.arriving rand v.state.sets (v.info.level - v.next) v.next v.state.draws
      v.info.addr) = p.set

/-- The visits in which the access carries a line down the group. -/
structure Carrying (h : CacheStructureHandler) (rand : Nat → Nat) (first line₀ : Nat)
    (st₀ : HandlerState) (hole : Option Slot) (v : Visit) : Prop where
  first_le : first ≤ v.next
  lt : v.next < h.levels.length
  le : v.next ≤ v.info.level
  level : v.info.level ≠ invalidCacheLevel
  levels : h.LevelsOk first v.state
  distinct : Distinct (holed h first hole v.state) v.info.addr
  held : ∀ l ≠ 0, Held (holed h first hole v.state) v.info.addr l ↔
    h.Resident first st₀ l ∨ line₀ = l
  atEnd : hole = none → v.info.level = h.levels.length
  source : ∀ p, hole = some p → HoleOk h rand p v ∧ h.Resident first st₀ line₀

/-- What one access leaves behind. -/
structure Done (h : CacheStructureHandler) (first line₀ : Nat) (a : Access)
    (st₀ st : HandlerState) : Prop where
  group : GroupOk h first st
  resident : ∀ l ≠ 0, h.Resident first st l → h.Resident first st₀ l ∨ line₀ = l
  permuted : (∃ k ≥ first, h.HitsAt st₀ a k) →
    ∀ l ≠ 0, h.Resident first st l ↔ h.Resident first st₀ l

/-- The invariant of the visits of one access. -/
inductive Phase (h : CacheStructureHandler) (rand : Nat → Nat) (first line₀ : Nat) (a : Access)
    (st₀ : HandlerState) (v : Visit) : Prop where
  | seeking : Seeking h first a st₀ v → Phase h rand first line₀ a st₀ v
  | carrying (hole : Option Slot) : Carrying h rand first line₀ st₀ hole v →
      ((∃ k ≥ first, h.HitsAt st₀ a k) → hole ≠ none) → Phase h rand first line₀ a st₀ v
  | done : h.levels.length ≤ v.next → Done h first line₀ a st₀ v.state →
      Phase h rand first line₀ a st₀ v

/-- The visits that are left at most. -/
def remaining (h : CacheStructureHandler) (v : Visit) : Nat :=
  if h.levels.length ≤ v.next then 0
  else if v.info.level = invalidCacheLevel then 2 * h.levels.length + 1 - v.next
  else h.levels.length - v.next

theorem length_lt_invalid (h : CacheStructureHandler) : h.levels.length < invalidCacheLevel := by
  have := h.count_le
  unfold invalidCacheLevel
  omega

/-! ## Carrying a line down -/

section Carrying

variable {line₀ : Nat} {st₀ : HandlerState} {hole : Option Slot} {v : Visit} {c : CacheLevel}

/-- The slot that `victimize` writes is not in another slot's way: the line in hand is
nowhere else in its set. -/
theorem Carrying.fresh (hv : Carrying h rand first line₀ st₀ hole v)
    (hc : h.levels[v.next]? = some c) (hset : c.getSet v.info.addr < c.countsets) {w : Nat}
    (hhole : ∀ p, hole = some p → p.level = v.next → p.set = c.getSet v.info.addr →
      p.way = w) :
    v.info.addr ≠ 0 → ∀ u < c.associativity,
      (v.state.sets v.next (c.getSet v.info.addr)).contents u = v.info.addr → u = w := by
  intro hne u hu hval
  by_contra huw
  have hline : h.line first v.state ⟨v.next, c.getSet v.info.addr, u⟩ = v.info.addr := by
    rw [line_eq (c := c) hc, if_pos ⟨hv.first_le, hset, hu⟩]
    exact hval
  have hhand := hv.distinct.hand hne ⟨v.next, c.getSet v.info.addr, u⟩
  cases hole with
  | none => exact hhand hline
  | some p =>
    simp only [holed] at hhand
    by_cases hp : (⟨v.next, c.getSet v.info.addr, u⟩ : Slot) = p
    · have hw := hhole p rfl (by rw [← hp]) (by rw [← hp])
      rw [← hp] at hw
      exact huw hw
    · rw [Function.update_of_ne hp] at hhand
      exact hhand hline

/-- A level above the one that hit, or any level after a miss: the line that
`LineToReplace` picks gives way to the line in hand. -/
theorem victimize_pass (hc : h.levels[v.next]? = some c) (hne : v.next ≠ v.info.level) :
    victimize rand c v =
      { next := v.next + 1
        info := { v.info with
          addr := (v.state.sets v.next (c.getSet v.info.addr)).contents
            (c.lineToReplace (v.state.sets v.next (c.getSet v.info.addr))
              (rand v.state.draws)) }
        state := (v.state.setSet v.next (c.getSet v.info.addr)
          (c.replace (v.state.sets v.next (c.getSet v.info.addr)) v.info.addr
            (c.lineToReplace (v.state.sets v.next (c.getSet v.info.addr))
              (rand v.state.draws))).1).draw } := by
  have hlevel := h.level_eq v.next c hc
  unfold victimize
  simp only [hlevel, hne, false_and, if_false, CacheLevel.replace_evicted]

theorem Carrying.pass_ok (hu : h.Uniform first bits)
    (hv : Carrying h rand first line₀ st₀ hole v) (hc : h.levels[v.next]? = some c)
    (hne : v.next ≠ v.info.level) :
    (v.next + 1 < h.levels.length → Carrying h rand first line₀ st₀ hole (victimize rand c v)) ∧
      (v.next + 1 = h.levels.length → hole = none →
        GroupOk h first (victimize rand c v).state ∧
        ∀ l ≠ 0, h.Resident first (victimize rand c v).state l →
          h.Resident first st₀ l ∨ line₀ = l) := by
  have husable := hu.usable_get hc
  have hset : c.getSet v.info.addr < c.countsets := Nat.mod_lt _ husable.countsets_pos
  have hw : c.lineToReplace (v.state.sets v.next (c.getSet v.info.addr)) (rand v.state.draws) <
      c.associativity :=
    CacheLevel.lineToReplace_lt _ husable (hv.levels.inBounds v.next c hv.first_le hc _)
  rw [victimize_pass hc hne]
  generalize hweq : c.lineToReplace (v.state.sets v.next (c.getSet v.info.addr))
    (rand v.state.draws) = w at hw
  have hother : ∀ p, hole = some p → p.level ≠ v.next := by
    intro p hp hl
    exact hne (hl.symm.trans (hv.source p hp).1.level)
  have hfresh := hv.fresh hc hset (w := w) fun p hp hl => absurd hl (hother p hp)
  have hlevels := (hv.levels.replace hc hv.first_le husable hw hfresh).draw
  have hline := line_replace v.state v.info.addr hc hv.first_le hset hw
  -- the hole is at another level, so that the write commutes with it
  have hheld : holed h first hole (v.state.setSet v.next (c.getSet v.info.addr)
      (c.replace (v.state.sets v.next (c.getSet v.info.addr)) v.info.addr w).1) =
      Function.update (holed h first hole v.state) ⟨v.next, c.getSet v.info.addr, w⟩
        v.info.addr := by
    cases hole with
    | none => exact hline
    | some p =>
      simp only [holed]
      rw [hline]
      refine Function.update_comm (fun heq => hother p rfl ?_) _ _ _
      rw [← heq]
  have hout : holed h first hole v.state ⟨v.next, c.getSet v.info.addr, w⟩ =
      (v.state.sets v.next (c.getSet v.info.addr)).contents w := by
    have hval : h.line first v.state ⟨v.next, c.getSet v.info.addr, w⟩ =
        (v.state.sets v.next (c.getSet v.info.addr)).contents w := by
      rw [line_eq (c := c) hc, if_pos ⟨hv.first_le, hset, hw⟩]
    cases hole with
    | none => exact hval
    | some p =>
      simp only [holed]
      rw [Function.update_of_ne fun heq => hother p rfl (by rw [← heq]), hval]
  have hdistinct := hv.distinct.put ⟨v.next, c.getSet v.info.addr, w⟩
  have hheldput : ∀ l ≠ 0, Held (Function.update (holed h first hole v.state)
      ⟨v.next, c.getSet v.info.addr, w⟩ v.info.addr)
      ((v.state.sets v.next (c.getSet v.info.addr)).contents w) l ↔
      h.Resident first st₀ l ∨ line₀ = l := by
    intro l hl
    rw [← hout, held_put]
    exact hv.held l hl
  rw [hout] at hdistinct
  have hle := hv.le
  constructor
  · intro hlt
    have hfirst := hv.first_le
    refine ⟨Nat.le_succ_of_le hfirst, hlt, by simp only; omega, hv.level, hlevels, ?_, ?_,
      hv.atEnd, ?_⟩
    · show Distinct (holed h first hole (v.state.setSet _ _ _)) _
      rw [hheld]
      exact hdistinct
    · intro l hl
      show Held (holed h first hole (v.state.setSet _ _ _)) _ l ↔ _
      rw [hheld]
      exact hheldput l hl
    · intro p hp
      obtain ⟨hok, hres⟩ := hv.source p hp
      refine ⟨⟨hok.level, hok.set, hok.way, hok.lt, hok.valid, fun c' hc' => ?_⟩, hres⟩
      have harr := hok.arrives c' hc'
      obtain ⟨count, hcount⟩ : ∃ count, v.info.level - v.next = count + 1 :=
        ⟨v.info.level - v.next - 1, by omega⟩
      rw [hcount] at harr
      unfold arriving at harr
      rw [hc] at harr
      simp only [hweq] at harr
      rw [show v.info.level - (v.next + 1) = count by omega, ← harr]
      congr 1
      refine arriving_congr fun j (hj : v.next + 1 ≤ j) _ => ?_
      funext t
      show (v.state.setSet _ _ _).sets j t = _
      rw [sets_setSet, if_neg (by omega)]
  · rintro hlast rfl
    refine ⟨⟨hlevels, ?_⟩, ?_⟩
    · have := hdistinct.drop
      rw [← hheld] at this
      exact this
    · intro l hl hres
      refine (hheldput l hl).mp (.inl ?_)
      rw [← hheld]
      exact hres

/-- The level that hit: the line in hand takes the place of the line that was found. -/
theorem Carrying.close (hu : h.Uniform first bits) {p : Slot}
    (hv : Carrying h rand first line₀ st₀ (some p) v) (hc : h.levels[v.next]? = some c)
    (heq : v.next = v.info.level) :
    (victimize rand c v).next = invalidCacheLevel ∧
      GroupOk h first (victimize rand c v).state ∧
      ∀ l ≠ 0, h.Resident first (victimize rand c v).state l ↔ h.Resident first st₀ l := by
  obtain ⟨hok, hres₀⟩ := hv.source p rfl
  have husable := hu.usable_get hc
  have hlevel := h.level_eq v.next c hc
  have hpl : p.level = v.next := hok.level.trans heq.symm
  obtain ⟨hpset, hpway⟩ := hok.valid c (hpl ▸ hc)
  have harr : c.getSet v.info.addr = p.set := by
    have harr := hok.arrives c (hpl ▸ hc)
    rwa [heq, Nat.sub_self] at harr
  have hstate : victimize rand c v =
      { next := invalidCacheLevel
        info := { v.info with
          addr := (v.state.sets v.next (c.getSet v.info.addr)).contents p.way }
        state := (v.state.setSet v.next (c.getSet v.info.addr)
          (c.replace (v.state.sets v.next (c.getSet v.info.addr)) v.info.addr p.way).1).draw } := by
    unfold victimize
    simp only [hlevel, ← heq, ← hok.way, ← hok.set, harr, and_self, if_true,
      CacheLevel.replace_evicted]
  have hset : c.getSet v.info.addr < c.countsets := harr ▸ hpset
  have hfresh := hv.fresh hc hset (w := p.way) fun q hq _ _ => by rw [← Option.some.inj hq]
  have hline := line_replace v.state v.info.addr hc hv.first_le hset hpway
  have hp : (⟨v.next, c.getSet v.info.addr, p.way⟩ : Slot) = p := by
    rw [harr, ← hpl]
  rw [hp] at hline
  rw [hstate]
  refine ⟨rfl, ⟨(hv.levels.replace hc hv.first_le husable hpway hfresh).draw, ?_⟩,
    fun l hl => ?_⟩
  · have := hv.distinct.put_hole
    rw [← hline] at this
    exact this
  · have hheld := held_put_hole (h.line first v.state) v.info.addr p hl
    rw [← hline] at hheld
    show (∃ q, h.line first (v.state.setSet _ _ _) q = l) ↔ _
    rw [hheld]
    refine (hv.held l hl).trans ⟨?_, .inl⟩
    rintro (hres | rfl)
    · exact hres
    · exact hres₀

end Carrying

/-! ## Seeking a line -/

section Seeking

variable {a : Access} {st₀ : HandlerState} {v : Visit} {c : CacheLevel} {w : Nat}

/-- A level that is visited for the first time is as it was before the access. -/
theorem Seeking.here (hv : Seeking h first a st₀ v) : v.state.sets v.next = st₀.sets v.next :=
  hv.sets v.next (.inr (Nat.le_refl _))

theorem Seeking.line (hv : Seeking h first a st₀ v) :
    h.line first v.state = h.line first st₀ :=
  line_congr fun j hj => hv.sets j (.inl hj)

theorem Seeking.levels (hv : Seeking h first a st₀ v) (hg : GroupOk h first st₀) :
    h.LevelsOk first v.state :=
  hg.levels.congr fun j hj => hv.sets j (.inl hj)

/-- A level the access misses is no obstacle to seeking on. -/
theorem Seeking.miss (hv : Seeking h first a st₀ v) (hc : h.levels[v.next]? = some c)
    (hmiss : c.search (v.state.sets v.next (c.getSet (c.getStorage a.address)))
      (c.getStorage a.address) = none) :
    ∀ j < v.next + 1, h.Misses st₀ a j := by
  intro j hj
  rcases Nat.lt_succ_iff_lt_or_eq.mp hj with hlt | rfl
  · exact hv.missed j hlt
  · intro c' hc'
    obtain rfl := Option.some.inj (hc.symm.trans hc')
    rwa [← hv.here]

theorem Seeking.hitsAt (hv : Seeking h first a st₀ v) (hc : h.levels[v.next]? = some c)
    (hhit : c.search (v.state.sets v.next (c.getSet (c.getStorage a.address)))
      (c.getStorage a.address) = some w) :
    h.HitsAt st₀ a v.next :=
  ⟨hv.missed, c, w, hc, by rwa [← hv.here]⟩

/-- An access that changes nothing in the group but the order of replacement. -/
theorem Done.of_line {st : HandlerState} {line₀ : Nat} (hlevels : h.LevelsOk first st)
    (hg : GroupOk h first st₀) (hline : h.line first st = h.line first st₀) :
    Done h first line₀ a st₀ st := by
  refine ⟨⟨hlevels, by rw [hline]; exact hg.distinct⟩, fun l _ hres => .inl ?_, fun _ l _ => ?_⟩
  · rwa [Resident, hline] at hres
  · rw [Resident, Resident, hline]

/-- A visit of an inclusive level ends the access or leaves the group as it was. -/
theorem Seeking.inclusive (rand : Nat → Nat) {line₀ : Nat} (hg : GroupOk h first st₀)
    (hv : Seeking h first a st₀ v) (hfirst : first < h.levels.length)
    (hc : h.levels[v.next]? = some c) (hlt : v.next < first) :
    Seeking h first a st₀ (inclusiveProcess rand c a v) ∧
        (inclusiveProcess rand c a v).next = v.next + 1 ∨
      h.levels.length ≤ (inclusiveProcess rand c a v).next ∧
        Done h first line₀ a st₀ (inclusiveProcess rand c a v).state := by
  have hlevel := h.level_eq v.next c hc
  unfold inclusiveProcess
  simp only [hlevel]
  split
  · rename_i w hhit
    refine .inr ⟨(length_lt_invalid h).le, ?_⟩
    have hsets : ∀ j ≥ first, ((v.state.countHit a.memseq v.next).setSet v.next
        (c.getSet (c.getStorage a.address)) (c.markUsed (v.state.sets v.next
          (c.getSet (c.getStorage a.address))) w)).sets j = st₀.sets j := by
      intro j hj
      funext t
      rw [sets_setSet, if_neg (by omega), ← hv.sets j (.inl hj)]
      rfl
    exact Done.of_line (hg.levels.congr hsets) hg (line_congr hsets)
  · rename_i hmiss
    refine .inl ⟨⟨by simp only; omega, hv.level, ?_, ?_, hv.miss hc hmiss⟩, rfl⟩
    · intro j hj
      replace hj : first ≤ j ∨ v.next + 1 ≤ j := hj
      have hset : ((v.state.countMiss a.memseq v.next).setSet v.next
          (c.getSet (c.getStorage a.address)) (c.replace (v.state.sets v.next
            (c.getSet (c.getStorage a.address))) (c.getStorage a.address)
            (c.lineToReplace (v.state.sets v.next (c.getSet (c.getStorage a.address)))
              (rand v.state.draws))).1).draw.sets j = v.state.sets j := by
        funext t
        show (HandlerState.setSet _ _ _ _).sets j t = _
        rw [sets_setSet, if_neg (by omega)]
        rfl
      rw [← hv.sets j (by omega)]
      exact hset
    · have hdraws := hv.draws
      show v.state.draws + 1 = st₀.draws + min (v.next + 1) first
      omega

/-- The access hits in the first level of the group: nothing moves. -/
theorem Seeking.lookUp_first (hu : h.Uniform first bits) (hg : GroupOk h first st₀)
    (hv : Seeking h first a st₀ v) (hc : h.levels[v.next]? = some c) (heq : v.next = first)
    (hne : a.address >>> bits ≠ 0)
    (hhit : c.search (v.state.sets v.next (c.getSet (a.address >>> bits)))
      (a.address >>> bits) = some w) :
    (lookUp c first (h.levels.length - 1) a v).next = invalidCacheLevel ∧
      Done h first (a.address >>> bits) a st₀
        (lookUp c first (h.levels.length - 1) a v).state := by
  subst heq
  have hlevel := h.level_eq v.next c hc
  have hw := (CacheLevel.search_some ((hv.levels hg).mapExact v.next c (Nat.le_refl _) hc _)
    hne hhit).1
  unfold lookUp
  simp only [hlevel, hu.getStorage a.address (Nat.le_refl _) hc, hhit, if_true, true_and]
  have hok : h.LevelsOk v.next (v.state.countHit a.memseq v.next) :=
    (hv.levels hg).congr fun _ _ => rfl
  refine Done.of_line (hok.markUsed hc (Nat.le_refl _) hw) hg ?_
  rw [show h.line v.next st₀ = h.line v.next (v.state.countHit a.memseq v.next) from
    hv.line.symm]
  exact line_markUsed (v.state.countHit a.memseq v.next)

/-- The access hits below the first level of the group: from here on it carries the
line it found, and the slot it was found in is the hole. -/
theorem Seeking.lookUp_below (hu : h.Uniform first bits) (hg : GroupOk h first st₀)
    (hs : h.Smooth rand first bits st₀ a) (hv : Seeking h first a st₀ v)
    (hc : h.levels[v.next]? = some c) (hlt : first < v.next) (hne : a.address >>> bits ≠ 0)
    (hhit : c.search (v.state.sets v.next (c.getSet (a.address >>> bits)))
      (a.address >>> bits) = some w) :
    (lookUp c first (h.levels.length - 1) a v).next = first ∧
      Carrying h rand first (a.address >>> bits) st₀
        (some ⟨v.next, c.getSet (a.address >>> bits), w⟩)
        (lookUp c first (h.levels.length - 1) a v) := by
  have hlevel := h.level_eq v.next c hc
  have hstorage := hu.getStorage a.address hlt.le hc
  obtain ⟨hw, hval⟩ := CacheLevel.search_some ((hv.levels hg).mapExact v.next c hlt.le hc _) hne hhit
  have hset : c.getSet (a.address >>> bits) < c.countsets :=
    Nat.mod_lt _ (hu.usable_get hc).countsets_pos
  have hhits : h.HitsAt st₀ a v.next := hv.hitsAt hc (by rwa [hstorage])
  have hsmooth := (hs fun j hj => hv.missed j (by omega)).2 v.next hlt hhits c hc
  have hslot : h.line first st₀ ⟨v.next, c.getSet (a.address >>> bits), w⟩ =
      a.address >>> bits := by
    rw [← hv.line, line_eq (c := c) hc, if_pos ⟨hlt.le, hset, hw⟩]
    exact hval
  have hok : h.LevelsOk first (v.state.countHit a.memseq v.next) :=
    (hv.levels hg).congr fun _ _ => rfl
  unfold lookUp
  simp only [hlevel, hstorage, hhit, hlt.ne', if_false, true_and]
  have hline : h.line first ((v.state.countHit a.memseq v.next).setSet v.next
      (c.getSet (a.address >>> bits)) (c.markUsed (v.state.sets v.next
        (c.getSet (a.address >>> bits))) w)) = h.line first st₀ := by
    rw [show h.line first st₀ = h.line first (v.state.countHit a.memseq v.next) from
      hv.line.symm]
    exact line_markUsed (v.state.countHit a.memseq v.next)
  refine
    { first_le := Nat.le_refl _
      lt := hlt.trans hv.lt
      le := hlt.le
      level := (hv.lt.trans (length_lt_invalid h)).ne
      levels := hok.markUsed hc hlt.le hw
      distinct := ?_
      held := fun l hl => ?_
      atEnd := fun hnone => (Option.some_ne_none _ hnone).elim
      source := fun p hp => ?_ }
  · simp only [holed, hline]
    have := hg.distinct.hole ⟨v.next, c.getSet (a.address >>> bits), w⟩
    rwa [hslot] at this
  · simp only [holed, hline]
    have hheld := held_hole (f := h.line first st₀) (v := l)
      (p := ⟨v.next, c.getSet (a.address >>> bits), w⟩) hl
    rw [hslot] at hheld
    refine hheld.trans ⟨.inl, ?_⟩
    rintro (hres | rfl)
    · exact hres
    · exact ⟨_, hslot⟩
  · obtain rfl := Option.some.inj hp
    refine ⟨⟨rfl, rfl, rfl, hv.lt, fun c' hc' => ?_, fun c' hc' => ?_⟩, ⟨_, hslot⟩⟩
    · obtain rfl := Option.some.inj (hc.symm.trans hc')
      exact ⟨hset, hw⟩
    · obtain rfl := Option.some.inj (hc.symm.trans hc')
      rw [← hsmooth]
      have hdraws : v.state.draws = st₀.draws + first := by
        rw [hv.draws, Nat.min_eq_right hlt.le]
      show c.getSet (h.arriving rand _ (v.next - first) first v.state.draws _) = _
      rw [hdraws]
      congr 1
      refine arriving_congr fun j hj hjlt => ?_
      funext t
      rw [sets_setSet, if_neg (by omega), ← hv.sets j (.inl hj)]
      rfl

/-- The access misses in the last level: its line comes in from outside. -/
theorem Seeking.lookUp_last (hu : h.Uniform first bits) (hg : GroupOk h first st₀)
    (hv : Seeking h first a st₀ v) (hc : h.levels[v.next]? = some c) (hfirst : first ≤ v.next)
    (hlast : v.next + 1 = h.levels.length) (hne : a.address >>> bits ≠ 0)
    (hmiss : c.search (v.state.sets v.next (c.getSet (a.address >>> bits)))
      (a.address >>> bits) = none) :
    (lookUp c first (h.levels.length - 1) a v).next = first ∧
      Carrying h rand first (a.address >>> bits) st₀ none
        (lookUp c first (h.levels.length - 1) a v) ∧
      ¬ ∃ k ≥ first, h.HitsAt st₀ a k := by
  have hlevel := h.level_eq v.next c hc
  have hstorage := hu.getStorage a.address hfirst hc
  have hmissed := hv.miss hc (by rwa [hstorage])
  have hinvalid := length_lt_invalid h
  have houtside : ∀ p, h.line first st₀ p ≠ a.address >>> bits := by
    intro p hp
    have hnz : h.line first st₀ p ≠ 0 := by rwa [hp]
    obtain ⟨c', hc', hvalid, hval⟩ := line_ne_zero hnz
    have hlt := (List.getElem?_eq_some_iff.mp hc').1
    have hown := hg.levels.own p c' hc' hnz
    have hmissp := hmissed p.level (by omega) c' hc'
    rw [hu.getStorage a.address hvalid.1 hc'] at hmissp
    rw [hp] at hown
    rw [hp, hown] at hval
    exact CacheLevel.search_none (hg.levels.mapExact p.level c' hvalid.1 hc' _) hne hmissp
      p.way hvalid.2.2 hval.symm
  have hlookUp : lookUp c first (h.levels.length - 1) a v =
      { next := first
        info := { v.info with level := h.levels.length - 1 + 1, addr := a.address >>> bits }
        state := v.state.countMiss a.memseq v.next } := by
    unfold lookUp
    simp only [hlevel, hstorage, hmiss]
    rw [if_pos (by omega)]
  have hline : h.line first (v.state.countMiss a.memseq v.next) = h.line first st₀ := hv.line
  rw [hlookUp]
  refine ⟨rfl, ?_, ?_⟩
  · refine
      { first_le := Nat.le_refl _
        lt := by simp only; omega
        le := by simp only; omega
        level := by simp only; omega
        levels := (hv.levels hg).congr fun _ _ => rfl
        distinct := ?_
        held := fun l _ => ?_
        atEnd := fun _ => by simp only; omega
        source := fun p hp => (Option.some_ne_none p hp.symm).elim }
    · simp only [holed, hline]
      exact hg.distinct.take houtside
    · simp only [holed, hline]
      exact Iff.rfl
  · rintro ⟨k, -, -, c', w, hc', hhit⟩
    have hlt := (List.getElem?_eq_some_iff.mp hc').1
    exact absurd ((hmissed k (by omega) c' hc').symm.trans hhit) (by simp)

/-- The access misses in another level: it seeks on. -/
theorem Seeking.lookUp_miss (hu : h.Uniform first bits)
    (hv : Seeking h first a st₀ v) (hc : h.levels[v.next]? = some c) (hfirst : first ≤ v.next)
    (hlast : v.next + 1 < h.levels.length)
    (hmiss : c.search (v.state.sets v.next (c.getSet (a.address >>> bits)))
      (a.address >>> bits) = none) :
    (lookUp c first (h.levels.length - 1) a v).next = v.next + 1 ∧
      Seeking h first a st₀ (lookUp c first (h.levels.length - 1) a v) := by
  have hlevel := h.level_eq v.next c hc
  have hstorage := hu.getStorage a.address hfirst hc
  unfold lookUp
  simp only [hlevel, hstorage, hmiss, show v.next ≠ h.levels.length - 1 by omega, if_false,
    true_and]
  refine ⟨hlast, hv.level, fun j hj => hv.sets j ?_, ?_, hv.miss hc (by rwa [hstorage])⟩
  · exact hj.imp_right fun hj => (Nat.le_succ v.next).trans hj
  · have hdraws := hv.draws
    show v.state.draws = st₀.draws + min (v.next + 1) first
    omega

end Seeking

/-! ## One access -/

section Access

variable {a : Access} {st₀ : HandlerState} {v : Visit} {c : CacheLevel}

theorem remaining_seeking (hlt : v.next < h.levels.length)
    (hlevel : v.info.level = invalidCacheLevel) :
    remaining h v = 2 * h.levels.length + 1 - v.next := by
  unfold remaining
  rw [if_neg (by omega), if_pos hlevel]

theorem remaining_carrying (hlt : v.next < h.levels.length)
    (hlevel : v.info.level ≠ invalidCacheLevel) :
    remaining h v = h.levels.length - v.next := by
  unfold remaining
  rw [if_neg (by omega), if_neg hlevel]

theorem remaining_done (hle : h.levels.length ≤ v.next) : remaining h v = 0 := by
  unfold remaining
  rw [if_pos hle]

/-- The visit of a level of the group by an access that has found nothing yet. -/
theorem Seeking.exclusive (hu : h.Uniform first bits) (hg : GroupOk h first st₀)
    (hs : h.Smooth rand first bits st₀ a) (hv : Seeking h first a st₀ v)
    (hc : h.levels[v.next]? = some c) (hfirst : first ≤ v.next) :
    Phase h rand first (a.address >>> bits) a st₀ (lookUp c first (h.levels.length - 1) a v) ∧
      remaining h (lookUp c first (h.levels.length - 1) a v) < remaining h v := by
  have hlt := hv.lt
  have hne := (hs fun j hj => hv.missed j (by omega)).1
  rw [remaining_seeking hlt hv.level]
  cases hsearch : c.search (v.state.sets v.next (c.getSet (a.address >>> bits)))
      (a.address >>> bits) with
  | some w =>
    rcases Nat.eq_or_lt_of_le hfirst with heq | hbelow
    · obtain ⟨hnext, hdone⟩ := hv.lookUp_first hu hg hc heq.symm hne hsearch
      have hle := hnext ▸ (length_lt_invalid h).le
      exact ⟨.done hle hdone, by rw [remaining_done hle]; omega⟩
    · obtain ⟨hnext, hcarry⟩ := hv.lookUp_below hu hg hs hc hbelow hne hsearch
      refine ⟨.carrying _ hcarry fun _ => Option.some_ne_none _, ?_⟩
      rw [remaining_carrying hcarry.lt hcarry.level]
      omega
  | none =>
    rcases Nat.eq_or_lt_of_le (Nat.succ_le_of_lt hlt) with hlast | hmore
    · obtain ⟨hnext, hcarry, hnohit⟩ := hv.lookUp_last hu hg hc hfirst hlast hne hsearch
      refine ⟨.carrying _ hcarry fun hhit => absurd hhit hnohit, ?_⟩
      rw [remaining_carrying hcarry.lt hcarry.level]
      omega
    · obtain ⟨hnext, hseek⟩ := hv.lookUp_miss hu hc hfirst hmore hsearch
      refine ⟨.seeking hseek, ?_⟩
      rw [remaining_seeking hseek.lt hseek.level]
      omega

/-- The visit of a level by a line that is carried down. -/
theorem Carrying.exclusive (hu : h.Uniform first bits) {line₀ : Nat} {hole : Option Slot}
    (hv : Carrying h rand first line₀ st₀ hole v) (hc : h.levels[v.next]? = some c)
    (hhits : (∃ k ≥ first, h.HitsAt st₀ a k) → hole ≠ none) :
    Phase h rand first line₀ a st₀ (victimize rand c v) ∧
      remaining h (victimize rand c v) < remaining h v := by
  have hlt := hv.lt
  rw [remaining_carrying hlt hv.level]
  by_cases heq : v.next = v.info.level
  · cases hole with
    | none => exact absurd (heq.trans (hv.atEnd rfl)) hlt.ne
    | some p =>
      obtain ⟨hnext, hgroup, hsame⟩ := hv.close hu hc heq
      have hle := hnext ▸ (length_lt_invalid h).le
      refine ⟨.done hle ⟨hgroup, fun l hl hres => .inl ((hsame l hl).mp hres), fun _ => hsame⟩, ?_⟩
      rw [remaining_done hle]
      omega
  · obtain ⟨hcarry, hend⟩ := hv.pass_ok hu hc heq
    have hnext : (victimize rand c v).next = v.next + 1 := by rw [victimize_pass hc heq]
    rcases Nat.eq_or_lt_of_le (Nat.succ_le_of_lt hlt) with hlast | hmore
    · have hle : h.levels.length ≤ (victimize rand c v).next := by omega
      have hnone : hole = none := by
        cases hole with
        | none => rfl
        | some p =>
          have hbelow := (hv.source p rfl).1.lt
          have := hv.le
          omega
      obtain ⟨hgroup, hres⟩ := hend hlast hnone
      refine ⟨.done hle ⟨hgroup, hres, fun hhit => absurd hnone (hhits hhit)⟩, ?_⟩
      rw [remaining_done hle]
      omega
    · have hcarry := hcarry hmore
      refine ⟨.carrying hole hcarry hhits, ?_⟩
      rw [remaining_carrying hcarry.lt hcarry.level]
      omega

/-- One visit keeps the invariant and brings the access closer to its end. -/
theorem Phase.step (hu : h.Uniform first bits) (hg : GroupOk h first st₀)
    (hs : h.Smooth rand first bits st₀ a)
    (hv : Phase h rand first (a.address >>> bits) a st₀ v) :
    (∃ v', h.step rand a v = .inl v' ∧ Phase h rand first (a.address >>> bits) a st₀ v' ∧
        remaining h v' < remaining h v) ∨
      ∃ st', h.step rand a v = .inr st' ∧ Done h first (a.address >>> bits) a st₀ st' := by
  cases hv with
  | done hle hdone =>
    refine .inr ⟨v.state, ?_, hdone⟩
    unfold CacheStructureHandler.step
    rw [List.getElem?_eq_none hle]
  | seeking hv =>
    obtain ⟨c, hc⟩ : ∃ c, h.levels[v.next]? = some c := ⟨_, List.getElem?_eq_getElem hv.lt⟩
    by_cases hfirst : first ≤ v.next
    · refine .inl ⟨lookUp c first (h.levels.length - 1) a v, ?_, hv.exclusive hu hg hs hc hfirst⟩
      unfold CacheStructureHandler.step exclusiveProcess
      simp [hc, hu.firstExcl, hfirst, hv.level]
    · refine .inl ⟨inclusiveProcess rand c a v, ?_, ?_⟩
      · unfold CacheStructureHandler.step
        simp [hc, hu.firstExcl, hfirst]
      · have hlt := hv.lt
        have hin := h.firstExcl_lt first hu.firstExcl
        rw [remaining_seeking hlt hv.level]
        rcases hv.inclusive rand hg hin hc (by omega) with ⟨hseek, hnext⟩ | ⟨hle, hdone⟩
        · refine ⟨.seeking hseek, ?_⟩
          rw [remaining_seeking hseek.lt hseek.level]
          omega
        · refine ⟨.done hle hdone, ?_⟩
          rw [remaining_done hle]
          omega
  | carrying hole hv hhits =>
    obtain ⟨c, hc⟩ : ∃ c, h.levels[v.next]? = some c := ⟨_, List.getElem?_eq_getElem hv.lt⟩
    refine .inl ⟨victimize rand c v, ?_, hv.exclusive hu hc hhits⟩
    unfold CacheStructureHandler.step exclusiveProcess
    simp [hc, hu.firstExcl, hv.first_le, hv.level]

/-- A smooth access goes through and leaves the group in order. -/
theorem process_smooth (hu : h.Uniform first bits) (hg : GroupOk h first st₀)
    (hs : h.Smooth rand first bits st₀ a) :
    ∃ st', h.process rand st₀ a = some st' ∧ Done h first (a.address >>> bits) a st₀ st' := by
  have hpos := h.count_pos
  have hstart : Seeking h first a st₀ ⟨0, ⟨0, invalidCacheLevel, 0, 0⟩, st₀⟩ :=
    ⟨hpos, rfl, fun _ _ => rfl, by simp, fun j hj => absurd hj (Nat.not_lt_zero j)⟩
  refine loop_total (Phase h rand first (a.address >>> bits) a st₀) (remaining h) _
    (fun v hv => hv.step hu hg hs) (.seeking hstart) ?_
  rw [remaining_seeking hstart.lt rfl]
  omega

end Access

/-! ## Whole runs -/

theorem line_initial (p : Slot) : h.line first h.initial p = 0 := by
  by_contra hne
  obtain ⟨c, hc, -, hval⟩ := line_ne_zero hne
  rw [hval] at hne
  refine hne ?_
  simp only [initial, hc]
  rfl

theorem groupOk_initial (hu : h.Uniform first bits) : GroupOk h first h.initial where
  levels :=
    { own := fun p _ _ hne => absurd (line_initial p) hne
      mapExact := by
        intro i c _ hc s
        simp only [initial, hc]
        exact CacheLevel.mapExact_initial
      inBounds := by
        intro i c _ hc s
        simp only [initial, hc]
        exact CacheLevel.inBounds_initial (hu.usable_get hc) }
  distinct := ⟨fun p _ hne _ => absurd (line_initial p) hne, fun hne => absurd rfl hne⟩

theorem exclusiveRun_of_groupOk (hu : h.Uniform first bits) :
    ∀ {trace : List Access} {seen : List Nat} {st : HandlerState}, GroupOk h first st →
      (∀ l ≠ 0, h.Resident first st l → ∃ addr ∈ seen, addr >>> bits = l) →
      h.AllSmooth rand first bits st trace → h.ExclusiveRun rand first bits seen st trace := by
  intro trace
  induction trace with
  | nil => intros; exact trivial
  | cons a trace ih =>
    intro seen st hg hseen hs
    obtain ⟨st', hprocess, hdone⟩ := process_smooth hu hg hs.1
    have haccessed : ∀ l ≠ 0, h.Resident first st' l →
        ∃ addr ∈ a.address :: seen, addr >>> bits = l := by
      intro l hl hres
      rcases hdone.resident l hl hres with hold | hnew
      · obtain ⟨addr, hmem, haddr⟩ := hseen l hl hold
        exact ⟨addr, List.mem_cons_of_mem _ hmem, haddr⟩
      · exact ⟨a.address, List.mem_cons_self, hnew⟩
    exact ⟨st', hprocess, ⟨hdone.group.distinct.slots, haccessed, hdone.permuted⟩,
      ih hdone.group haccessed (hs.2 st' hprocess)⟩

/-- **Smooth runs keep the exclusive group.** From the empty hierarchy, along every
trace whose accesses are smooth, every access goes through, and after it no line is in
two places of the group, every line in it was accessed, and a hit in the group has only
moved lines. -/
theorem exclusiveRun_of_smooth (hu : h.Uniform first bits) (trace : List Access)
    (hs : h.AllSmooth rand first bits h.initial trace) :
    h.ExclusiveRun rand first bits [] h.initial trace := by
  refine exclusiveRun_of_groupOk hu (groupOk_initial hu) (fun l hl hres => ?_) hs
  obtain ⟨p, hp⟩ := hres
  exact absurd ((line_initial p).symm.trans hp).symm hl

/-- In a group of fully associative levels every access but to line 0 is smooth. -/
theorem allSmooth_of_countsets (hone : ∀ i c, first ≤ i → h.levels[i]? = some c → c.countsets = 1) :
    ∀ {trace : List Access} {st : HandlerState}, (∀ a ∈ trace, a.address >>> bits ≠ 0) →
      h.AllSmooth rand first bits st trace := by
  intro trace
  induction trace with
  | nil => intros; exact trivial
  | cons a trace ih =>
    intro st hne
    refine ⟨fun _ => ⟨hne a List.mem_cons_self, fun k hk _ c hc => ?_⟩, fun st' _ =>
      ih fun b hb => hne b (List.mem_cons_of_mem _ hb)⟩
    simp only [CacheLevel.getSet, hone k c hk.le hc, Nat.mod_one]

/-- Two fully associative exclusive levels of two lines each. -/
def victimPair : CacheStructureHandler :=
  (init [⟨128, 2, 64, .trulru, true⟩, ⟨128, 2, 64, .nmru, true⟩]).get (by decide)

/-- The last access finds its line in the second level. -/
theorem exclusiveRun_victimPair :
    victimPair.ExclusiveRun (fun _ => 0) 0 6 [] victimPair.initial
      [⟨0, 64⟩, ⟨0, 128⟩, ⟨0, 192⟩, ⟨0, 64⟩] := by
  have hlevels : ∀ c ∈ victimPair.levels,
      c.countsets = 1 ∧ c.linesizeBits = 6 ∧ c.associativity = 2 := by decide
  refine exclusiveRun_of_smooth ⟨by decide, fun c hc => ?_, fun i c _ hc => ?_⟩ _
    (allSmooth_of_countsets (fun i c _ hc => ?_) (by decide))
  · obtain ⟨hone, -, htwo⟩ := hlevels c hc
    exact ⟨by omega, by omega, fun _ => htwo.ge⟩
  · exact (hlevels c (List.mem_of_getElem? hc)).2.1
  · exact (hlevels c (List.mem_of_getElem? hc)).1

/-- What a run that keeps the group ends with. -/
theorem ExclusiveRun.exclusive : ∀ {trace : List Access} {seen : List Nat}
    {st st' : HandlerState}, h.ExclusiveRun rand first bits seen st trace → trace ≠ [] →
      trace.foldlM (h.process rand) st = some st' →
      ∀ p q, h.line first st' p ≠ 0 → h.line first st' p = h.line first st' q → p = q := by
  intro trace
  induction trace with
  | nil => intro seen st st' _ hne; exact absurd rfl hne
  | cons a trace ih =>
    intro seen st st' hrun _ hfold
    obtain ⟨st₁, hprocess, hafter, hrest⟩ := hrun
    rw [List.foldlM_cons, hprocess] at hfold
    cases trace with
    | nil =>
      obtain rfl : st₁ = st' := Option.some.inj hfold
      exact hafter.exclusive
    | cons b trace => exact ih hrest (List.cons_ne_nil b trace) hfold

/-- Two exclusive levels of two sets and three ways each. -/
def clashingPair : CacheStructureHandler :=
  (init [⟨384, 3, 64, .nmru, true⟩, ⟨384, 3, 64, .nmru, true⟩]).get (by decide)

/-- The last access finds line 3 in the second level; the line that arrives there is
an empty one, which counts as line 0 of set 0, so that line 3 stays where it was found:
it ends up in both levels. -/
theorem not_exclusiveRun_clashingPair :
    ¬ clashingPair.ExclusiveRun (fun _ => 0) 0 6 [] clashingPair.initial
      [⟨0, 64⟩, ⟨0, 192⟩, ⟨0, 64⟩, ⟨0, 320⟩, ⟨0, 320⟩, ⟨0, 192⟩] := by
  intro hrun
  have hlines : ([⟨0, 64⟩, ⟨0, 192⟩, ⟨0, 64⟩, ⟨0, 320⟩, ⟨0, 320⟩, ⟨0, 192⟩].foldlM
        (clashingPair.process fun _ => 0) clashingPair.initial).map
      (fun st => (clashingPair.line 0 st ⟨0, 1, 0⟩, clashingPair.line 0 st ⟨1, 1, 1⟩)) =
        some (3, 3) := by
    decide
  obtain ⟨st, hst, hpair⟩ := Option.map_eq_some_iff.mp hlines
  obtain ⟨hfst, hsnd⟩ := Prod.mk.inj hpair
  have hslots := hrun.exclusive (List.cons_ne_nil _ _) hst ⟨0, 1, 0⟩ ⟨1, 1, 1⟩
    (by rw [hfst]; decide) (hfst.trans hsnd.symm)
  exact absurd hslots (by decide)

end Pebil.CacheStructureHandler

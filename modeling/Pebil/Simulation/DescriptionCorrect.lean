import Pebil.Simulation.CacheStatsCorrect
import Pebil.Simulation.Description

/-!
# Which descriptions are read safely (instcode/Simulation.cpp:1319–1361, 1418–1542, 1708–1817)

`SafelyRead`: a description is refused, or it leaves a handler whose slots are all written once
and whose levels are the geometry they claim to be, so that no access divides by zero or leaves
an array. `Init` looks at no level's size beyond its first line, and at the number of the levels
last. `safelyRead_iff` says which descriptions are read safely all the same.
-/

namespace Pebil

namespace CacheLevel

variable (c : CacheLevel)

/-- `Process` of a level on its own, with the next random number and an address; none if it
divides by zero or leaves an array. -/
def checkedAccess (st : LevelState) (x : Nat × Nat) : Option LevelState :=
  let store := c.getStorage x.2
  let s := st (c.getSet store)
  let lineInSet := (c.search s store).getD (c.lineToReplace s x.1)
  if c.countsets ≠ 0 ∧ c.markInRange s lineInSet = true then some (c.process st x.1 x.2).1
  else none

/-- `Process` for one access after the other. -/
def runAccesses (accesses : List (Nat × Nat)) : Option LevelState :=
  accesses.foldlM c.checkedAccess c.initialState

/-- The geometry of a level is a geometry, and no access leaves it. -/
structure Safe : Prop where
  sets : 0 < c.countsets
  line : 0 < c.linesize
  ways : 0 < c.associativity
  size : c.size = c.linesize * c.associativity * c.countsets
  runs : ∀ accesses, (c.runAccesses accesses).isSome

variable {c}

open CacheStructureHandler

theorem setOk_update {st : LevelState} {s : CacheSet} (hok : ∀ set, SetOk c (st set))
    (hs : SetOk c s) (i set : Nat) : SetOk c (Function.update st i s set) := by
  by_cases heq : set = i
  · rw [heq, Function.update_self]
    exact hs
  · rw [Function.update_of_ne heq]
    exact hok set

/-- Accesses to a usable level stay in its arrays. -/
theorem runAccesses_isSome (hu : c.Usable) (accesses : List (Nat × Nat)) :
    ∃ st, c.runAccesses accesses = some st ∧ ∀ set, SetOk c (st set) := by
  induction accesses using List.reverseRecOn with
  | nil => exact ⟨c.initialState, rfl, fun _ => SetOk.initial hu⟩
  | append_singleton accesses x ih =>
    obtain ⟨st, hst, hok⟩ := ih
    have hset := hok (c.getSet (c.getStorage x.2))
    have hway : (c.search (st (c.getSet (c.getStorage x.2))) (c.getStorage x.2)).getD
        (c.lineToReplace (st (c.getSet (c.getStorage x.2))) x.1) < c.associativity := by
      cases hfound : c.search (st (c.getSet (c.getStorage x.2))) (c.getStorage x.2) with
      | none => exact lineToReplace_lt x.1 hu hset.inBounds
      | some w => exact hset.search hfound
    refine ⟨(c.process st x.1 x.2).1, ?_, fun set => ?_⟩
    · unfold runAccesses at hst ⊢
      rw [List.foldlM_append, hst]
      have hrange : c.countsets ≠ 0 ∧ c.markInRange (st (c.getSet (c.getStorage x.2)))
          ((c.search (st (c.getSet (c.getStorage x.2))) (c.getStorage x.2)).getD
            (c.lineToReplace (st (c.getSet (c.getStorage x.2))) x.1)) = true :=
        ⟨Nat.pos_iff_ne_zero.mp hu.countsets_pos, hset.markInRange hway⟩
      simp [checkedAccess, hrange]
    · cases hfound : c.search (st (c.getSet (c.getStorage x.2))) (c.getStorage x.2) with
      | none =>
        rw [hfound, Option.getD_none] at hway
        rw [process_miss hfound]
        exact setOk_update hok (hset.replace hway) _ set
      | some w =>
        rw [hfound, Option.getD_some] at hway
        rw [process_hit hfound]
        exact setOk_update hok (hset.markUsed hway) _ set

/-- Under true LRU, a second access to the only way of a set follows a link that leaves it. -/
theorem runAccesses_oneWay (hpol : c.replpolicy = .trulru) (hone : c.associativity = 1)
    (hlow : c.highAssoc = false) : c.runAccesses [(0, 0), (0, 0)] = none := by
  have hstore : c.getStorage 0 = 0 := Nat.zero_shiftRight _
  have hset : c.getSet 0 = 0 := Nat.zero_mod _
  have hsearch : ∀ s : CacheSet, s.contents 0 = 0 → c.search s 0 = some 0 := by
    intro s hs
    simp [search, hlow, hone, hs]
  have hfirst : c.search (c.initialState (c.getSet (c.getStorage 0))) (c.getStorage 0) = some 0 := by
    rw [hstore]
    exact hsearch _ rfl
  unfold runAccesses
  rw [List.foldlM_cons]
  by_cases hsets : c.countsets = 0
  · simp [checkedAccess, hsets]
  · have hmark : c.markUsed c.initialSet 0 = { c.initialSet with recentlyUsed := 1 } := by
      simp [markUsed, hpol, initialSet]
    have hstep : c.checkedAccess c.initialState (0, 0) =
        some (Function.update c.initialState 0 { c.initialSet with recentlyUsed := 1 }) := by
      have hrange : c.markInRange c.initialSet 0 = true := by
        simp [markInRange, hone, initialSet]
      rw [checkedAccess, hfirst]
      simp only [Option.getD_some, hstore, hset]
      rw [if_pos ⟨hsets, hrange⟩, process_hit hfirst]
      simp only [hstore, hset]
      rw [show c.initialState 0 = c.initialSet from rfl, hmark]
    have hnot : c.markInRange { c.initialSet with recentlyUsed := 1 } 0 = false := by
      simp [markInRange, hpol, hone, initialSet]
    rw [hstep, Option.bind_eq_bind, Option.bind_some, List.foldlM_cons]
    have hsecond : c.checkedAccess
        (Function.update c.initialState 0 { c.initialSet with recentlyUsed := 1 }) (0, 0) = none := by
      simp only [checkedAccess, hstore, hset, Function.update_self]
      rw [hsearch _ rfl, Option.getD_some, if_neg]
      rintro ⟨-, hrange⟩
      exact Bool.false_ne_true (hnot.symm.trans hrange)
    rw [hsecond]
    rfl

end CacheLevel

/-- A description is refused, or its handler has every slot written once and safe levels. -/
def SafelyRead (description : List (BitVec 8)) : Prop :=
  match readDescription description with
  | .error .rejected => True
  | .error .faulted => False
  | .ok p => p.writes.map Prod.fst = List.range p.levelCount.toNat ∧
    ∃ h, CacheStructureHandler.init (p.writes.map Prod.snd) = some h ∧
      (∀ c ∈ h.levels, c.Safe) ∧ ∀ rand trace, (h.run rand trace).isSome

/-- The levels up to the first that is refused have a size to divide by and a slot; and if all
of them are taken and their number seems to be the one that was announced, then it is, and, where
`Verify` admits so many, sets fill the size of each and true LRU has two ways to a set. -/
def WellDescribed (description : List (BitVec 8)) : Prop :=
  ∀ sysWord countWord words sysId levelCount,
    descriptionWords description = sysWord :: countWord :: words →
    parseInt32 sysWord 0 = some (true, sysId) → positiveInt32 countWord = some levelCount →
    (∀ d ∈ (readLevels words).1, d.lineSize * d.assoc % 2 ^ 32 ≠ 0) ∧
      (readLevels words).1.length ≤ levelCount.toNat ∧
      ((readLevels words).2 = true →
        BitVec.ofNat 32 (readLevels words).1.length * 4 = levelCount * 4 →
        (readLevels words).1.length = levelCount.toNat ∧
          (levelCount.toNat ≤ 3 → ∀ d ∈ (readLevels words).1,
            d.lineSize * d.assoc ∣ d.sizeInBytes ∧ (d.repl = .trulru → 2 ≤ d.assoc)))

/-! ## Levels -/

/-- What `Init` has made sure of in a level. -/
structure Taken (d : LevelDescription) : Prop where
  bytes : d.lineSize * d.assoc % 2 ^ 32 ≠ 0
  line_le : d.lineSize ≤ d.sizeInBytes
  size_lt : d.sizeInBytes < 2 ^ 32

theorem readLevels_bounds (words : List Word) :
    ∀ d ∈ (readLevels words).1, d.lineSize ≤ d.sizeInBytes ∧ d.sizeInBytes < 2 ^ 32 := by
  induction words using readLevels.induct with
  | case1 => simp [readLevels]
  | case2 a b c d words hnone => simp [readLevels, hnone]
  | case3 a b c d words level hsome ih =>
    rw [readLevels, hsome, List.forall_mem_cons]
    refine ⟨?_, ih⟩
    obtain ⟨size, -, h⟩ := Option.bind_eq_some_iff.mp hsome
    obtain ⟨assoc, -, h⟩ := Option.bind_eq_some_iff.mp h
    obtain ⟨lineSize, -, h⟩ := Option.bind_eq_some_iff.mp h
    obtain ⟨repl, -, h⟩ := Option.bind_eq_some_iff.mp h
    obtain ⟨hle, h⟩ := Option.ite_none_left_eq_some.mp h
    obtain rfl := Option.some.inj h
    exact ⟨BitVec.not_lt.mp hle, size.isLt⟩
  | case4 words hne hshort =>
    rw [readLevels]
    · simp
    · exact hne
    · exact hshort

/-- A level that is created is safe if sets fill its size and true LRU has two ways. -/
theorem safe_init_iff {d : LevelDescription} (hd : Taken d) (i : Nat) :
    (CacheLevel.init i d.sizeInBytes d.assoc d.lineSize d.repl
      (decide (minimumHighAssociativity ≤ d.assoc))).Safe ↔
      d.lineSize * d.assoc ∣ d.sizeInBytes ∧ (d.repl = .trulru → 2 ≤ d.assoc) := by
  have hbytes := hd.bytes
  constructor
  · intro h
    refine ⟨⟨_, h.size⟩, fun hpol => ?_⟩
    by_contra htwo
    have hways : 0 < d.assoc := h.ways
    have hone : d.assoc = 1 := by omega
    have hruns := h.runs [(0, 0), (0, 0)]
    rw [CacheLevel.runAccesses_oneWay hpol hone (decide_eq_false (by
      rw [hone, minimumHighAssociativity]
      decide))] at hruns
    cases hruns
  · rintro ⟨hdvd, htwo⟩
    have hline : 0 < d.lineSize := Nat.pos_of_ne_zero fun h0 => hbytes (by simp [h0])
    have hways : 0 < d.assoc := Nat.pos_of_ne_zero fun h0 => hbytes (by simp [h0])
    have hle := Nat.le_of_dvd (lt_of_lt_of_le hline hd.line_le) hdvd
    have hmod : d.lineSize * d.assoc % 2 ^ 32 = d.lineSize * d.assoc :=
      Nat.mod_eq_of_lt (lt_of_le_of_lt hle hd.size_lt)
    have hsets : 0 < d.sizeInBytes / (d.lineSize * d.assoc % 2 ^ 32) := by
      rw [hmod]
      exact Nat.div_pos hle (Nat.mul_pos hline hways)
    have hu : (CacheLevel.init i d.sizeInBytes d.assoc d.lineSize d.repl
        (decide (minimumHighAssociativity ≤ d.assoc))).Usable := ⟨hsets, hways, htwo⟩
    refine ⟨hsets, hline, hways, ?_, fun accesses => ?_⟩
    · show d.sizeInBytes = d.lineSize * d.assoc * (d.sizeInBytes / (d.lineSize * d.assoc % 2 ^ 32))
      rw [hmod, Nat.mul_div_cancel' hdvd]
    · obtain ⟨st, hst, -⟩ := CacheLevel.runAccesses_isSome hu accesses
      rw [hst]
      rfl

/-- The handler of levels that are created is safe if every level is. -/
theorem safe_handler_iff {levels : List LevelDescription} (htaken : ∀ d ∈ levels, Taken d)
    (hpos : 1 ≤ levels.length) (hle : levels.length ≤ 3) :
    (∃ h, CacheStructureHandler.init levels = some h ∧ (∀ c ∈ h.levels, c.Safe) ∧
        ∀ rand trace, (h.run rand trace).isSome) ↔
      ∀ d ∈ levels, d.lineSize * d.assoc ∣ d.sizeInBytes ∧ (d.repl = .trulru → 2 ≤ d.assoc) := by
  have hinit : ∃ h, CacheStructureHandler.init levels = some h ∧
      h.levels = levels.mapIdx fun i d => CacheLevel.init i d.sizeInBytes d.assoc d.lineSize d.repl
        (decide (minimumHighAssociativity ≤ d.assoc)) := by
    rw [CacheStructureHandler.init, dif_pos ⟨hpos, hle, fun d hd => (htaken d hd).line_le⟩]
    exact ⟨_, rfl, rfl⟩
  obtain ⟨h, hh, hlevels⟩ := hinit
  constructor
  · rintro ⟨h', hh', hsafe, -⟩ d hd
    obtain rfl := Option.some.inj (hh.symm.trans hh')
    obtain ⟨i, hi⟩ := List.getElem?_of_mem hd
    refine (safe_init_iff (htaken d hd) i).mp (hsafe _ ?_)
    rw [hlevels]
    exact List.mem_of_getElem? (by rw [List.getElem?_mapIdx, hi, Option.map_some])
  · intro hall
    have hsafe : ∀ c ∈ h.levels, c.Safe ∧ c.Usable := by
      intro c hc
      rw [hlevels] at hc
      obtain ⟨i, hi⟩ := List.getElem?_of_mem hc
      rw [List.getElem?_mapIdx] at hi
      obtain ⟨d, hd, rfl⟩ := Option.map_eq_some_iff.mp hi
      have hd := List.mem_of_getElem? hd
      have hs := (safe_init_iff (htaken d hd) i).mpr (hall d hd)
      exact ⟨hs, hs.sets, hs.ways, (hall d hd).2⟩
    refine ⟨h, hh, fun c hc => (hsafe c hc).1, fun rand trace => ?_⟩
    obtain ⟨st, hst, -⟩ := CacheStructureHandler.exists_run h (fun c hc => (hsafe c hc).2) rand trace
    rw [hst]
    rfl

/-! ## Descriptions -/

open DescriptionReader

/-- A reader that has read whole levels ends as the number of the levels says. -/
theorem finish_leveled {p : DescriptionReader} (hp : p.Leveled) :
    p.finish =
      if BitVec.ofNat 32 p.writes.length * 4 ≠ p.levelCount * 4 then .error .rejected
      else if p.writes.length < p.levelCount.toNat then .error .faulted
      else if p.levelCount.toNat < 1 ∨ 3 < p.levelCount.toNat then .error .rejected
      else .ok p := by
  have htok : BitVec.ofNat 32 p.whichTok = BitVec.ofNat 32 p.writes.length * 4 + 2 := by
    rw [hp.whichTok, Nat.add_comm, Nat.mul_comm, BitVec.ofNat_add, BitVec.ofNat_mul]
    rfl
  unfold finish
  simp only [htok, ne_eq, BitVec.add_left_inj]
  rfl

/-- Words that are no whole levels are refused by their number. -/
theorem finish_leftover {p : DescriptionReader} (hp : p.whichTok % 4 ≠ 2) :
    p.finish = .error .rejected := by
  rw [finish, if_pos]
  intro heq
  have hnat := congrArg BitVec.toNat heq
  rw [BitVec.toNat_ofNat, BitVec.toNat_add, BitVec.toNat_mul] at hnat
  rw [show (4 : BitVec 32).toNat = 4 from rfl, show (2 : BitVec 32).toNat = 2 from rfl] at hnat
  omega

/-- The first word. -/
theorem readWord_sysId {token : Word} (h : token.dropWhile isSpace ≠ []) :
    (∃ sysId, parseInt32 token 0 = some (true, sysId) ∧
      start.readWord token = .ok { start with whichTok := 1, sysId := sysId }) ∨
    (∀ sysId, parseInt32 token 0 ≠ some (true, sysId)) ∧
      start.readWord token = .error .rejected := by
  obtain ⟨⟨ok, sysId⟩, hparse⟩ := Option.isSome_iff_exists.mp (parseInt32_isSome h 0)
  have hread : start.readWord token = (acceptInt32 (parseInt32 token 0)).map
      fun sysId => { start with whichTok := 1, sysId := sysId } := rfl
  rw [hread, hparse]
  cases ok with
  | true => exact .inl ⟨sysId, rfl, rfl⟩
  | false => exact .inr ⟨by simp, rfl⟩

/-- The second word. -/
theorem readWord_levelCount {p : DescriptionReader} (hp : p.whichTok = 1) {token : Word}
    (h : token.dropWhile isSpace ≠ []) :
    p.readWord token =
      match positiveInt32 token with
      | some levelCount => .ok { p with whichTok := 2, levelCount := levelCount }
      | none => .error .rejected := by
  rw [readWord, if_neg (by omega), if_pos hp, acceptInt32_eq h]
  cases positiveInt32 token <;> rfl

/-- The levels of a description, behind its first two words. -/
theorem safelyRead_levels {p : DescriptionReader} (hp : p.Leveled) (hempty : p.writes = [])
    {words : List Word} (hvisible : ∀ token ∈ words, token.dropWhile isSpace ≠ []) :
    (match (words.foldlM readWord p).bind finish with
      | .error .rejected => True
      | .error .faulted => False
      | .ok p => p.writes.map Prod.fst = List.range p.levelCount.toNat ∧
        ∃ h, CacheStructureHandler.init (p.writes.map Prod.snd) = some h ∧
          (∀ c ∈ h.levels, c.Safe) ∧ ∀ rand trace, (h.run rand trace).isSome) ↔
      (∀ d ∈ (readLevels words).1, d.lineSize * d.assoc % 2 ^ 32 ≠ 0) ∧
        (readLevels words).1.length ≤ p.levelCount.toNat ∧
        ((readLevels words).2 = true →
          BitVec.ofNat 32 (readLevels words).1.length * 4 = p.levelCount * 4 →
          (readLevels words).1.length = p.levelCount.toNat ∧
            (p.levelCount.toNat ≤ 3 → ∀ d ∈ (readLevels words).1,
              d.lineSize * d.assoc ∣ d.sizeInBytes ∧ (d.repl = .trulru → 2 ≤ d.assoc))) := by
  obtain ⟨hok, hfault⟩ := foldlM_readWord hp hvisible
  rw [← and_assoc]
  have hcreatable : p.Creatable (readLevels words).1 ↔
      (∀ d ∈ (readLevels words).1, d.lineSize * d.assoc % 2 ^ 32 ≠ 0) ∧
        (readLevels words).1.length ≤ p.levelCount.toNat := by
    rw [Creatable, hempty, List.length_nil, Nat.zero_add]
  rw [← hcreatable]
  by_cases hc : p.Creatable (readLevels words).1
  · have hdone := hok hc
    rw [iff_true_intro hc, true_and]
    split_ifs at hdone with hcomplete
    · obtain ⟨p', hp', hleveled, hcount, hwrites⟩ := hdone
      rw [hempty, List.map_nil, List.nil_append] at hwrites
      have hlength : p'.writes.length = (readLevels words).1.length := by
        rw [← hwrites, List.length_map]
      rw [hp', show (Except.ok p' : Except InitStop DescriptionReader).bind finish = p'.finish from rfl,
        finish_leveled hleveled, hlength, hcount]
      -- the number of the words, the slots that `Verify` reads, and the number of the levels
      split_ifs with hnumber hslots hlevels
      · exact iff_of_true trivial fun _ heq => absurd heq hnumber
      · simp only [false_iff]
        intro h
        have := (h hcomplete (not_not.mp hnumber)).1
        omega
      · have hroom := hc.2
        rw [hempty, List.length_nil] at hroom
        simp only [true_iff]
        refine fun _ _ => ⟨by omega, fun hle => ?_⟩
        have hnil : (readLevels words).1 = [] := List.length_eq_zero_iff.mp (by omega)
        simp [hnil]
      · have hroom := hc.2
        rw [hempty, List.length_nil] at hroom
        have hlen : (readLevels words).1.length = p.levelCount.toNat := by omega
        have htaken : ∀ d ∈ (readLevels words).1, Taken d := fun d hd =>
          ⟨hc.1 d hd, (readLevels_bounds words d hd).1, (readLevels_bounds words d hd).2⟩
        have hsafe := safe_handler_iff htaken (by omega) (by omega)
        simp only [hwrites, hcount, hleveled.slots, hlength, ← hlen, true_and]
        rw [hsafe]
        constructor
        · exact fun h _ _ _ => h
        · exact fun h => h hcomplete (not_not.mp hnumber) (by omega)
    · have hrejected : (words.foldlM readWord p).bind finish = .error .rejected := by
        rcases hdone with hdone | ⟨p', hp', htok⟩
        · rw [hdone]
          rfl
        · rw [hp']
          exact finish_leftover htok
      rw [hrejected]
      simp [hcomplete]
  · rw [hfault hc, iff_false_intro hc, false_and]
    rfl

/-- A description is read safely if and only if it is `WellDescribed`. -/
theorem safelyRead_iff (description : List (BitVec 8)) :
    SafelyRead description ↔ WellDescribed description := by
  have hvisible : ∀ token ∈ descriptionWords description, token.dropWhile isSpace ≠ [] :=
    fun token h => visible_of_mem h
  unfold SafelyRead WellDescribed readDescription
  match descriptionWords description, hvisible with
  | [], _ => simp [start, finish, Except.bind, pure, Except.pure]
  | [sysWord], hvisible =>
    rw [List.foldlM_cons]
    rcases readWord_sysId (hvisible sysWord (by simp)) with ⟨sysId, -, hread⟩ | ⟨-, hread⟩
    · rw [hread]
      refine iff_of_true trivial ?_
      rintro sysWord' countWord' words' sysId' levelCount' heq
      simp at heq
    · rw [hread]
      refine iff_of_true trivial ?_
      rintro sysWord' countWord' words' sysId' levelCount' heq
      simp at heq
  | sysWord :: countWord :: words, hvisible =>
    rw [List.foldlM_cons]
    rcases readWord_sysId (hvisible sysWord (by simp)) with ⟨sysId, hsys, hread⟩ | ⟨hsys, hread⟩
    · rw [hread]
      simp only [bind, Except.bind, List.foldlM_cons]
      rw [readWord_levelCount rfl (hvisible countWord (by simp))]
      cases hcount : positiveInt32 countWord with
      | none =>
        refine iff_of_true trivial ?_
        rintro sysWord' countWord' words' sysId' levelCount' heq - hcount'
        obtain ⟨rfl, rfl, rfl⟩ : _ ∧ _ ∧ _ := by simpa using heq
        cases hcount.symm.trans hcount'
      | some levelCount =>
        have hleveled : ({ start with
            whichTok := 2, sysId := sysId, levelCount := levelCount } : DescriptionReader).Leveled :=
          ⟨rfl, Nat.zero_le _, rfl⟩
        have hlevels := safelyRead_levels hleveled rfl
          fun token h => hvisible token (List.mem_cons_of_mem _ (List.mem_cons_of_mem _ h))
        refine hlevels.trans ⟨?_, ?_⟩
        · rintro h sysWord' countWord' words' sysId' levelCount' heq - hcount'
          obtain ⟨rfl, rfl, rfl⟩ : _ ∧ _ ∧ _ := by simpa using heq
          obtain rfl := Option.some.inj (hcount.symm.trans hcount')
          exact h
        · exact fun h => h _ _ _ _ _ rfl hsys hcount
    · simp only [hread, bind, Except.bind]
      refine iff_of_true trivial ?_
      rintro sysWord' countWord' words' sysId levelCount heq hsys' -
      obtain ⟨rfl, -⟩ : _ ∧ _ := by simpa using heq
      exact absurd hsys' (hsys sysId)

/-- `0 1 64 2 64 lru`: a cache of one line with two ways to a set is accepted, and it has no
set. -/
theorem not_safelyRead_of_noSet : ¬ ∀ description, SafelyRead description := by
  intro h
  have hread := h [ch '0', ch ' ', ch '1', ch ' ', ch '6', ch '4', ch ' ', ch '2', ch ' ', ch '6',
    ch '4', ch ' ', ch 'l', ch 'r', ch 'u']
  obtain ⟨p, hp, hwrites⟩ : ∃ p, readDescription [ch '0', ch ' ', ch '1', ch ' ', ch '6', ch '4',
      ch ' ', ch '2', ch ' ', ch '6', ch '4', ch ' ', ch 'l', ch 'r', ch 'u'] = .ok p ∧
      p.writes = [(0, ⟨64, 2, 64, .nmru, false⟩)] := ⟨_, rfl, rfl⟩
  rw [SafelyRead, hp] at hread
  obtain ⟨-, hd, hinit, hsafe, -⟩ := hread
  rw [hwrites] at hinit
  obtain rfl := Option.some.inj hinit
  exact absurd (hsafe _ List.mem_cons_self).sets (by decide)

end Pebil

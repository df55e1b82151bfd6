import Pebil.Simulation.CacheStats
import Pebil.Simulation.ParseInt

/-!
# Reading a cache description (instcode/Simulation.cpp:1690–1828)

`CacheStructureHandler::Init` reads a description word by word: a system id, the number of
levels, and for each level three numbers and a replacement policy. A counter of the words tells
what the next one is. A level is created and written to its slot as soon as its policy has been
read, before anybody has compared the number of words to the number of levels.

`readLevels` reads the words of the levels four at a time; what the loop over words does to
them is `foldlM_readWord`.
-/

namespace Pebil

/-- A word of a description. -/
abbrev Word := List (BitVec 8)

/-- The words of a description, as `tokenizer >> token` finds them, up to a comment. -/
def descriptionWords (description : List (BitVec 8)) : List Word :=
  ((description.splitOnP isSpace).filter (· ≠ [])).takeWhile fun token => token.take 1 ≠ [ch '#']

/-- How `Init` can end early: it returns false, or it writes beyond its slots, divides by zero
or reads a value that was never written. -/
inductive InitStop where
  | rejected
  | faulted
  deriving DecidableEq, Repr

/-- What the loop of `Init` keeps. The slots of `levels` are in the order they are written in. -/
structure DescriptionReader where
  whichTok : Nat
  sysId : BitVec 32
  levelCount : BitVec 32
  cacheValues : Nat → BitVec 32
  writes : List (Nat × LevelDescription)

/-- The beginning of a policy's word. -/
def replacementPolicy (token : Word) : Option ReplacementPolicy :=
  if token.take 3 = [ch 'l', ch 'r', ch 'u'] then some .nmru
  else if token.take 4 = [ch 'r', ch 'a', ch 'n', ch 'd'] then some .random
  else if token.take 6 = [ch 't', ch 'r', ch 'u', ch 'l', ch 'r', ch 'u'] then some .trulru
  else if token.take 3 = [ch 'd', ch 'i', ch 'r'] then some .direct
  else none

/-- The end of a policy's word names a victim cache. -/
def isVictim (token : Word) : Bool :=
  token.drop (token.length - 3) = [ch '_', ch 'v', ch 'c']

/-- What becomes of an answer of `ParseInt32`. -/
def acceptInt32 : Option (Bool × BitVec 32) → Except InitStop (BitVec 32)
  | some (true, value) => .ok value
  | some (false, _) => .error .rejected
  | none => .error .faulted

namespace DescriptionReader

/-- The reader before the first word. -/
def start : DescriptionReader := ⟨0, 0, 0, fun _ => 0, []⟩

/-- The cache of a level is created, which divides by the bytes of a set, and put into its
slot. -/
def createLevel (p : DescriptionReader) (levelId : Nat) (d : LevelDescription) :
    Except InitStop DescriptionReader :=
  if d.lineSize * d.assoc % 2 ^ 32 = 0 then .error .faulted
  else if p.levelCount.toNat ≤ levelId then .error .faulted
  else .ok { p with whichTok := p.whichTok + 1, writes := p.writes ++ [(levelId, d)] }

/-- One round of the loop. -/
def readWord (p : DescriptionReader) (token : Word) : Except InitStop DescriptionReader :=
  if p.whichTok = 0 then
    (acceptInt32 (parseInt32 token 0)).map fun sysId => { p with whichTok := 1, sysId := sysId }
  else if p.whichTok = 1 then
    (acceptInt32 (parsePositiveInt32 token)).map fun levelCount =>
      { p with whichTok := 2, levelCount := levelCount }
  else
    let idx := (p.whichTok - 2) % 4
    if idx < 3 then
      (acceptInt32 (parsePositiveInt32 token)).map fun value =>
        { p with whichTok := p.whichTok + 1
                 cacheValues := Function.update p.cacheValues idx value }
    else
      match replacementPolicy token with
      | none => .error .rejected
      | some repl =>
        let levelId := (p.whichTok - 2) / 4
        let sizeInBytes := p.cacheValues 0
        let assoc := p.cacheValues 1
        let lineSize := p.cacheValues 2
        if sizeInBytes < lineSize then .error .rejected
        else p.createLevel levelId
          ⟨sizeInBytes.toNat, assoc.toNat, lineSize.toNat, repl, isVictim token⟩

/-- What follows the loop: the count of the words, and `Verify`, which looks at every slot. -/
def finish (p : DescriptionReader) : Except InitStop DescriptionReader :=
  if BitVec.ofNat 32 p.whichTok ≠ p.levelCount * 4 + 2 then .error .rejected
  else if p.writes.length < p.levelCount.toNat then .error .faulted
  else if p.levelCount < 1 ∨ 3 < p.levelCount then .error .rejected
  else .ok p

end DescriptionReader

/-- `CacheStructureHandler::Init`. -/
def readDescription (description : List (BitVec 8)) : Except InitStop DescriptionReader :=
  ((descriptionWords description).foldlM DescriptionReader.readWord .start).bind
    DescriptionReader.finish

/-! ## Levels -/

/-- A number that is taken. -/
def positiveInt32 (token : Word) : Option (BitVec 32) :=
  match parsePositiveInt32 token with
  | some (true, value) => some value
  | _ => none

/-- The four words of a level. -/
def readLevel (size assoc lineSize policy : Word) : Option LevelDescription :=
  (positiveInt32 size).bind fun size => (positiveInt32 assoc).bind fun assoc =>
    (positiveInt32 lineSize).bind fun lineSize => (replacementPolicy policy).bind fun repl =>
      if size < lineSize then none
      else some ⟨size.toNat, assoc.toNat, lineSize.toNat, repl, isVictim policy⟩

/-- The levels up to the first that is not taken, and whether they are all there is. -/
def readLevels : List Word → List LevelDescription × Bool
  | [] => ([], true)
  | a :: b :: c :: d :: words =>
    match readLevel a b c d with
    | none => ([], false)
    | some level => (level :: (readLevels words).1, (readLevels words).2)
  | _ => ([], false)

/-! ## Words -/

/-- Of a word with a visible character, something is read. -/
theorem parseInt32_isSome {token : Word} (h : token.dropWhile isSpace ≠ []) (min : BitVec 32) :
    (parseInt32 token min).isSome := by
  have hwritten : (extractInt32 token).written.isSome := by
    unfold extractInt32
    simp only [if_neg h]
    split_ifs <;> rfl
  rw [parseInt32, Option.isSome_map]
  exact hwritten

theorem acceptInt32_eq {token : Word} (h : token.dropWhile isSpace ≠ []) :
    acceptInt32 (parsePositiveInt32 token) =
      match positiveInt32 token with
      | some value => .ok value
      | none => .error .rejected := by
  obtain ⟨⟨ok, value⟩, hparse⟩ := Option.isSome_iff_exists.mp (parseInt32_isSome h 1)
  rw [positiveInt32, parsePositiveInt32, hparse]
  cases ok <;> rfl

theorem isSpace_of_mem_splitOnPPrepend {stream piece : List (BitVec 8)} {before : List (BitVec 8)}
    (hbefore : ∀ c ∈ before, isSpace c = false)
    (h : piece ∈ stream.splitOnPPrepend isSpace before) : ∀ c ∈ piece, isSpace c = false := by
  induction stream generalizing before with
  | nil =>
    rw [List.splitOnPPrepend_nil, List.mem_singleton] at h
    subst h
    simpa using hbefore
  | cons c stream ih =>
    rw [List.splitOnPPrepend_cons_eq_if] at h
    split_ifs at h with hc
    · rcases List.mem_cons.mp h with rfl | h
      · simpa using hbefore
      · exact ih (fun _ hnil => absurd hnil List.not_mem_nil) h
    · refine ih (fun x hx => ?_) h
      rcases List.mem_cons.mp hx with rfl | hx
      · simpa using hc
      · exact hbefore x hx

/-- The words of a description have visible characters. -/
theorem visible_of_mem {description : List (BitVec 8)} {token : Word}
    (h : token ∈ descriptionWords description) : token.dropWhile isSpace ≠ [] := by
  obtain ⟨hpiece, hne⟩ := List.mem_filter.mp ((List.takeWhile_sublist _).subset h)
  have hvisible := isSpace_of_mem_splitOnPPrepend (fun _ hnil => absurd hnil List.not_mem_nil) hpiece
  cases token with
  | nil => simp at hne
  | cons c token =>
    have hc : ¬ isSpace c = true := by simp [hvisible c List.mem_cons_self]
    rw [List.dropWhile_cons_of_neg hc]
    exact List.cons_ne_nil c token

/-! ## Rounds of the loop -/

namespace DescriptionReader

variable {p : DescriptionReader} {token a b c d : Word} {n : Nat} {words : List Word}

/-- The three numbers of a level. -/
theorem readWord_number {i : Nat} (hi : i < 3) (hp : p.whichTok = 2 + 4 * n + i)
    (htoken : token.dropWhile isSpace ≠ []) :
    p.readWord token =
      match positiveInt32 token with
      | some value => .ok { p with whichTok := p.whichTok + 1
                                   cacheValues := Function.update p.cacheValues i value }
      | none => .error .rejected := by
  have hidx : (p.whichTok - 2) % 4 = i := by omega
  rw [readWord, if_neg (by omega), if_neg (by omega), acceptInt32_eq htoken]
  simp only [hidx, if_pos hi]
  cases positiveInt32 token <;> rfl

/-- The policy of a level. -/
theorem readWord_policy (hp : p.whichTok = 2 + 4 * n + 3) (token : Word) :
    p.readWord token =
      match replacementPolicy token with
      | none => .error .rejected
      | some repl =>
        if p.cacheValues 0 < p.cacheValues 2 then .error .rejected
        else p.createLevel n ⟨(p.cacheValues 0).toNat, (p.cacheValues 1).toNat,
          (p.cacheValues 2).toNat, repl, isVictim token⟩ := by
  have hidx : (p.whichTok - 2) % 4 = 3 := by omega
  have hlevel : (p.whichTok - 2) / 4 = n := by omega
  rw [readWord, if_neg (by omega), if_neg (by omega)]
  simp only [hidx, hlevel, Nat.lt_irrefl, if_false]

/-- A level whose creation has a meaning. -/
def Creatable (p : DescriptionReader) (levels : List LevelDescription) : Prop :=
  (∀ d ∈ levels, d.lineSize * d.assoc % 2 ^ 32 ≠ 0) ∧
    p.writes.length + levels.length ≤ p.levelCount.toNat

/-- The reader has read whole levels, and put each into its own slot. -/
structure Leveled (p : DescriptionReader) : Prop where
  whichTok : p.whichTok = 2 + 4 * p.writes.length
  room : p.writes.length ≤ p.levelCount.toNat
  slots : p.writes.map Prod.fst = List.range p.writes.length

/-- The numbers of a level are in their places when its policy is read. -/
theorem foldlM_numbers (hp : p.whichTok = 2 + 4 * n) (ha : a.dropWhile isSpace ≠ [])
    (hb : b.dropWhile isSpace ≠ []) (hc : c.dropWhile isSpace ≠ []) :
    [a, b, c].foldlM readWord p =
      match positiveInt32 a, positiveInt32 b, positiveInt32 c with
      | some size, some assoc, some lineSize => .ok
        { p with whichTok := p.whichTok + 3
                 cacheValues := Function.update (Function.update (Function.update p.cacheValues
                   0 size) 1 assoc) 2 lineSize }
      | _, _, _ => .error .rejected := by
  simp only [List.foldlM_cons, List.foldlM_nil]
  rw [readWord_number (i := 0) (by decide) (by omega) ha]
  cases positiveInt32 a with
  | none => rfl
  | some size =>
    simp only [bind, Except.bind]
    rw [readWord_number (i := 1) (n := n) (by decide) (by simp only; omega) hb]
    cases positiveInt32 b with
    | none => rfl
    | some assoc =>
      simp only
      rw [readWord_number (i := 2) (n := n) (by decide) (by simp only; omega) hc]
      cases positiveInt32 c <;> rfl

/-- A level that is not taken stops the loop. -/
theorem foldlM_readLevel_none (hp : p.Leveled) (ha : a.dropWhile isSpace ≠ [])
    (hb : b.dropWhile isSpace ≠ []) (hc : c.dropWhile isSpace ≠ [])
    (h : readLevel a b c d = none) : [a, b, c, d].foldlM readWord p = .error .rejected := by
  rw [show [a, b, c, d] = [a, b, c] ++ [d] from rfl, List.foldlM_append,
    foldlM_numbers hp.whichTok ha hb hc]
  unfold readLevel at h
  cases hsize : positiveInt32 a with
  | none => rfl
  | some size =>
    cases hassoc : positiveInt32 b with
    | none => rfl
    | some assoc =>
      cases hline : positiveInt32 c with
      | none => rfl
      | some lineSize =>
        simp only [hsize, hassoc, hline, Option.bind_some] at h
        simp only [bind, Except.bind, List.foldlM_cons, List.foldlM_nil]
        rw [readWord_policy (n := p.writes.length) (by simp only [hp.whichTok])]
        cases hrepl : replacementPolicy d with
        | none => rfl
        | some repl =>
          simp only [hrepl, Option.bind_some, ite_eq_left_iff, reduceCtorEq, imp_false,
            not_not] at h
          simp [h]

/-- A level that is taken is created, in the next slot. -/
theorem foldlM_readLevel_some {level : LevelDescription} (hp : p.Leveled)
    (ha : a.dropWhile isSpace ≠ []) (hb : b.dropWhile isSpace ≠ [])
    (hc : c.dropWhile isSpace ≠ []) (h : readLevel a b c d = some level) :
    (p.Creatable [level] → ∃ p', [a, b, c, d].foldlM readWord p = .ok p' ∧ p'.Leveled ∧
        p'.levelCount = p.levelCount ∧ p'.writes = p.writes ++ [(p.writes.length, level)]) ∧
      (¬ p.Creatable [level] → [a, b, c, d].foldlM readWord p = .error .faulted) := by
  obtain ⟨size, hsize, h⟩ := Option.bind_eq_some_iff.mp h
  obtain ⟨assoc, hassoc, h⟩ := Option.bind_eq_some_iff.mp h
  obtain ⟨lineSize, hline, h⟩ := Option.bind_eq_some_iff.mp h
  obtain ⟨repl, hrepl, h⟩ := Option.bind_eq_some_iff.mp h
  obtain ⟨hle, h⟩ := Option.ite_none_left_eq_some.mp h
  obtain rfl := Option.some.inj h
  rw [show [a, b, c, d] = [a, b, c] ++ [d] from rfl, List.foldlM_append,
    foldlM_numbers hp.whichTok ha hb hc]
  simp only [hsize, hassoc, hline, bind, Except.bind, List.foldlM_cons, List.foldlM_nil]
  rw [readWord_policy (n := p.writes.length) (by simp only [hp.whichTok])]
  have hsizeAt : Function.update (Function.update (Function.update p.cacheValues 0 size) 1 assoc) 2
      lineSize 0 = size := by simp
  have hassocAt : Function.update (Function.update (Function.update p.cacheValues 0 size) 1 assoc) 2
      lineSize 1 = assoc := by simp
  simp only [hrepl, hsizeAt, hassocAt, Function.update_self, if_neg hle, createLevel, Creatable,
    List.mem_singleton, forall_eq, List.length_singleton]
  constructor
  · rintro ⟨hbytes, hslot⟩
    rw [if_neg hbytes, if_neg (by omega)]
    refine ⟨_, rfl, ⟨?_, ?_, ?_⟩, rfl, rfl⟩
    · simp only [List.length_append, List.length_singleton, hp.whichTok]
      omega
    · simpa using hslot
    · rw [List.map_append, hp.slots, List.length_append, List.length_singleton, List.range_succ]
      rfl
  · intro hnot
    by_cases hbytes : lineSize.toNat * assoc.toNat % 2 ^ 32 = 0
    · rw [if_pos hbytes]
    · rw [if_neg hbytes, if_pos (Nat.le_of_not_lt fun hslot => hnot ⟨hbytes, hslot⟩)]

/-- One, two or three words behind the last level. -/
theorem foldlM_leftover (hp : p.whichTok = 2 + 4 * n)
    (hwords : ∀ token ∈ words, token.dropWhile isSpace ≠ []) (hne : words = [] → False)
    (hshort : ∀ a b c d rest, words = a :: b :: c :: d :: rest → False) :
    words.foldlM readWord p = .error .rejected ∨
      ∃ p', words.foldlM readWord p = .ok p' ∧ p'.whichTok % 4 ≠ 2 := by
  match words, hwords, hne, hshort with
  | [], _, hne, _ => exact (hne rfl).elim
  | [a], hwords, _, _ =>
    simp only [List.foldlM_cons, List.foldlM_nil]
    rw [readWord_number (i := 0) (by decide) (by omega) (hwords a (by simp))]
    cases positiveInt32 a with
    | none => exact .inl rfl
    | some size => exact .inr ⟨_, rfl, by simp only; omega⟩
  | [a, b], hwords, _, _ =>
    simp only [List.foldlM_cons, List.foldlM_nil]
    rw [readWord_number (i := 0) (by decide) (by omega) (hwords a (by simp))]
    cases positiveInt32 a with
    | none => exact .inl rfl
    | some size =>
      simp only [bind, Except.bind]
      rw [readWord_number (i := 1) (n := n) (by decide) (by simp only; omega) (hwords b (by simp))]
      cases positiveInt32 b with
      | none => exact .inl rfl
      | some assoc => exact .inr ⟨_, rfl, by simp only; omega⟩
  | [a, b, c], hwords, _, _ =>
    rw [foldlM_numbers hp (hwords a (by simp)) (hwords b (by simp)) (hwords c (by simp))]
    cases positiveInt32 a with
    | none => exact .inl rfl
    | some size =>
      cases positiveInt32 b with
      | none => exact .inl rfl
      | some assoc =>
        cases positiveInt32 c with
        | none => exact .inl rfl
        | some lineSize => exact .inr ⟨_, rfl, by simp only; omega⟩
  | a :: b :: c :: d :: rest, _, _, hshort => exact (hshort a b c d rest rfl).elim

/-- What the loop does to the words behind the number of levels: whole levels go to their slots,
unless one has no meaning; other words come to nothing. -/
theorem foldlM_readWord (hp : p.Leveled) (hwords : ∀ token ∈ words, token.dropWhile isSpace ≠ []) :
    (p.Creatable (readLevels words).1 → if (readLevels words).2 = true then
        ∃ p', words.foldlM readWord p = .ok p' ∧ p'.Leveled ∧ p'.levelCount = p.levelCount ∧
          p'.writes.map Prod.snd = p.writes.map Prod.snd ++ (readLevels words).1
      else words.foldlM readWord p = .error .rejected ∨
        ∃ p', words.foldlM readWord p = .ok p' ∧ p'.whichTok % 4 ≠ 2) ∧
      (¬ p.Creatable (readLevels words).1 → words.foldlM readWord p = .error .faulted) := by
  induction words using readLevels.induct generalizing p with
  | case1 =>
    exact ⟨fun _ => ⟨p, rfl, hp, rfl, by simp [readLevels]⟩,
      fun hnot => absurd ⟨fun _ hnil => absurd hnil List.not_mem_nil, hp.room⟩ hnot⟩
  | case2 a b c d words hnone =>
    obtain ⟨ha, hb, hc, hd, -⟩ : _ ∧ _ ∧ _ ∧ _ ∧ _ := by
      simpa only [List.forall_mem_cons] using hwords
    have hstop : (a :: b :: c :: d :: words).foldlM readWord p = .error .rejected := by
      rw [show a :: b :: c :: d :: words = [a, b, c, d] ++ words from rfl, List.foldlM_append,
        foldlM_readLevel_none hp ha hb hc hnone]
      rfl
    rw [readLevels, hnone]
    exact ⟨fun _ => .inl hstop,
      fun hnot => absurd ⟨fun _ hnil => absurd hnil List.not_mem_nil, hp.room⟩ hnot⟩
  | case3 a b c d words level hsome ih =>
    obtain ⟨ha, hb, hc, hd, hwords⟩ : _ ∧ _ ∧ _ ∧ _ ∧ _ := by
      simpa only [List.forall_mem_cons] using hwords
    obtain ⟨hok, hfault⟩ := foldlM_readLevel_some hp ha hb hc hsome
    rw [readLevels, hsome, show a :: b :: c :: d :: words = [a, b, c, d] ++ words from rfl,
      List.foldlM_append]
    by_cases hlevel : p.Creatable [level]
    · obtain ⟨p', hp', hleveled, hcount, hwrites⟩ := hok hlevel
      have hrest : p'.Creatable (readLevels words).1 ↔ p.Creatable (level :: (readLevels words).1) := by
        unfold Creatable at hlevel ⊢
        rw [hcount, hwrites, List.length_append, List.length_singleton, List.forall_mem_cons,
          List.length_cons]
        have hbytes := hlevel.1 level (List.mem_singleton_self level)
        constructor
        · rintro ⟨hall, hroom⟩
          exact ⟨⟨hbytes, hall⟩, by omega⟩
        · rintro ⟨⟨-, hall⟩, hroom⟩
          exact ⟨hall, by omega⟩
      obtain ⟨hok', hfault'⟩ := ih hleveled hwords
      rw [hp', ← hrest]
      refine ⟨fun hcreatable => ?_, hfault'⟩
      have hdone := hok' hcreatable
      split_ifs at hdone ⊢
      · obtain ⟨q, hq, hqleveled, hqcount, hqwrites⟩ := hdone
        refine ⟨q, hq, hqleveled, hqcount.trans hcount, ?_⟩
        rw [hqwrites, hwrites, List.map_append, List.append_assoc]
        rfl
      · exact hdone
    · rw [hfault hlevel]
      refine ⟨fun hcreatable => absurd ⟨?_, ?_⟩ hlevel, fun _ => rfl⟩
      · rw [List.forall_mem_singleton]
        exact hcreatable.1 level List.mem_cons_self
      · have hroom := hcreatable.2
        rw [List.length_cons] at hroom
        rw [List.length_singleton]
        omega
  | case4 words hne hshort =>
    have hleft := foldlM_leftover hp.whichTok hwords hne fun a b c d words => hshort a b c d words
    rw [readLevels]
    · exact ⟨fun _ => hleft,
        fun hnot => absurd ⟨fun _ hnil => absurd hnil List.not_mem_nil, hp.room⟩ hnot⟩
    · exact hne
    · exact hshort

end DescriptionReader

end Pebil

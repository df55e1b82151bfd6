import Pebil.Lib.IntStream

/-!
# Sizes in a description (instcode/Simulation.cpp:891–896, 1154–1193)

`ParseInt32` reads a number and a unit, `k`, `m` or `g` in either case, with a `b` behind it.
It asks for the second letter even where the unit is the last one: `get` then leaves the unit in
`c`, which is no `b`, so a unit alone is refused. What is behind the `b` is not looked at. If the
number cannot be read, no letter is looked at, and what the stream left in `val` counts. The
bound is compared to the number without its unit, and as an unsigned one.

`parsedRight_iff` says for which tokens the answer is right all the same.
-/

namespace Pebil

/-- `ToLowerCase`; characters are signed. -/
def toLowerCase (c : BitVec 8) : BitVec 8 := if c.slt (ch 'a') then c + 0x20#8 else c

/-- `KILO`. -/
def kilo : BitVec 32 := 1024

/-- `MEGA`. -/
def mega : BitVec 32 := kilo * kilo

/-- `GIGA`. -/
def giga : BitVec 32 := mega * kilo

/-- What the letters behind the number set: `mult` and `ErrorFree`. -/
def readUnit : List (BitVec 8) → BitVec 32 × Bool
  | [] => (1, true)
  | c :: rest =>
    let c := toLowerCase c
    let (mult, errorFree) :=
      if c = ch 'k' then (kilo, true)
      else if c = ch 'm' then (mega, true)
      else if c = ch 'g' then (giga, true)
      else (1, false)
    -- at the end of the stream, which has not been noticed yet, `get` leaves `c` as it is
    let c := toLowerCase (rest.headD c)
    (mult, if c ≠ ch 'b' then false else errorFree)

/-- `ParseInt32`: whether it is free of errors, and the value; none where it works with a `val`
that nobody has written. -/
def parseInt32 (token : List (BitVec 8)) (min : BitVec 32) : Option (Bool × BitVec 32) :=
  let stream := extractInt32 token
  let (mult, errorFree) := if stream.good then readUnit stream.rest else (1, true)
  stream.written.map fun val =>
    let val := BitVec.ofInt 32 val
    (if val < min then false else errorFree, val * mult)

/-- `ParsePositiveInt32`. -/
def parsePositiveInt32 (token : List (BitVec 8)) : Option (Bool × BitVec 32) := parseInt32 token 1

/-! ## Sizes -/

/-- The letters behind the numeral of a size. -/
inductive SizeSuffix where
  | plain
  | unit (factor : Nat)
  | unitByte (factor : Nat)
  deriving DecidableEq, Repr

namespace SizeSuffix

/-- By how much the numeral is multiplied. -/
def factor : SizeSuffix → Nat
  | plain => 1
  | unit factor => factor
  | unitByte factor => factor

/-- There is a `b` behind the unit, or no unit. -/
def complete : SizeSuffix → Bool
  | plain => true
  | unit _ => false
  | unitByte _ => true

/-- The factor of a letter. -/
def ofLetter (c : BitVec 8) : Option Nat :=
  if c = ch 'k' ∨ c = ch 'K' then some (2 ^ 10)
  else if c = ch 'm' ∨ c = ch 'M' then some (2 ^ 20)
  else if c = ch 'g' ∨ c = ch 'G' then some (2 ^ 30)
  else none

def ofLetters : List (BitVec 8) → Option SizeSuffix
  | [] => some plain
  | [c] => (ofLetter c).map unit
  | [c, b] => if b = ch 'b' ∨ b = ch 'B' then (ofLetter c).map unitByte else none
  | _ => none

end SizeSuffix

/-- A size: a decimal numeral and a suffix. -/
def sizeString (token : List (BitVec 8)) : Option (Nat × SizeSuffix) :=
  if token.takeWhile isDigit = [] then none
  else (SizeSuffix.ofLetters (token.dropWhile isDigit)).map fun suffix =>
    (numeral (token.takeWhile isDigit), suffix)

/-- The number that a size stands for. -/
def sizeOf (token : List (BitVec 8)) : Option Nat :=
  (sizeString token).map fun (n, suffix) => n * suffix.factor

/-- `ParseInt32` answers for a token: it accepts the sizes that are in the range, with their
number, and nothing else. -/
def ParsedRight (token : List (BitVec 8)) (min : BitVec 32) : Prop :=
  ∃ ok value, parseInt32 token min = some (ok, value) ∧
    (ok = true ↔ ∃ n, sizeOf token = some n ∧ n < 2 ^ 31 ∧ min.toNat ≤ n) ∧
    (ok = true → sizeOf token = some value.toNat)

/-- The tokens of which `ParseInt32` judges right. -/
def RightlyJudged (token : List (BitVec 8)) (min : BitVec 32) : Prop :=
  match sizeString token with
  | some (n, .plain) => n < 2 ^ 31 ∨ 2 ^ 31 ≤ min.toNat
  | some (n, .unit factor) =>
    if n < 2 ^ 31 then 2 ^ 31 ≤ n * factor ∨ n * factor < min.toNat else 2 ^ 31 ≤ min.toNat
  | some (n, .unitByte factor) =>
    if n < 2 ^ 31 then
      if n * factor < 2 ^ 31 then min.toNat ≤ n ∨ n * factor < min.toNat else n < min.toNat
    else 2 ^ 31 ≤ min.toNat
  | none => ∃ val, (extractInt32 token).written = some val ∧
    (BitVec.ofInt 32 val < min ∨
      (extractInt32 token).good = true ∧ (readUnit (extractInt32 token).rest).2 = false)

/-! ## Letters -/

/-- A letter comes from itself and from its capital. -/
theorem toLowerCase_eq_iff {c l : BitVec 8} (hl : l ∈ [ch 'k', ch 'm', ch 'g', ch 'b']) :
    toLowerCase c = l ↔ c = l ∨ c = l - 0x20#8 := by
  simp only [List.mem_cons, List.not_mem_nil, or_false] at hl
  rcases hl with rfl | rfl | rfl | rfl <;> (revert c; decide +kernel)

/-- The factor of a letter is what the letter sets `mult` to, and the letter is no `b`. -/
theorem ofLetter_eq_some {c : BitVec 8} {factor : Nat} (h : SizeSuffix.ofLetter c = some factor) :
    (toLowerCase c = ch 'k' ∧ factor = 2 ^ 10) ∨ (toLowerCase c = ch 'm' ∧ factor = 2 ^ 20) ∨
      (toLowerCase c = ch 'g' ∧ factor = 2 ^ 30) := by
  unfold SizeSuffix.ofLetter at h
  split_ifs at h with hk hm hg
  · exact .inl ⟨(toLowerCase_eq_iff (by decide)).mpr hk, (Option.some.inj h).symm⟩
  · exact .inr (.inl ⟨(toLowerCase_eq_iff (by decide)).mpr hm, (Option.some.inj h).symm⟩)
  · exact .inr (.inr ⟨(toLowerCase_eq_iff (by decide)).mpr hg, (Option.some.inj h).symm⟩)

/-- The letters behind a size's numeral are accepted unless they are a unit alone. -/
theorem readUnit_eq {letters : List (BitVec 8)} {suffix : SizeSuffix}
    (h : SizeSuffix.ofLetters letters = some suffix) :
    readUnit letters = (BitVec.ofNat 32 suffix.factor, suffix.complete) := by
  match letters, h with
  | [], h =>
    obtain rfl := Option.some.inj h
    rfl
  | [c], h =>
    obtain ⟨factor, hfactor, rfl⟩ := Option.map_eq_some_iff.mp h
    rcases ofLetter_eq_some hfactor with ⟨hc, rfl⟩ | ⟨hc, rfl⟩ | ⟨hc, rfl⟩ <;>
      (simp only [readUnit, List.headD_nil, hc]; decide)
  | [c, b], h =>
    obtain ⟨hb, h⟩ := Option.ite_none_right_eq_some.mp h
    obtain ⟨factor, hfactor, rfl⟩ := Option.map_eq_some_iff.mp h
    have hb : toLowerCase b = ch 'b' := (toLowerCase_eq_iff (by decide)).mpr hb
    rcases ofLetter_eq_some hfactor with ⟨hc, rfl⟩ | ⟨hc, rfl⟩ | ⟨hc, rfl⟩ <;>
      (simp only [readUnit, List.headD_cons, hc, hb]; decide)

/-- A suffix makes no size smaller. -/
theorem one_le_factor {letters : List (BitVec 8)} {suffix : SizeSuffix}
    (h : SizeSuffix.ofLetters letters = some suffix) : 1 ≤ suffix.factor := by
  match letters, h with
  | [], h =>
    obtain rfl := Option.some.inj h
    decide
  | [c], h =>
    obtain ⟨factor, hfactor, rfl⟩ := Option.map_eq_some_iff.mp h
    rcases ofLetter_eq_some hfactor with ⟨-, rfl⟩ | ⟨-, rfl⟩ | ⟨-, rfl⟩ <;> decide
  | [c, b], h =>
    obtain ⟨-, h⟩ := Option.ite_none_right_eq_some.mp h
    obtain ⟨factor, hfactor, rfl⟩ := Option.map_eq_some_iff.mp h
    rcases ofLetter_eq_some hfactor with ⟨-, rfl⟩ | ⟨-, rfl⟩ | ⟨-, rfl⟩ <;> decide

/-! ## Answers -/

variable {token : List (BitVec 8)} {min : BitVec 32} {n : Nat} {suffix : SizeSuffix}

/-- What a size whose numeral fits is read as. -/
theorem parseInt32_of_lt (h : sizeString token = some (n, suffix)) (hn : n < 2 ^ 31) :
    parseInt32 token min = some (if n < min.toNat then false else suffix.complete,
      BitVec.ofNat 32 (n * suffix.factor)) := by
  obtain ⟨hdigits, h⟩ := Option.ite_none_left_eq_some.mp h
  obtain ⟨suffix', hsuffix, heq⟩ := Option.map_eq_some_iff.mp h
  obtain ⟨rfl, rfl⟩ := Prod.mk.inj heq
  have hval : BitVec.ofInt 32 (numeral (token.takeWhile isDigit) : Int) =
      BitVec.ofNat 32 (numeral (token.takeWhile isDigit)) := BitVec.ofInt_natCast ..
  have hlt : BitVec.ofNat 32 (numeral (token.takeWhile isDigit)) < min ↔
      numeral (token.takeWhile isDigit) < min.toNat := by
    rw [BitVec.lt_def, BitVec.toNat_ofNat, Nat.mod_eq_of_lt (by omega)]
  simp only [parseInt32, extractInt32_of_digits hdigits, if_neg (Nat.not_le.mpr hn), if_true,
    readUnit_eq hsuffix, Option.map_some, hval, hlt, BitVec.ofNat_mul]

/-- A numeral that does not fit is read as the largest number, without its unit. -/
theorem parseInt32_of_le (h : sizeString token = some (n, suffix)) (hn : 2 ^ 31 ≤ n) :
    parseInt32 token min = some (decide (min.toNat < 2 ^ 31), BitVec.ofNat 32 (2 ^ 31 - 1)) := by
  obtain ⟨hdigits, h⟩ := Option.ite_none_left_eq_some.mp h
  obtain ⟨suffix', hsuffix, heq⟩ := Option.map_eq_some_iff.mp h
  obtain ⟨rfl, rfl⟩ := Prod.mk.inj heq
  have hval : BitVec.ofInt 32 (2 ^ 31 - 1) = BitVec.ofNat 32 (2 ^ 31 - 1) := rfl
  have hlt : (if BitVec.ofNat 32 (2 ^ 31 - 1) < min then false else true) =
      decide (min.toNat < 2 ^ 31) := by
    have hiff : BitVec.ofNat 32 (2 ^ 31 - 1) < min ↔ ¬ min.toNat < 2 ^ 31 := by
      rw [BitVec.lt_def, BitVec.toNat_ofNat]
      omega
    simp only [hiff]
    split_ifs with h
    · exact (decide_eq_true h).symm
    · exact (decide_eq_false h).symm
  simp only [parseInt32, extractInt32_of_digits hdigits, if_pos hn, Bool.false_eq_true, if_false,
    Option.map_some, hval, hlt]
  rfl

theorem le_mul_factor (h : sizeString token = some (n, suffix)) : n ≤ n * suffix.factor := by
  obtain ⟨-, h⟩ := Option.ite_none_left_eq_some.mp h
  obtain ⟨suffix', hsuffix, heq⟩ := Option.map_eq_some_iff.mp h
  obtain ⟨rfl, rfl⟩ := Prod.mk.inj heq
  exact Nat.le_mul_of_pos_right _ (one_le_factor hsuffix)

theorem sizeOf_eq (h : sizeString token = some (n, suffix)) :
    sizeOf token = some (n * suffix.factor) := by
  rw [sizeOf, h, Option.map_some]

/-- A size is judged right if it is accepted, with its number, just when it is in the range. -/
theorem parsedRight_of_size (h : sizeString token = some (n, suffix)) {ok : Bool}
    {value : BitVec 32} (hparse : parseInt32 token min = some (ok, value)) :
    ParsedRight token min ↔
      (ok = true ↔ n * suffix.factor < 2 ^ 31 ∧ min.toNat ≤ n * suffix.factor) ∧
        (ok = true → n * suffix.factor = value.toNat) := by
  unfold ParsedRight
  rw [hparse, sizeOf_eq h]
  simp

end Pebil

import Mathlib.Data.BitVec
import Mathlib.Tactic.SplitIfs

/-!
# Reading a number from a stream of characters

`stream >> val` for a 32-bit `val`: white space is skipped, then a sign and decimal digits are
read. If there is nothing behind the white space, `val` is not written; if there are no digits
it is 0, and if the number does not fit, the nearest one that does. All three fail the stream.
-/

namespace Pebil

/-- The code of a character. -/
def ch (c : Char) : BitVec 8 := BitVec.ofNat 8 c.toNat

/-- `isspace` in the C locale. -/
def isSpace (c : BitVec 8) : Bool := c == 0x20#8 || (0x09#8 ≤ c && c ≤ 0x0d#8)

def isDigit (c : BitVec 8) : Bool := ch '0' ≤ c && c ≤ ch '9'

/-- The value of decimal digits. -/
def numeral (digits : List (BitVec 8)) : Nat :=
  digits.foldl (fun n c => 10 * n + (c - ch '0').toNat) 0

/-- A sign and what is behind it. -/
def takeSign : List (BitVec 8) → Bool × List (BitVec 8)
  | [] => (false, [])
  | c :: l => if c = ch '-' then (true, l) else if c = ch '+' then (false, l) else (false, c :: l)

/-- What `stream >> val` leaves: what it has written, whether the stream is good, and the
characters that it has not read. -/
structure Extraction where
  written : Option Int
  good : Bool
  rest : List (BitVec 8)
  deriving DecidableEq, Repr

/-- `stream >> val` for an `int32_t`. -/
def extractInt32 (stream : List (BitVec 8)) : Extraction :=
  let l := stream.dropWhile isSpace
  -- no character is left: the stream fails before anything is written
  if l = [] then ⟨none, false, []⟩
  else
    let (negative, l) := takeSign l
    let digits := l.takeWhile isDigit
    if digits = [] then ⟨some 0, false, l⟩
    else
      let n : Int := if negative then -numeral digits else numeral digits
      let rest := l.dropWhile isDigit
      if 2 ^ 31 ≤ n then ⟨some (2 ^ 31 - 1), false, rest⟩
      else if n < -2 ^ 31 then ⟨some (-2 ^ 31), false, rest⟩
      else ⟨some n, true, rest⟩

theorem isSpace_of_isDigit {c : BitVec 8} (h : isDigit c = true) : isSpace c = false := by
  revert c
  decide +kernel

theorem takeSign_of_isDigit {c : BitVec 8} (h : isDigit c = true) (l : List (BitVec 8)) :
    takeSign (c :: l) = (false, c :: l) := by
  have hminus : c ≠ ch '-' := by rintro rfl; cases h
  have hplus : c ≠ ch '+' := by rintro rfl; cases h
  rw [takeSign, if_neg hminus, if_neg hplus]

/-- A stream that begins with digits is read up to their end. -/
theorem extractInt32_of_digits {stream : List (BitVec 8)} (h : stream.takeWhile isDigit ≠ []) :
    extractInt32 stream =
      if 2 ^ 31 ≤ numeral (stream.takeWhile isDigit) then
        ⟨some (2 ^ 31 - 1), false, stream.dropWhile isDigit⟩
      else ⟨some (numeral (stream.takeWhile isDigit)), true, stream.dropWhile isDigit⟩ := by
  cases stream with
  | nil => exact absurd rfl h
  | cons c l =>
    have hc : isDigit c = true := by
      by_contra hc
      exact h (List.takeWhile_cons_of_neg hc)
    have hspace : (c :: l).dropWhile isSpace = c :: l :=
      List.dropWhile_cons_of_neg (by simp [isSpace_of_isDigit hc])
    unfold extractInt32
    simp only [hspace, takeSign_of_isDigit hc, if_neg h, List.cons_ne_nil, if_false,
      Bool.false_eq_true]
    split_ifs <;> first | rfl | omega

end Pebil

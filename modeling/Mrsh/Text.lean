import Mathlib.Algebra.Group.Int.Defs
import Mathlib.Algebra.Group.Nat.Defs
import Mrsh.Ast

namespace Mrsh

/-! # Characters and numbers of the C library

The character classes are those of the C locale. `strtol` clamps its result to
the range of a 64-bit `long`, whose conversion to `int` keeps the low 32 bits.
-/

/-- What holds of the characters of a text is tested on the text, not on all characters. -/
instance (priority := high) decidableForallChars (p : Char → Prop) [DecidablePred p] (text : Str) :
    Decidable (∀ c ∈ text, p c) := List.decidableBAll p text

def isBlank (c : Char) : Bool := c == ' ' || c == '\t'

def isSpace (c : Char) : Bool :=
  c == ' ' || c == '\t' || c == '\n' || c == '\x0b' || c == '\x0c' || c == '\r'

def longMax : Int := 2 ^ 63 - 1

def longMin : Int := -(2 ^ 63)

def clampLong (value : Int) : Int := max longMin (min longMax value)

/-- Conversion of a `long` to `int`. -/
def toInt32 (value : Int) : Int := value.bmod (2 ^ 32)

theorem toInt32_eq {value : Int} (low : -(2 ^ 31) ≤ value) (high : value < 2 ^ 31) :
    toInt32 value = value := by
  unfold toInt32
  exact Int.bmod_eq_of_le (by omega) (by omega)

/-- The value of `c` as a digit, where letters follow the decimal digits. -/
def digitValue (c : Char) : Nat :=
  if c.isDigit then c.toNat - '0'.toNat
  else if c.isLower then c.toNat - 'a'.toNat + 10
  else if c.isUpper then c.toNat - 'A'.toNat + 10
  else 36

/-- Reads digits of the given base for as long as there are any. -/
def readDigits (base : Nat) (value : Nat) : Str → Nat × Str
  | [] => (value, [])
  | c :: rest =>
      if digitValue c < base then readDigits base (value * base + digitValue c) rest
      else (value, c :: rest)

/-- The base that `strtol` uses, and the text after the prefix that selects it.
A prefix `0x` only counts when a hexadecimal digit follows. -/
def strtolBase (base : Nat) (text : Str) : Nat × Str :=
  match text with
  | '0' :: x :: d :: rest =>
      if base == 0 && (x == 'x' || x == 'X') && digitValue d < 16 then (16, d :: rest)
      else (if base == 0 then 8 else base, text)
  | '0' :: _ => (if base == 0 then 8 else base, text)
  | _ => (if base == 0 then 10 else base, text)

/-- What `strtol` reports: its value, the text at which the scan stopped and
whether it sets `errno` to `ERANGE`. -/
structure Scanned where
  value : Int
  rest : Str
  outOfRange : Bool
deriving Repr, DecidableEq

/-- The scan stops at the start of the text when there is no number. -/
def strtol (base : Nat) (text : Str) : Scanned :=
  let unspaced := text.dropWhile isSpace
  let (negative, unsigned) := match unspaced with
    | '-' :: rest => (true, rest)
    | '+' :: rest => (false, rest)
    | rest => (false, rest)
  let (base, digits) := strtolBase base unsigned
  match digits with
  | [] => ⟨0, text, false⟩
  | d :: _ =>
      if digitValue d < base then
        let (magnitude, rest) := readDigits base 0 digits
        let value : Int := if negative then -magnitude else magnitude
        ⟨clampLong value, rest, clampLong value != value⟩
      else ⟨0, text, false⟩

/-- The number printed by `%d` and `%ld`. -/
def decimal (value : Int) : Str :=
  if value < 0 then '-' :: Nat.toDigits 10 value.natAbs else Nat.toDigits 10 value.natAbs

end Mrsh

import Mrsh.Parser.Arithm
import Mrsh.Shell.State

namespace Mrsh

open Mrsh.Data

/-! # Evaluation of arithmetic expressions

The functions of `shell/arithm.c`. A `long` wraps around; the operations that
trap or that C leaves undefined stop the run. The functions get the contents of
the location of their result, which an unary plus leaves as they are, and
return its new contents, or `none` where they return false.
-/

def wrapLong (value : Int) : Int := value.bmod (2 ^ 64)

def bitsOf (value : Int) : BitVec 64 := BitVec.ofInt 64 value

def boolLong (value : Bool) : Int := if value then 1 else 0

section

variable {World : Type} [System World]

def argv0Message (parts : List Str) : Leaf World Unit := do
  let argv0 ← frameArg 0
  eprintf (argv0 ++ (parts.flatMap fun part => ": ".toList ++ part) ++ ['\n'])

/-- The value of the variable, and its attributes if it is set. -/
def runVariable (name : Str) : Leaf World (Option (Int × Attribs)) := do
  match ← mrshEnvGet name with
  | none =>
      if ← optionSet .nounset then
        argv0Message [name, "unbound variable".toList]
        pure none
      else pure (some (0, .none))
  | some var => do
      let (val, rest) := System.strtod World var.value
      if rest == var.value || !rest.isEmpty then do
        argv0Message [name, "not a number".toList, var.value]
        pure none
      else pure (some (val, var.attribs))

/-- A quotient or remainder, which traps for the one quotient that is no `long`. -/
def divideLong (operation : Int → Int → Int) (left right : Int) : Leaf World Int := do
  assertThat (!(left == longMin && right == -1))
  pure (operation left right)

def shiftLong (operation : Int → Nat → Int) (left right : Int) : Leaf World Int := do
  assertThat (0 ≤ right && right < 64)
  pure (wrapLong (operation left right.toNat))

def shiftLeft (left : Int) (right : Nat) : Int := left * 2 ^ right

def shiftRight (left : Int) (right : Nat) : Int := left / 2 ^ right

def bitwise (operation : BitVec 64 → BitVec 64 → BitVec 64) (left right : Int) : Int :=
  (operation (bitsOf left) (bitsOf right)).toInt

def runArithmBinopType (type : ArithmBinopType) (left right : Int) : Leaf World (Option Int) := do
  match type with
  | .asterisk => pure (some (wrapLong (left * right)))
  | .slash =>
      if right == 0 then
        argv0Message ["division by zero".toList, decimal left ++ ['/'] ++ decimal right]
        pure none
      else some <$> divideLong Int.tdiv left right
  | .percent =>
      if right == 0 then
        argv0Message ["division by zero".toList, decimal left ++ ['%'] ++ decimal right]
        pure none
      else some <$> divideLong Int.tmod left right
  | .plus => pure (some (wrapLong (left + right)))
  | .minus => pure (some (wrapLong (left - right)))
  | .dless => some <$> shiftLong shiftLeft left right
  | .dgreat => some <$> shiftLong shiftRight left right
  | .less => pure (some (boolLong (left < right)))
  | .lesseq => pure (some (boolLong (left ≤ right)))
  | .great => pure (some (boolLong (left > right)))
  | .greateq => pure (some (boolLong (left ≥ right)))
  | .deq => pure (some (boolLong (left == right)))
  | .bangeq => pure (some (boolLong (left != right)))
  | .and => pure (some (bitwise (· &&& ·) left right))
  | .circ => pure (some (bitwise (· ^^^ ·) left right))
  | .or => pure (some (bitwise (· ||| ·) left right))
  | .dand => pure (some (boolLong (left != 0 && right != 0)))
  | .dor => pure (some (boolLong (left != 0 || right != 0)))

/-- `result` is what the location of the result holds before. -/
def runArithmUnopType (type : ArithmUnopType) (val result : Int) : Int :=
  match type with
  | .plus => result
  | .minus => wrapLong (-val)
  | .tilde => -val - 1
  | .bang => boolLong (val == 0)

def runArithmAssignOp (op : ArithmAssignOp) (cur val : Int) : Leaf World (Option Int) := do
  match op with
  | .none => pure (some val)
  | .asterisk => pure (some (wrapLong (cur * val)))
  | .slash =>
      if val == 0 then
        eprintf ("division by zero: ".toList ++ decimal cur ++ ['/'] ++ decimal val ++ ['\n'])
        pure none
      else some <$> divideLong Int.tdiv cur val
  | .percent =>
      if val == 0 then
        eprintf ("division by zero: ".toList ++ decimal cur ++ ['%'] ++ decimal val ++ ['\n'])
        pure none
      else some <$> divideLong Int.tmod cur val
  | .plus => pure (some (wrapLong (cur + val)))
  | .minus => pure (some (wrapLong (cur - val)))
  | .dless => some <$> shiftLong shiftLeft cur val
  | .dgreat => some <$> shiftLong shiftRight cur val
  | .and => pure (some (bitwise (· &&& ·) cur val))
  | .circ => pure (some (bitwise (· ^^^ ·) cur val))
  | .or => pure (some (bitwise (· ||| ·) cur val))

def mrshRunArithmExpr (expr : ArithmExpr) (result : Int) : Leaf World (Option Int) := do
  match expr with
  | .literal value => pure (some value)
  | .var name => do
      let found ← runVariable name
      pure (found.map Prod.fst)
  | .binop type left right =>
      match ← mrshRunArithmExpr left (← call System.indeterminate) with
      | none => pure none
      | some left =>
          match ← mrshRunArithmExpr right (← call System.indeterminate) with
          | none => pure none
          | some right => runArithmBinopType type left right
  | .unop type body =>
      match ← mrshRunArithmExpr body (← call System.indeterminate) with
      | none => pure none
      | some val => pure (some (runArithmUnopType type val result))
  | .cond condition body elsePart =>
      match ← mrshRunArithmExpr condition (← call System.indeterminate) with
      | none => pure none
      | some condition =>
          if condition != 0 then mrshRunArithmExpr body result
          else mrshRunArithmExpr elsePart result
  | .assign op name value =>
      match ← mrshRunArithmExpr value (← call System.indeterminate) with
      | none => pure none
      | some val =>
          match ← if op == .none then pure (some (0, .none)) else runVariable name with
          | none => pure none
          | some (cur, attribs) =>
              match ← runArithmAssignOp op cur val with
              | none => pure none
              | some result => do
                  mrshEnvSet .arithmetic name (decimal result) attribs
                  pure (some result)

end

end Mrsh

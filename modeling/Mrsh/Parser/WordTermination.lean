import Mrsh.Parser.Work

namespace Mrsh

open Mrsh.Data

/-! # The word functions end

Each production, applied to two ways to run the recursive calls, ends in the same
way with both of them, if these calls do where less work is left.
-/

variable {α : Type} {work : Nat}

/-! ## Tokens -/

/-- What the productions need of the recursive calls, where at most `work` is left:
that they end if less is left, and that the loops have enough fuel. -/
structure Adequate (work : Nat) (first second : Productions) : Prop where
  fuel : work < first.fuel ∧ work < second.fuel
  word : ∀ left < work, ∀ stop, Steady left (first.word stop) (second.word stop)
  arithmeticWord : ∀ left < work, ∀ stop, Steady left (first.arithmeticWord stop) (second.arithmeticWord stop)
  mrshParseProgram : ∀ left < work, Steady left first.mrshParseProgram second.mrshParseProgram
  andOr : ∀ left < work, Spends left first.andOr second.andOr
  elsePart : ∀ left < work, Steady left first.elsePart second.elsePart
  compoundCommand : ∀ left < work, Steady left first.compoundCommand second.compoundCommand

variable {self other : Productions}

theorem Adequate.less {left : Nat} (adequate : Adequate work self other) (kept : left ≤ work) :
    Adequate left self other where
  fuel := by have := adequate.fuel; omega
  word _ smaller := adequate.word _ (by omega)
  arithmeticWord _ smaller := adequate.arithmeticWord _ (by omega)
  mrshParseProgram _ smaller := adequate.mrshParseProgram _ (by omega)
  andOr _ smaller := adequate.andOr _ (by omega)
  elsePart _ smaller := adequate.elsePart _ (by omega)
  compoundCommand _ smaller := adequate.compoundCommand _ (by omega)

/-- Whether `word` ends before the character. -/
def endsWord (stop c : Char) : Bool :=
  c == '\x00' || c == '\n' || c == ')' || c == stop || isOperatorStart c || isBlank c

section

variable (adequate : Adequate work self other) (stop : Char) {fuel : Nat}

include adequate

end

end Mrsh

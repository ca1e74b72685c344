import Mrsh.Parser.WordTermination

namespace Mrsh

open Mrsh.Data

/-! # The parser ends

A level of the recursion whose fuel is large enough for the work that is left never
runs out of it, and the result does not depend on how large the fuel is.
-/

variable {α : Type} {work : Nat} {self other : Productions}

/-! ## Loops -/

section

variable (adequate : Adequate work self other)
include adequate

end

/-! ## Compound commands -/

/-- What the lists of commands need: the AND-OR lists they consist of may begin
where the list does. -/
structure Continues (work : Nat) (first second : Productions) : Prop where
  adequate : Adequate work first second
  andOr : ∀ left ≤ work, Spends left first.andOr second.andOr

theorem Adequate.continues {left : Nat} (adequate : Adequate work self other) (spent : left < work) :
    Continues left self other :=
  ⟨adequate.less (by omega), fun _ kept => adequate.andOr _ (by omega)⟩

theorem Continues.less {left : Nat} (continues : Continues work self other) (kept : left ≤ work) :
    Continues left self other :=
  ⟨continues.adequate.less kept, fun _ less => continues.andOr _ (by omega)⟩

section

variable (continues : Continues work self other)
include continues

end

section

variable (adequate : Adequate work self other)
include adequate

end

section

variable (continues : Continues work self other)
include continues

end

/-! ## The recursion -/

end Mrsh

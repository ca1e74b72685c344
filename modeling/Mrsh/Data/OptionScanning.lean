import Mathlib.Data.List.Basic

namespace Mrsh.Data

/-! # Command options

The options of a list of arguments, as the guidelines for the syntax of utilities
have them: letters behind a hyphen, of which some take an argument, until `--` or
the first operand.
-/

section

variable (takes : Char → Option Bool)

/-- The scan of the arguments `later`, where `letters` are left of the group before them. It gives the
options with their arguments, and the operands. `takes` says which letters are options, and whether
they take an argument. -/
inductive ScansTo : List Char → List (List Char) → List (Char × Option (List Char)) → List (List Char) → Prop
  | finished : ScansTo [] [] [] []
  | terminator {later : List (List Char)} : ScansTo [] (['-', '-'] :: later) [] later
  | operand {arg : List Char} {later : List (List Char)} (plain : ∀ c letters, arg ≠ '-' :: c :: letters) :
      ScansTo [] (arg :: later) [] (arg :: later)
  | group {c : Char} {letters : List Char} {later operands : List (List Char)}
      {results : List (Char × Option (List Char))} (notEnd : c = '-' → letters ≠ [])
      (scans : ScansTo (c :: letters) later results operands) :
      ScansTo [] (('-' :: c :: letters) :: later) results operands
  | flag {c : Char} {letters : List Char} {later operands : List (List Char)}
      {results : List (Char × Option (List Char))} (flag : takes c = some false)
      (scans : ScansTo letters later results operands) :
      ScansTo (c :: letters) later ((c, none) :: results) operands
  | attached {c : Char} {letters : List Char} {later operands : List (List Char)}
      {results : List (Char × Option (List Char))} (argument : takes c = some true) (more : letters ≠ [])
      (scans : ScansTo [] later results operands) :
      ScansTo (c :: letters) later ((c, some letters) :: results) operands
  | separate {c : Char} {arg : List Char} {later operands : List (List Char)}
      {results : List (Char × Option (List Char))} (argument : takes c = some true)
      (scans : ScansTo [] later results operands) :
      ScansTo [c] (arg :: later) ((c, some arg) :: results) operands

end

/-! ## Lists with errors -/

/-- The scan of any list. An unknown option is reported as `?`, and a missing argument as `?`, or as `:`
where the scan is quiet. A quiet scan tells the letter in place of the argument. -/
inductive Reports (takes : Char → Option Bool) (quiet : Bool) :
    List Char → List (List Char) → List (Char × Option (List Char)) → List (List Char) → Prop
  | finished : Reports takes quiet [] [] [] []
  | terminator {later : List (List Char)} : Reports takes quiet [] (['-', '-'] :: later) [] later
  | operand {arg : List Char} {later : List (List Char)} (plain : ∀ c letters, arg ≠ '-' :: c :: letters) :
      Reports takes quiet [] (arg :: later) [] (arg :: later)
  | group {c : Char} {letters : List Char} {later operands : List (List Char)}
      {results : List (Char × Option (List Char))} (notEnd : c = '-' → letters ≠ [])
      (reports : Reports takes quiet (c :: letters) later results operands) :
      Reports takes quiet [] (('-' :: c :: letters) :: later) results operands
  | flag {c : Char} {letters : List Char} {later operands : List (List Char)}
      {results : List (Char × Option (List Char))} (flag : takes c = some false)
      (reports : Reports takes quiet letters later results operands) :
      Reports takes quiet (c :: letters) later ((c, none) :: results) operands
  | attached {c : Char} {letters : List Char} {later operands : List (List Char)}
      {results : List (Char × Option (List Char))} (argument : takes c = some true) (more : letters ≠ [])
      (reports : Reports takes quiet [] later results operands) :
      Reports takes quiet (c :: letters) later ((c, some letters) :: results) operands
  | separate {c : Char} {arg : List Char} {later operands : List (List Char)}
      {results : List (Char × Option (List Char))} (argument : takes c = some true)
      (reports : Reports takes quiet [] later results operands) :
      Reports takes quiet [c] (arg :: later) ((c, some arg) :: results) operands
  | unknown {c : Char} {letters : List Char} {later operands : List (List Char)}
      {results : List (Char × Option (List Char))} (unknown : takes c = none)
      (reports : Reports takes quiet letters later results operands) :
      Reports takes quiet (c :: letters) later (('?', if quiet then some [c] else none) :: results) operands
  | missing {c : Char} (argument : takes c = some true) :
      Reports takes quiet [c] [] [(if quiet then ':' else '?', if quiet then some [c] else none)] []

namespace Reports

variable {takes : Char → Option Bool} {quiet : Bool} {letters : List Char} {later operands : List (List Char)}
  {results : List (Char × Option (List Char))}

theorem results_of_letters (reports : Reports takes quiet letters later results operands) (some : letters ≠ []) :
    results ≠ [] := by
  cases reports with
  | finished => exact absurd rfl some
  | terminator => exact absurd rfl some
  | operand => exact absurd rfl some
  | group => exact absurd rfl some
  | flag => exact List.cons_ne_nil _ _
  | attached => exact List.cons_ne_nil _ _
  | separate => exact List.cons_ne_nil _ _
  | unknown => exact List.cons_ne_nil _ _
  | missing => exact List.cons_ne_nil _ _

theorem operands_suffix (reports : Reports takes quiet letters later results operands) : operands <:+ later := by
  induction reports with
  | finished => exact List.suffix_refl _
  | terminator => exact List.suffix_cons _ _
  | operand => exact List.suffix_refl _
  | group _ _ ih => exact ih.trans (List.suffix_cons _ _)
  | flag _ _ ih => exact ih
  | attached _ _ _ ih => exact ih
  | separate _ _ ih => exact ih.trans (List.suffix_cons _ _)
  | unknown _ _ ih => exact ih
  | missing => exact List.suffix_refl _

theorem results_nil (reports : Reports takes quiet [] later results later) : results = [] := by
  cases reports with
  | finished => rfl
  | operand => rfl
  | group _ reports =>
      have few := reports.operands_suffix.length_le
      simp only [List.length_cons] at few
      omega

/-- A list of known options with their arguments has no errors to report. -/
theorem of_scansTo (quiet : Bool) (scans : ScansTo takes letters later results operands) :
    Reports takes quiet letters later results operands := by
  induction scans with
  | finished => exact .finished
  | terminator => exact .terminator
  | operand plain => exact .operand plain
  | group notEnd _ ih => exact .group notEnd ih
  | flag flag _ ih => exact .flag flag ih
  | attached argument more _ ih => exact .attached argument more ih
  | separate argument _ ih => exact .separate argument ih

end Reports

end Mrsh.Data

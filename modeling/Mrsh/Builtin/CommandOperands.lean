import Mrsh.Builtin.OptionSequence
import Mrsh.Shell.Task.Task

namespace Mrsh

open Mrsh.Data

/-! # The builtins that command runs

The arguments that `command` gives to a builtin.
-/

section

variable {World : Type} [System World]

/-- Whatever `mrsh_run_builtin` does, `command` with the arguments `args` ends as it does with `vector`. -/
def CallsBuiltin (args vector : List Str) (state : Shell World) : Prop :=
  ∃ getopt, ∀ self : Tasks World,
    Exec.run (builtinCommand self args) state = Exec.run (self.mrshRunBuiltin vector) { state with getopt }

theorem builtin_plain {name : Str} (isBuiltin : mrshHasBuiltin name = true) : strChar name 0 ≠ '-' := by
  have plain : ∀ name ∈ unspecifiedNames ++ builtins.map Builtin.name, strChar name 0 ≠ '-' := by decide
  exact plain name (mrshHasBuiltin_mem isBuiltin)

theorem builtinCommand_builtin (self : Tasks World) {name : Str} (isBuiltin : mrshHasBuiltin name = true)
    (args : List Str) (state : Shell World) :
    Exec.run (builtinCommand self ("command".toList :: name :: args)) state =
      Exec.run (self.mrshRunBuiltin args) { state with getopt := state.getopt.plain } := by
  have scanned := forOptions_plain "command".toList ":vVp".toList args (⟨false, false⟩ : CommandOptions) commandOption
    (.inl (builtin_plain isBuiltin)) state
  have operands : ∀ (first : Str) (args : List Str), Leaf.run (operandsOf (first :: args))
      { state with getopt := state.getopt.plain } = .done args { state with getopt := state.getopt.plain } :=
    fun _ _ => rfl
  simp only [builtinCommand, Exec.run_bind, Exec.run_leaf, scanned, Outcome.andThen_done, operands, runCommandOperands,
    List.headD_cons, isBuiltin, if_true]
  rfl

/-- The vector that `command` gives to a builtin is that of the operands without the name. -/
theorem callsBuiltin_iff {name : Str} (isBuiltin : mrshHasBuiltin name = true) (args vector : List Str)
    (state : Shell World) : CallsBuiltin ("command".toList :: name :: args) vector state ↔ vector = args := by
  constructor
  · rintro ⟨getopt, calls⟩
    by_contra other
    have told := calls { Tasks.exhausted with mrshRunBuiltin := fun given => pure (if given = args then 1 else 0) }
    rw [builtinCommand_builtin _ isBuiltin] at told
    simp [other] at told
  · rintro rfl
    exact ⟨_, fun self => builtinCommand_builtin self isBuiltin vector state⟩

/-- `command` never gives a builtin its own vector, and the vector that it gives is empty without arguments. -/
theorem command_not_builtin {name : Str} (isBuiltin : mrshHasBuiltin name = true) (args : List Str)
    (state : Shell World) :
    ¬ CallsBuiltin ("command".toList :: name :: args) (name :: args) state ∧
      ∀ vector, CallsBuiltin ("command".toList :: name :: args) vector state → (0 < vector.length ↔ args ≠ []) := by
  refine ⟨fun calls => ?_, fun vector calls => ?_⟩
  · have same := (callsBuiltin_iff isBuiltin args _ state).mp calls
    exact absurd (congrArg List.length same) (Nat.succ_ne_self _)
  · rw [(callsBuiltin_iff isBuiltin args vector state).mp calls]
    exact List.length_pos_iff

end

/-- `command true` is not `true`. -/
theorem command_not_true :
    ¬ CallsBuiltin ["command".toList, "true".toList] ["true".toList] (mrshStateCreate [] Machine.isolated) := by
  have isBuiltin : mrshHasBuiltin "true".toList = true := by decide
  exact (command_not_builtin isBuiltin [] (mrshStateCreate [] Machine.isolated)).1

/-- The assertion of `mrsh_run_builtin` fails for `command true`, and `command export x` runs nothing. -/
theorem command_true_aborts :
    (∃ after, Exec.run (mrshRunBuiltin (tasks 2) ["command".toList, "true".toList])
      (mrshStateCreate [] Machine.isolated) = .stopped .aborted after) ∧
    (Exec.run (mrshRunBuiltin (tasks 2) ["true".toList]) (mrshStateCreate [] Machine.isolated)).value? = some 0 ∧
    (Exec.run (mrshRunBuiltin (tasks 2) ["command".toList, "export".toList, "x".toList])
      (mrshStateCreate [] Machine.isolated)).value? = some (-1) ∧
    (Exec.run (mrshRunBuiltin (tasks 2) ["export".toList, "x".toList])
      (mrshStateCreate [] Machine.isolated)).value? = some 0 := by
  refine ⟨⟨_, rfl⟩, rfl, rfl, rfl⟩

end Mrsh

import Mrsh.Builtin.Control
import Mrsh.Shell.Breaking
import Mrsh.Shell.DispatchPaths

namespace Mrsh

open Mrsh.Data

/-! # Looking up a name

`type`, `command -v` and `run_simple_command` look a name up in chains of their
own. The chain of `type` has neither the functions nor the reserved words.
-/

section

variable {World : Type} [System World] {name : Str} {state : Shell World}

/-! ## The chains -/

/-- What the loop of `builtin_type` finds of a name. -/
def TypeResolves (name : Str) (state : Shell World) : Prop :=
  ∃ after, Leaf.run (typeNames [name] false) state = .done 0 after

def CommandResolves (name : Str) (state : Shell World) : Prop :=
  ∃ after, Leaf.run (verifyCommand name false) state = .done 0 after

/-- The kind of command that `run_simple_command` takes a name for. -/
inductive NameDispatches (name : Str) (state : Shell World) : DispatchPath → Prop where
  | function {body : Command} (found : state.functions.get name = some body) : NameDispatches name state .function
  | builtin (noFunction : state.functions.get name = none) (isBuiltin : mrshHasBuiltin name = true) :
      NameDispatches name state .builtin
  | external {path : Str} {after : Shell World} (noFunction : state.functions.get name = none)
      (noBuiltin : mrshHasBuiltin name = false)
      (found : Leaf.run (expandPath name true false) state = .done (some path) after) :
      NameDispatches name state .external

/-- The two builtins agree about a name, and both know it if it can be run. -/
structure LookupsAgree (name : Str) (state : Shell World) : Prop where
  agree : TypeResolves name state ↔ CommandResolves name state
  runnable : ∀ path, NameDispatches name state path → TypeResolves name state ∧ CommandResolves name state

/-! ## The search path -/

theorem firstAccessible_run (file : Str) (exec : Bool) (basedirs : List Str) (state : Shell World) :
    ∃ found after, Leaf.run (firstAccessible file exec basedirs) state = .done found after := by
  induction basedirs generalizing state with
  | nil => exact ⟨none, state, rfl⟩
  | cons basedir basedirs ih =>
      rw [firstAccessible, Leaf.run_call_bind]
      cases (System.access (joinPath basedir file) exec state.world).1 with
      | ok _ => exact ⟨_, _, rfl⟩
      | error _ => exact ih _

theorem expandPath_run (file : Str) (exec defaultPath : Bool) (state : Shell World) :
    ∃ found after, Leaf.run (expandPath file exec defaultPath) state = .done found after := by
  rw [expandPath, Leaf.run_ite]
  split
  · exact ⟨_, _, rfl⟩
  · cases defaultPath with
    | true =>
        rw [if_pos rfl, Leaf.run_call_bind]
        cases (System.confstrPath state.world).1 with
        | none => exact ⟨none, _, rfl⟩
        | some path => exact firstAccessible_run file exec _ _
    | false =>
        rw [if_neg Bool.false_ne_true, Leaf.run_bind, envValue, Leaf.run_gets, Outcome.andThen_done]
        cases (state.vars.get "PATH".toList).map (·.value) with
        | none => exact ⟨none, state, rfl⟩
        | some path => exact firstAccessible_run file exec _ _

/-- The program that the search path has for a name. -/
def FindsProgram (name : Str) (state : Shell World) : Prop :=
  ∃ path after, Leaf.run (expandPath name true false) state = .done (some path) after

/-! ## What each chain finds -/

theorem mrshHasSpecialBuiltin_builtin (special : mrshHasSpecialBuiltin name = true) : mrshHasBuiltin name = true := by
  rw [mrshHasSpecialBuiltin] at special
  rw [mrshHasBuiltin]
  cases found : getBuiltin name with
  | none => simp [found] at special
  | some builtin => rfl

theorem findsProgram_iff {found : Option Str} {after : Shell World}
    (searched : Leaf.run (expandPath name true false) state = .done found after) :
    found.isSome ↔ FindsProgram name state := by
  constructor
  · intro some
    obtain ⟨path, rfl⟩ := Option.isSome_iff_exists.mp some
    exact ⟨path, after, searched⟩
  · rintro ⟨path, other, finds⟩
    obtain ⟨rfl, -⟩ := Outcome.done.inj (searched.symm.trans finds)
    rfl

theorem typeOf_run (name : Str) (state : Shell World) :
    ∃ line found after, Leaf.run (typeOf name) state = .done (line, found) after ∧
      (found = true ↔
        (state.aliases.get name).isSome ∨ mrshHasBuiltin name = true ∨ FindsProgram name state) := by
  rw [typeOf, Leaf.run_gets_bind]
  cases aliased : state.aliases.get name with
  | some value => exact ⟨_, true, state, rfl, by simp⟩
  | none =>
      cases special : mrshHasSpecialBuiltin name with
      | true => exact ⟨_, true, state, rfl, by simp [mrshHasSpecialBuiltin_builtin special]⟩
      | false =>
          cases isBuiltin : mrshHasBuiltin name with
          | true => exact ⟨_, true, state, rfl, by simp⟩
          | false =>
              obtain ⟨found, after, searched⟩ := expandPath_run name true false state
              have finds := findsProgram_iff searched
              dsimp only
              rw [if_neg Bool.false_ne_true, if_neg Bool.false_ne_true, Leaf.run_bind_of_done searched]
              cases found with
              | some path => exact ⟨_, true, after, rfl, by simp [finds.mp rfl]⟩
              | none => exact ⟨_, false, after, rfl, by simpa using finds⟩

theorem typeResolves_iff : TypeResolves name state ↔
    (state.aliases.get name).isSome ∨ mrshHasBuiltin name = true ∨ FindsProgram name state := by
  obtain ⟨line, found, after, looked, known⟩ := typeOf_run name state
  have ended : Leaf.run (typeNames [name] false) state =
      .done (if found then 0 else 1)
        { after with world := (System.printOut (line ++ ['\n']) after.world).2 } := by
    rw [typeNames, Leaf.run_bind, looked]
    cases found <;> rfl
  rw [← known, TypeResolves, ended]
  cases found with
  | true => exact ⟨fun _ => rfl, fun _ => ⟨_, rfl⟩⟩
  | false =>
      constructor
      · rintro ⟨_, other⟩
        cases other
      · intro other
        cases other

theorem verifyLine_run (name : Str) (state : Shell World) :
    ∃ line after, Leaf.run (verifyLine name false) state = .done line after ∧
      (line.isSome ↔
        (state.aliases.get name).isSome ∨ (state.functions.get name).isSome ∨ mrshHasBuiltin name = true ∨
          name ∈ keywords ∨ FindsProgram name state) := by
  rw [verifyLine, Leaf.run_gets_bind]
  cases aliased : state.aliases.get name with
  | some value => exact ⟨_, state, rfl, by simp⟩
  | none =>
      dsimp only
      rw [Leaf.run_gets_bind, Leaf.run_ite]
      split
      · rename_i known
        refine ⟨some name, state, rfl, ?_⟩
        simp only [Bool.or_eq_true, List.contains_iff_mem] at known
        simp only [Option.isSome_some, true_iff]
        rcases known with (function | isBuiltin) | reserved
        · exact .inr (.inl function)
        · exact .inr (.inr (.inl isBuiltin))
        · exact .inr (.inr (.inr (.inl reserved)))
      · rename_i unknown
        obtain ⟨found, after, searched⟩ := expandPath_run name true false state
        refine ⟨found, after, searched, ?_⟩
        simp only [Bool.or_eq_true, List.contains_iff_mem, not_or] at unknown
        simpa [unknown] using findsProgram_iff searched

theorem commandResolves_iff : CommandResolves name state ↔
    (state.aliases.get name).isSome ∨ (state.functions.get name).isSome ∨ mrshHasBuiltin name = true ∨
      name ∈ keywords ∨ FindsProgram name state := by
  obtain ⟨line, after, looked, known⟩ := verifyLine_run name state
  rw [← known, CommandResolves, verifyCommand, Leaf.run_bind_of_done looked]
  cases line with
  | some line => exact ⟨fun _ => rfl, fun _ => ⟨_, rfl⟩⟩
  | none =>
      constructor
      · rintro ⟨_, other⟩
        cases other
      · intro other
        cases other

section

variable {fuel : Nat} {ctx : Context} {sc expanded : SimpleCommand} {word : Word} {args : List Str}
  {begins : Shell World}
  (named : sc.name = some word)
  (dispatched : Exec.run (beforeDispatch (tasks fuel) ctx sc word) state = .done (.ok (expanded, args)) begins)

include named dispatched

/-- A command runs along the path that its name is taken for. -/
theorem NameDispatches.runs {path : DispatchPath} (dispatches : NameDispatches (args.headD []) begins path) :
    (path = .function ∧ ∃ body, Exec.run (runSimpleCommand (tasks fuel) ctx sc) state =
        Exec.run (runFunction (tasks fuel) ctx body args) begins) ∨
      (path = .builtin ∧ Exec.run (runSimpleCommand (tasks fuel) ctx sc) state =
        Exec.run (runBuiltin (tasks fuel) expanded args) begins) ∨
      (path = .external ∧ Exec.run (runSimpleCommand (tasks fuel) ctx sc) state =
        Leaf.run (runProcess (tasks fuel : Tasks World).fuel ctx expanded args) begins) := by
  rw [runSimpleCommand_dispatched named dispatched]
  cases dispatches with
  | function found => exact .inl ⟨rfl, _, by rw [found]⟩
  | builtin noFunction isBuiltin =>
      rw [noFunction, if_pos isBuiltin]
      exact .inr (.inl ⟨rfl, rfl⟩)
  | external noFunction noBuiltin _ =>
      rw [noFunction, noBuiltin, if_neg Bool.false_ne_true]
      exact .inr (.inr ⟨rfl, rfl⟩)

/-- A name that is taken for nothing is not found. -/
theorem runSimpleCommand_notFound (job : ctx.job.isSome = true)
    (nothing : ∀ path, ¬ NameDispatches (args.headD []) begins path) :
    ∃ after, Exec.run (runSimpleCommand (tasks fuel) ctx sc) state = .done 127 after := by
  rw [runSimpleCommand_dispatched named dispatched]
  cases function : begins.functions.get (args.headD []) with
  | some body => exact absurd (.function function) (nothing .function)
  | none =>
      cases isBuiltin : mrshHasBuiltin (args.headD []) with
      | true => exact absurd (.builtin function isBuiltin) (nothing .builtin)
      | false =>
          obtain ⟨found, located, searched⟩ := expandPath_run (args.headD []) true false begins
          cases found with
          | some path => exact absurd (.external function isBuiltin searched) (nothing .external)
          | none =>
              dsimp only
              rw [if_neg Bool.false_ne_true, runProcess, Leaf.run_bind, job]
              change ∃ after, Leaf.run (expandPath _ true false >>= _) _ = _
              rw [Leaf.run_bind_of_done searched]
              exact ⟨_, rfl⟩

end

/-! ## When the chains agree -/

/-- The chains agree about a name exactly if it is an alias, a builtin or a
program, or else neither a function nor reserved. -/
theorem lookupsAgree_iff (name : Str) (state : Shell World) :
    LookupsAgree name state ↔
      (state.aliases.get name).isSome ∨ mrshHasBuiltin name = true ∨ FindsProgram name state ∨
        ((state.functions.get name).isSome = false ∧ name ∉ keywords) := by
  constructor
  · rintro ⟨agree, -⟩
    by_contra other
    simp only [not_or, not_and, Decidable.not_not] at other
    obtain ⟨noAlias, noBuiltin, noProgram, others⟩ := other
    have unknown : ¬ TypeResolves name state := by
      rw [typeResolves_iff]
      simp [noAlias, noBuiltin, noProgram]
    refine unknown (agree.mpr (commandResolves_iff.mpr ?_))
    cases function : (state.functions.get name).isSome with
    | true => exact .inr (.inl rfl)
    | false => exact .inr (.inr (.inr (.inl (others function))))
  · intro known
    have agree : TypeResolves name state ↔ CommandResolves name state := by
      rw [typeResolves_iff, commandResolves_iff]
      rcases known with aliased | isBuiltin | program | ⟨noFunction, notReserved⟩
      · simp [aliased]
      · simp [isBuiltin]
      · simp [program]
      · simp [noFunction, notReserved]
    have found (path : DispatchPath) (dispatches : NameDispatches name state path) : TypeResolves name state := by
      rw [typeResolves_iff]
      cases dispatches with
      | function found =>
          rcases known with aliased | isBuiltin | program | ⟨noFunction, -⟩
          · exact .inl aliased
          · exact .inr (.inl isBuiltin)
          · exact .inr (.inr program)
          · rw [found] at noFunction
            cases noFunction
      | builtin _ isBuiltin => exact .inr (.inl isBuiltin)
      | external _ _ found => exact .inr (.inr ⟨_, _, found⟩)
    exact ⟨agree, fun path dispatches => ⟨found path dispatches, agree.mp (found path dispatches)⟩⟩

end

/-- A shell with the function `f() { :; }`. -/
def shellWithFunction : Shell Machine :=
  let state := mrshStateCreate [] Machine.isolated
  let body : Command := .braceGroup ⟨[listOf (.simpleCommand (literalCommand [':'] []))], .invalid, .invalid⟩
  { state with functions := state.functions.set ['f'] body }

/-- `command -v f` knows the function, and so does a command, but `type f` does
not. The same goes for a reserved word. -/
theorem not_lookupsAgree_function :
    ¬ LookupsAgree ['f'] shellWithFunction ∧ ¬ LookupsAgree "if".toList shellWithFunction := by
  constructor
  · intro agrees
    obtain ⟨after, found⟩ := agrees.agree.mpr ⟨_, rfl⟩
    cases found
  · intro agrees
    obtain ⟨after, found⟩ := agrees.agree.mpr ⟨_, rfl⟩
    cases found

end Mrsh

import Mrsh.Builtin.OptionSequence
import Mrsh.Shell.JobControlTraps

namespace Mrsh

open Mrsh.Data

/-! # What a trap command asks for

The first operand is an action, or the first of the conditions if it is a number. `builtin_trap` looks for a number
first and takes the empty string for one, so that an empty action is looked up as a condition.
-/

/-- The operands of a call without options, with or without the mark in front of them. -/
inductive OnlyOperands : List Str → List Str → Prop where
  | plain (name : Str) {first : Str} (rest : List Str) (plain : strChar first 0 ≠ '-' ∨ strChar first 1 = nul) :
      OnlyOperands (name :: first :: rest) (first :: rest)
  | marked (name : Str) (operands : List Str) : OnlyOperands (name :: ['-', '-'] :: operands) operands

def IsUnsignedDecimal (str : Str) : Prop := str ≠ [] ∧ str.all Char.isDigit = true

/-- The conditions, the action and the program that the operands ask for. -/
inductive TrapRequest (fuel nextAddress : Nat) : List Str → List Str → TrapAction → Option Program → Prop where
  | reset {first : Str} {rest : List Str} (decimal : IsUnsignedDecimal first) :
      TrapRequest fuel nextAddress (first :: rest) (first :: rest) .default none
  | ignore {conditions : List Str} : TrapRequest fuel nextAddress ([] :: conditions) conditions .ignore none
  | default {conditions : List Str} : TrapRequest fuel nextAddress (['-'] :: conditions) conditions .default none
  | catchWith {actionStr : Str} {conditions : List Str} {program : Program} (commands : ¬ IsUnsignedDecimal actionStr)
      (nonempty : actionStr ≠ []) (named : actionStr ≠ ['-'])
      (parses : actionProgram fuel nextAddress actionStr = some program) :
      TrapRequest fuel nextAddress (actionStr :: conditions) conditions .catch (some program)

/-- A condition that a trap may be set for, and its signal. -/
def NamesCondition (condition : Str) (sig : Nat) : Prop :=
  (sigNumbers ++ sigNames).lookup condition = some sig ∧ sig ≠ sigkill ∧ sig ≠ sigstop

/-- What an action is for a signal: with job control some signals are ignored by default. -/
def actionFor (jobControl : Bool) (action : TrapAction) (sig : Nat) : TrapAction :=
  if action == .default && jobControl && ignoredJobControlSigs.contains sig then .ignore else action

/-- The entry that a signal gets. -/
def trapFor (jobControl : Bool) (action : TrapAction) (program : Option TrapProgram) (sig : Nat) : Trap :=
  { set := true, action := actionFor jobControl action sig, program }

def handlersFor (jobControl : Bool) (action : TrapAction) (sig : Nat) : Handler := handlerOf
    (actionFor jobControl action sig)

section

variable {World : Type}

/-- The traps of the signals have programs of their own that are not freed. -/
def OwnPrograms (state : Shell World) (sigs : List Nat) : Prop :=
  (∀ sig ∈ sigs, ∀ serial ∈ (state.traps sig).serials, serial ∉ state.freedPrograms) ∧
    ∀ first ∈ sigs, ∀ second ∈ sigs, ∀ serial, serial ∈ (state.traps first).serials →
      serial ∈ (state.traps second).serials → first = second

theorem ownPrograms_cons {state : Shell World} {sig : Nat} {trap : Trap} {sigs : List Nat}
    (once : trap.program = none ∨ sig ∉ sigs) :
    OwnPrograms state (sig :: sigs) ↔ (∀ serial ∈ (state.traps sig).serials, serial ∉ state.freedPrograms) ∧
      OwnPrograms (state.withTrap sig trap) sigs := by
  have others : ∀ other, other ≠ sig → ((state.withTrap sig trap).traps other) = state.traps other :=
    fun other different => if_neg different
  have replaced : sig ∈ sigs → ((state.withTrap sig trap).traps sig).serials = [] := by
    intro again
    have programless := once.resolve_right (not_not.mpr again)
    have here : (state.withTrap sig trap).traps sig = trap := if_pos rfl
    rw [here, Trap.serials, programless]
    rfl
  have freed : (state.withTrap sig trap).freedPrograms = (state.traps sig).serials ++ state.freedPrograms := rfl
  unfold OwnPrograms
  simp only [freed, List.mem_cons, List.mem_append]
  constructor
  · rintro ⟨unfreed, apart⟩
    refine ⟨unfreed sig (.inl rfl), fun other member serial has => ?_,
      fun first member second again serial has also => ?_⟩
    · by_cases here : other = sig
      · subst here
        rw [replaced member] at has
        exact absurd has List.not_mem_nil
      · rw [others other here] at has
        rintro (shared | freed)
        · exact here (apart other (.inr member) sig (.inl rfl) serial has shared)
        · exact unfreed other (.inr member) serial has freed
    · by_cases firstHere : first = sig
      · subst firstHere
        rw [replaced member] at has
        exact absurd has List.not_mem_nil
      · by_cases secondHere : second = sig
        · subst secondHere
          rw [replaced again] at also
          exact absurd also List.not_mem_nil
        · rw [others first firstHere] at has
          rw [others second secondHere] at also
          exact apart first (.inr member) second (.inr again) serial has also
  · rintro ⟨unfreed, live, apart⟩
    have liveThere : ∀ other ∈ sigs, other ≠ sig → ∀ serial ∈ (state.traps other).serials,
        serial ∉ (state.traps sig).serials ∧ serial ∉ state.freedPrograms := by
      intro other member different serial has
      rw [← others other different] at has
      exact not_or.mp (live other member serial has)
    refine ⟨?_, ?_⟩
    · rintro other (rfl | member) serial has
      · exact unfreed serial has
      · by_cases here : other = sig
        · exact unfreed serial (here ▸ has)
        · exact (liveThere other member here serial has).2
    · intro first member second again serial has also
      by_cases firstHere : first = sig
      · by_cases secondHere : second = sig
        · exact firstHere.trans secondHere.symm
        · have listed := again.resolve_left secondHere
          exact absurd (firstHere ▸ has) (liveThere second listed secondHere serial also).1
      · have listed := member.resolve_left firstHere
        by_cases secondHere : second = sig
        · exact absurd (secondHere ▸ also) (liveThere first listed firstHere serial has).1
        · rw [← others first firstHere] at has
          rw [← others second secondHere] at also
          exact apart first listed second (again.resolve_left secondHere) serial has also

/-- A signal is trapped, or is not looked up before it is. -/
def Shell.knows (state : Shell World) (sig : Nat) : Bool := (state.traps sig).set || state.interactive

theorem Shell.knows_withTrap (state : Shell World) {sig : Nat} {trap : Trap} (set : trap.set = true) :
    (state.withTrap sig trap).knows = fun other => other == sig || state.knows other := by
  funext other
  simp only [Shell.knows, Shell.withTrap]
  by_cases here : other = sig
  · simp [here, set]
  · simp [here]

/-- The entries of the signals are replaced, and their programs freed. -/
structure TrapsSet (before after : Shell World) (sigs : List Nat) (entries : Nat → Trap) : Prop where
  table : ∀ index, after.traps index = if index ∈ sigs then entries index else before.traps index
  kept : ∀ serial ∈ before.freedPrograms, serial ∈ after.freedPrograms
  frees : ∀ sig ∈ sigs, ∀ serial ∈ (before.traps sig).serials, serial ∈ after.freedPrograms
  freesOnly : sigs.Nodup → ∀ serial ∈ after.freedPrograms,
    serial ∈ before.freedPrograms ∨ ∃ sig ∈ sigs, serial ∈ (before.traps sig).serials
  freesAgain : ¬ sigs.Nodup → ∃ sig ∈ sigs, ∀ serial ∈ (entries sig).serials, serial ∈ after.freedPrograms

theorem TrapsSet.nil (state : Shell World) (entries : Nat → Trap) : TrapsSet state state [] entries where
  table _ := (if_neg List.not_mem_nil).symm
  kept _ freed := freed
  frees := nofun
  freesOnly _ _ freed := .inl freed
  freesAgain repeated := absurd List.nodup_nil repeated

/-- A signal that is set again frees the program that it was just given. -/
theorem TrapsSet.cons {before after : Shell World} {sig : Nat} {sigs : List Nat} {entries : Nat → Trap}
    (later : TrapsSet (before.withTrap sig (entries sig)) after sigs entries) :
    TrapsSet before after (sig :: sigs) entries where
  table index := by
    rw [later.table index]
    by_cases listed : index ∈ sigs
    · rw [if_pos listed, if_pos (List.mem_cons_of_mem _ listed)]
    · rw [if_neg listed]
      by_cases here : index = sig
      · subst here
        rw [if_pos List.mem_cons_self]
        exact if_pos rfl
      · rw [if_neg (List.not_mem_cons_of_ne_of_not_mem here listed)]
        exact if_neg here
  kept serial freed := later.kept serial (List.mem_append_right _ freed)
  frees other member serial has := by
    by_cases here : other = sig
    · subst here
      exact later.kept serial (List.mem_append_left _ has)
    · refine later.frees other ((List.mem_cons.mp member).resolve_left here) serial ?_
      have entry : (before.withTrap sig (entries sig)).traps other = before.traps other := if_neg here
      rw [entry]
      exact has
  freesOnly distinct serial freed := by
    obtain ⟨fresh, distinct⟩ := List.nodup_cons.mp distinct
    rcases later.freesOnly distinct serial freed with old | ⟨other, member, has⟩
    · rcases List.mem_append.mp old with has | freed
      · exact .inr ⟨sig, List.mem_cons_self, has⟩
      · exact .inl freed
    · have different : other ≠ sig := fun same => fresh (same ▸ member)
      have entry : (before.withTrap sig (entries sig)).traps other = before.traps other := if_neg different
      rw [entry] at has
      exact .inr ⟨other, List.mem_cons_of_mem _ member, has⟩
  freesAgain repeated := by
    by_cases again : sig ∈ sigs
    · refine ⟨sig, List.mem_cons_self, fun serial has => later.frees sig again serial ?_⟩
      have entry : (before.withTrap sig (entries sig)).traps sig = entries sig := if_pos rfl
      rw [entry]
      exact has
    · have among : ¬ sigs.Nodup := fun distinct => repeated (List.nodup_cons.mpr ⟨again, distinct⟩)
      obtain ⟨other, member, freed⟩ := later.freesAgain among
      exact ⟨other, List.mem_cons_of_mem _ member, freed⟩

variable [System World]

/-! ## What the system lets the shell change -/

/-- The world after the test whether the signal was ignored when the shell was entered. -/
def askSignal (known : Bool) (sig : Nat) (world : World) : Option World :=
  if known then some world
  else
    match System.getHandler sig world with
    | (.ok .ignore, _) => none
    | (.ok _, world) => some world
    | (.error _, _) => none

def changeHandler (sig : Nat) (handler : Handler) (world : World) : Option World :=
  match System.sigaction sig handler world with
  | (.ok _, world) => some world
  | (.error _, _) => none

/-- The world after the change of a signal, which the shell may have been told of before. -/
def changeSignal (known : Bool) (sig : Nat) (handler : Handler) (world : World) : Option World :=
  if sig = 0 then some world else (askSignal known sig world).bind (changeHandler sig handler)

/-- The system lets the shell change the signals one after the other. -/
def Trappable (handlers : Nat → Handler) : (Nat → Bool) → List Nat → World → Prop
  | _, [], _ => True
  | known, sig :: sigs, world =>
      ∃ after, changeSignal (known sig) sig (handlers sig) world = some after ∧
        Trappable handlers (fun other => other == sig || known other) sigs after

theorem mayTrap_run {sig : Nat} {state : Shell World} {world : World}
    (asked : askSignal (state.knows sig) sig state.world = some world) :
    Leaf.run (mayTrap sig) state = .done true { state with world } := by
  unfold askSignal at asked
  simp only [mayTrap, Leaf.run_bind, Leaf.run_gets, Outcome.andThen_done, Leaf.run_ite, Leaf.run_call]
  cases known : state.knows sig with
  | true =>
      rw [if_pos known] at asked
      cases asked
      have unasked : ¬ (!(state.traps sig).set && !state.interactive) = true := by
        rw [← Bool.not_or, ← Shell.knows, known]
        decide
      rw [if_neg unasked]
      rfl
  | false =>
      rw [known, if_neg Bool.false_ne_true] at asked
      have unknown : (!(state.traps sig).set && !state.interactive) = true := by
        rw [← Bool.not_or, ← Shell.knows, known]
        rfl
      rw [if_pos unknown]
      cases called : System.getHandler sig state.world with
      | mk reply between =>
          rw [called] at asked
          rcases reply with _ | (_ | _ | _)
          · cases asked
          · cases asked
            rfl
          · cases asked
          · cases asked
            rfl

/-- A trap that the system lets the shell set is set if the program of its entry was not freed before. -/
theorem setTrap_done_iff {sig : Nat} {action : TrapAction} {program : Option TrapProgram} {state after : Shell World}
    {ok : Bool} {world : World} (fits : action = .catch ∨ program = none)
    (accepted : changeSignal (state.knows sig) sig (handlerOf (actionFor state.jobControl action sig)) state.world =
      some world) :
    Leaf.run (setTrap sig action program) state = .done ok after ↔
      ok = true ∧ (∀ serial ∈ (state.traps sig).serials, serial ∉ state.freedPrograms) ∧
        after = { state with world }.withTrap sig
          { set := true, action := actionFor state.jobControl action sig, program } := by
  have consistent : (action == .catch || program.isNone) = true := by
    rcases fits with rfl | rfl
    · rfl
    · exact Bool.or_true _
  have replaces : ∀ (state : Shell World) (trap : Trap), Leaf.run (do
        replaceTrap sig trap
        pure true) state = .done ok after ↔
      ok = true ∧ (∀ serial ∈ (state.traps sig).serials, serial ∉ state.freedPrograms) ∧
        after = state.withTrap sig trap := by
    intro state trap
    rw [Leaf.run_bind_done]
    constructor
    · rintro ⟨_, between, replaced, returned⟩
      cases returned
      exact ⟨rfl, replaceTrap_done_iff.mp replaced⟩
    · rintro ⟨rfl, unfreed, rfl⟩
      exact ⟨(), _, replaceTrap_done_iff.mpr ⟨unfreed, rfl⟩, rfl⟩
  rw [setTrap, consistent, assertThat, if_pos rfl, pure_bind]
  unfold changeSignal at accepted
  by_cases exit : sig = 0
  · subst exit
    rw [if_pos rfl] at accepted
    cases accepted
    have kept : actionFor state.jobControl action 0 = action := by
      have outside : ignoredJobControlSigs.contains 0 = false := rfl
      rw [actionFor, outside, Bool.and_false, if_neg Bool.false_ne_true]
    rw [kept]
    exact replaces state _
  · rw [if_neg exit, Option.bind_eq_some_iff] at accepted
    obtain ⟨between, asked, changed⟩ := accepted
    have nonzero : ¬ (sig == 0) = true := by simpa using exit
    have installs : Leaf.run (installedAction sig action) { state with world := between } =
        .done (actionFor state.jobControl action sig) { state with world := between } := rfl
    unfold changeHandler at changed
    rw [if_neg nonzero, Leaf.run_bind, mayTrap_run asked, Outcome.andThen_done, if_pos rfl,
      Leaf.run_bind_of_done installs, Leaf.run_bind, Leaf.run_call]
    cases called : System.sigaction sig (handlerOf (actionFor state.jobControl action sig)) between with
    | mk reply last =>
        rw [called] at changed
        cases reply with
        | error errno => cases changed
        | ok _ =>
            cases changed
            exact replaces { state with world } _

/-! ## The loop over the conditions -/

theorem setTraps_cons_done_iff {condition : Str} {sig : Nat} {rest : List Str} {action : TrapAction}
    {program : Option TrapProgram} {state after : Shell World} {status : Int} {world : World}
    (names : NamesCondition condition sig) (fits : action = .catch ∨ program = none)
    (accepted : changeSignal (state.knows sig) sig (handlersFor state.jobControl action sig) state.world = some world) :
    Leaf.run (setTraps action program (condition :: rest)) state = .done status after ↔
      (∀ serial ∈ (state.traps sig).serials, serial ∉ state.freedPrograms) ∧
        Leaf.run (setTraps action program rest)
          ({ state with world }.withTrap sig (trapFor state.jobControl action program sig)) = .done status after := by
  obtain ⟨found, notKill, notStop⟩ := names
  have settable : ¬ (sig == sigkill || sig == sigstop) = true := by simp [notKill, notStop]
  have parses : Leaf.run (parseSig condition) state = .done (some sig) state := by
    rw [parseSig, found]
    rfl
  rw [setTraps, Leaf.run_bind_of_done parses]
  simp only [if_neg settable]
  rw [Leaf.run_bind_done]
  constructor
  · rintro ⟨ok, between, sets, ended⟩
    obtain ⟨rfl, unfreed, rfl⟩ := (setTrap_done_iff fits accepted).mp sets
    exact ⟨unfreed, ended⟩
  · rintro ⟨unfreed, ended⟩
    exact ⟨true, _, (setTrap_done_iff fits accepted).mpr ⟨rfl, unfreed, rfl⟩, ended⟩

/-- The loop over conditions that traps may be set for ends if it can free the programs. -/
theorem setTraps_spec {action : TrapAction} {program : Option TrapProgram} (fits : action = .catch ∨ program = none)
    {conditions : List Str} {sigs : List Nat} (named : List.Forall₂ NamesCondition conditions sigs)
    (state : Shell World) (trappable : Trappable (handlersFor state.jobControl action) state.knows sigs state.world) :
    (program = none ∨ sigs.Nodup → OwnPrograms state sigs →
      ∃ after, Leaf.run (setTraps action program conditions) state = .done 0 after) ∧
    ∀ status after, Leaf.run (setTraps action program conditions) state = .done status after →
      status = 0 ∧ TrapsSet state after sigs (trapFor state.jobControl action program) ∧
        (program = none ∨ sigs.Nodup → OwnPrograms state sigs) := by
  induction named generalizing state with
  | nil =>
      refine ⟨fun _ _ => ⟨state, rfl⟩, fun status after ended => ?_⟩
      cases ended
      exact ⟨rfl, .nil _ _, fun _ => ⟨nofun, nofun⟩⟩
  | @cons condition sig conditions sigs names named ih =>
      obtain ⟨world, accepted, trappable⟩ := trappable
      let next := { state with world }.withTrap sig (trapFor state.jobControl action program sig)
      have knows : next.knows = fun other => other == sig || state.knows other :=
        Shell.knows_withTrap { state with world } rfl
      have later := ih next (by rw [knows]; exact trappable)
      have step := fun status after => @setTraps_cons_done_iff World _ condition sig conditions action program state
        after status world names fits accepted
      have owns : program = none ∨ (sig :: sigs).Nodup →
          (OwnPrograms state (sig :: sigs) ↔
            (∀ serial ∈ (state.traps sig).serials, serial ∉ state.freedPrograms) ∧ OwnPrograms next sigs) :=
        fun once => @ownPrograms_cons World { state with world } sig _ sigs
          (once.imp id fun distinct => (List.nodup_cons.mp distinct).1)
      have fewer : program = none ∨ (sig :: sigs).Nodup → program = none ∨ sigs.Nodup :=
        Or.imp id fun distinct => (List.nodup_cons.mp distinct).2
      constructor
      · intro once own
        obtain ⟨unfreed, rest⟩ := (owns once).mp own
        obtain ⟨after, ended⟩ := later.1 (fewer once) rest
        exact ⟨after, (step 0 after).mpr ⟨unfreed, ended⟩⟩
      · intro status after ended
        obtain ⟨unfreed, ended⟩ := (step status after).mp ended
        obtain ⟨rfl, set, rest⟩ := later.2 status after ended
        have whole : TrapsSet { state with world } after (sig :: sigs) (trapFor state.jobControl action program) :=
          .cons set
        refine ⟨rfl, ⟨whole.table, whole.kept, whole.frees, whole.freesOnly, whole.freesAgain⟩, fun once => ?_⟩
        exact (owns once).mpr ⟨unfreed, rest (fewer once)⟩

/-! ## The whole command -/

/-- The entry of the signal has the action, and the program if the action has one. -/
structure HasTrap (state : Shell World) (sig : Nat) (action : TrapAction) (program : Option Program) : Prop where
  set : (state.traps sig).set = true
  action : (state.traps sig).action = action
  program : (state.traps sig).program.map (·.program) = program
  live : ∀ serial ∈ (state.traps sig).serials, serial ∉ state.freedPrograms

/-- The command succeeds and sets the trap for all signals. -/
def SetsTraps (fuel : Nat) (args : List Str) (sigs : List Nat) (action : TrapAction) (program : Option Program)
    (state : Shell World) : Prop :=
  ∃ after, Leaf.run (builtinTrap fuel args) state = .done 0 after ∧
    ∀ sig ∈ sigs, HasTrap after sig (actionFor state.jobControl action sig) program

/-- The programs of the table and those that are freed were created before. -/
structure ProgramsCreated (state : Shell World) : Prop where
  owned : ∀ index, ∀ serial ∈ (state.traps index).serials, serial < state.nextSerial
  freed : ∀ serial ∈ state.freedPrograms, serial < state.nextSerial

theorem noOptions_given {args operands : List Str} (gives : OnlyOperands args operands) (name usage : Str)
    (state : Shell World) :
    ∃ getopt, Leaf.run (noOptions args name usage) state = .done (.ok ()) { state with getopt } ∧
      args.drop getopt.optind.toNat = operands := by
  cases gives with
  | plain first rest plain => exact ⟨_, forOptions_plain _ _ _ _ _ plain state, rfl⟩
  | marked first operands => exact ⟨_, forOptions_dashes state, rfl⟩

theorem builtinTrap_given {args rest : List Str} {operand : Str} (gives : OnlyOperands args (operand :: rest))
    (fuel : Nat) (state : Shell World) :
    ∃ getopt, Leaf.run (builtinTrap fuel args) state = Leaf.run (do
      match ← parseAction fuel (if isDecimalStr operand then ['-'] else operand) with
      | none => pure 1
      | some (action, program) =>
          setTraps action program (if isDecimalStr operand then operand :: rest else rest)) { state with getopt } := by
  obtain ⟨getopt, ended, operands⟩ := noOptions_given gives "trap".toList trapUsage state
  refine ⟨getopt, ?_⟩
  rw [builtinTrap, Leaf.run_bind_of_done ended]
  simp only [operandsOf, Leaf.run_bind, Leaf.run_gets, Outcome.andThen_done, Leaf.run_pure, operands]
  cases isDecimalStr operand <;> rfl

/-- With its action and the program, the loop sets the traps if it can free the programs of the entries and does not
free the program that it was given. -/
theorem setTraps_sets_iff {action : TrapAction} {program : Option TrapProgram} (fits : action = .catch ∨ program = none)
    {conditions : List Str} {sigs : List Nat} (named : List.Forall₂ NamesCondition conditions sigs)
    {state : Shell World}
    (trappable : Trappable (handlersFor state.jobControl action) state.knows sigs state.world)
    (fresh : ∀ given, program = some given → given.serial ∉ state.freedPrograms ∧
      ∀ index, given.serial ∉ (state.traps index).serials) :
    (∃ after, Leaf.run (setTraps action program conditions) state = .done 0 after ∧
      ∀ sig ∈ sigs, HasTrap after sig (actionFor state.jobControl action sig) (program.map (·.program))) ↔
      OwnPrograms state sigs ∧ (program.isSome → sigs.Nodup) := by
  obtain ⟨runs, ends⟩ := setTraps_spec fits named state trappable
  constructor
  · rintro ⟨after, ended, has⟩
    obtain ⟨-, set, own⟩ := ends 0 after ended
    have distinct : program.isSome → sigs.Nodup := by
      intro given
      by_contra repeated
      obtain ⟨owned, rfl⟩ := Option.isSome_iff_exists.mp given
      obtain ⟨sig, member, freed⟩ := set.freesAgain repeated
      have entry : after.traps sig = trapFor state.jobControl action (some owned) sig := by
        rw [set.table sig, if_pos member]
      have among : owned.serial ∈ (after.traps sig).serials := by
        rw [entry]
        exact List.mem_singleton.mpr rfl
      exact (has sig member).live owned.serial among (freed owned.serial (List.mem_singleton.mpr rfl))
    refine ⟨own ?_, distinct⟩
    cases program with
    | none => exact .inl rfl
    | some given => exact .inr (distinct rfl)
  · rintro ⟨own, distinct⟩
    have once : program = none ∨ sigs.Nodup := by
      cases program with
      | none => exact .inl rfl
      | some given => exact .inr (distinct rfl)
    obtain ⟨after, ended⟩ := runs once own
    obtain ⟨-, set, -⟩ := ends 0 after ended
    refine ⟨after, ended, fun sig member => ?_⟩
    have entry : after.traps sig = trapFor state.jobControl action program sig := by
      rw [set.table sig, if_pos member]
    constructor
    · rw [entry]
      rfl
    · rw [entry]
      rfl
    · rw [entry]
      rfl
    · rw [entry]
      intro serial has freed
      obtain ⟨given, rfl, rfl⟩ := Trap.mem_serials.mp has
      obtain ⟨unfreed, unowned⟩ := fresh given rfl
      rcases set.freesOnly (distinct rfl) given.serial freed with old | ⟨other, _, had⟩
      · exact unfreed old
      · exact unowned other had

/-! ## Programs are created before a trap has them -/

/-- The programs with the serial numbers were created, too. -/
def CreatedWith (serials : List Nat) (state : Shell World) : Prop :=
  ProgramsCreated state ∧ ∀ serial ∈ serials, serial < state.nextSerial

abbrev MeetsCreated {α : Type} (before : Shell World → Prop) (prog : Leaf World α)
    (after : α → Shell World → Prop) : Prop :=
  prog.Meets handleLeaf before after ProgramsCreated

omit [System World] in
theorem ProgramsCreated.keeps {before after : Shell World} (created : ProgramsCreated before)
    (keeps : KeepsTraps before after) : ProgramsCreated after where
  owned index serial has := by
    rw [keeps.traps] at has
    exact Nat.lt_of_lt_of_le (created.owned index serial has) keeps.serials
  freed serial freed := by
    rw [keeps.freed] at freed
    exact Nat.lt_of_lt_of_le (created.freed serial freed) keeps.serials

omit [System World] in
theorem LeavesSetup.meetsCreated {α : Type} {prog : Leaf World α} (leaves : LeavesSetup prog) (serials : List Nat) :
    MeetsCreated (CreatedWith serials) prog fun _ => CreatedWith serials :=
  .frame leaves
    (fun _ _ keeps created => ⟨created.1.keeps keeps.keepsTraps,
      fun serial member => Nat.lt_of_lt_of_le (created.2 serial member) keeps.serials⟩)
    fun _ created => created.1

omit [System World] in
theorem replaceTrap_created {serials : List Nat} (index : Nat) {trap : Trap}
    (given : ∀ serial ∈ trap.serials, serial ∈ serials) :
    MeetsCreated (CreatedWith serials) (replaceTrap index trap : Leaf World Unit) fun _ => CreatedWith serials := by
  rintro state ⟨created, below⟩
  have freed : ∀ serial ∈ (state.traps index).serials ++ state.freedPrograms, serial < state.nextSerial := by
    intro serial member
    rcases List.mem_append.mp member with old | freed
    · exact created.owned index serial old
    · exact created.freed serial freed
  have replaced : CreatedWith serials (state.withTrap index trap) := by
    refine ⟨⟨fun other serial has => ?_, freed⟩, below⟩
    simp only [Shell.withTrap] at has
    split at has
    · exact below serial (given serial has)
    · exact created.owned other serial has
  by_cases unfreed : ∀ serial ∈ (state.traps index).serials, serial ∉ state.freedPrograms
  · have ended : Leaf.run (replaceTrap index trap) state = .done () (state.withTrap index trap) :=
      replaceTrap_done_iff.mpr ⟨unfreed, rfl⟩
    unfold Leaf.run at ended
    rw [ended]
    exact replaced
  · -- the run stops behind the second time that the program is freed
    have stopped : Leaf.run (replaceTrap index trap) state = .stopped .aborted
        { state with freedPrograms := (state.traps index).serials ++ state.freedPrograms } := by
      rw [replaceTrap, Leaf.run_gets_bind, Leaf.run_bind]
      simp only [not_forall, not_not] at unfreed
      obtain ⟨serial, has, freed⟩ := unfreed
      obtain ⟨program, owned, rfl⟩ := Trap.mem_serials.mp has
      simp [Trap.serials, owned, destroyTrapProgram, assertThat, freed]
    unfold Leaf.run at stopped
    rw [stopped]
    exact ⟨created.owned, freed⟩

theorem setTrap_created {serials : List Nat} (sig : Nat) (action : TrapAction) {program : Option TrapProgram}
    (given : ∀ serial ∈ (program.map (·.serial)).toList, serial ∈ serials) :
    MeetsCreated (CreatedWith serials) (setTrap sig action program : Leaf World Bool) fun _ => CreatedWith serials :=
  setTrap_rule (fun leaves => leaves.meetsCreated serials) sig action program (fun _ created => created)
    fun _ => replaceTrap_created sig given

theorem setJobControlTrapsLoop_created (enabled : Bool) (sigs : List (Nat × Nat)) :
    MeetsCreated (CreatedWith []) (setJobControlTrapsLoop enabled sigs : Leaf World Bool) fun _ => CreatedWith [] :=
  setJobControlTrapsLoop_rule (fun leaves => leaves.meetsCreated []) enabled sigs fun _ => replaceTrap_created _ nofun

theorem resetCaughtTrapsLoop_created (sigs : List Nat) :
    MeetsCreated (CreatedWith []) (resetCaughtTrapsLoop sigs : Leaf World Bool) fun _ => CreatedWith [] :=
  resetCaughtTrapsLoop_rule (fun leaves => leaves.meetsCreated []) sigs fun sig => setTrap_created sig .default nofun

omit [System World] in
theorem parseText_leavesSetup {α : Type} (text : Str) (parse : Parse α) :
    LeavesSetup (parseText text parse : Leaf World (α × Parser)) := by
  refine .bind (.gets _) fun nextAddress => ?_
  cases parse { mrshParserWithData text with nextAddress } with
  | done value parser => exact .bind (.update (fun _ => rfl) fun _ => Nat.le_refl _) fun _ => .pure _
  | stopped reason parser => cases reason <;> exact .stop _

theorem parseAction_created (fuel : Nat) (actionStr : Str) :
    MeetsCreated (CreatedWith []) (parseAction fuel actionStr : Leaf World (Option (TrapAction × Option TrapProgram)))
      fun parsed => CreatedWith ((programGiven parsed).map (·.serial)).toList := by
  refine .ite (fun _ => .pure fun _ created => created) fun _ => ?_
  refine .ite (fun _ => .pure fun _ created => created) fun _ => ?_
  have parses : MeetsCreated (CreatedWith [])
      (parseText actionStr (mrshParseProgram fuel) : Leaf World (Option Program × Parser))
      fun _ => CreatedWith [] := (parseText_leavesSetup _ _).meetsCreated []
  refine .bind parses fun parsed => ?_
  obtain ⟨program, parser⟩ := parsed
  cases failed : parser.error with
  | some error =>
      simp only [failed]
      exact .bind ((LeavesSetup.call _).meetsCreated []) fun _ => .pure fun _ created => created
  | none =>
      simp only [failed]
      intro state created
      have keeps : KeepsTraps state { state with nextSerial := state.nextSerial + 1 } := ⟨rfl, rfl, Nat.le_succ _⟩
      refine ⟨created.1.keeps keeps, fun serial given => ?_⟩
      cases program with
      | none => exact absurd given List.not_mem_nil
      | some program =>
          obtain rfl := List.mem_singleton.mp given
          exact Nat.lt_succ_self _

theorem setTraps_created {serials : List Nat} (action : TrapAction) {program : Option TrapProgram}
    (given : ∀ serial ∈ (program.map (·.serial)).toList, serial ∈ serials) (conditions : List Str) :
    MeetsCreated (CreatedWith serials) (setTraps action program conditions : Leaf World Int) fun _ =>
      CreatedWith serials := by
  induction conditions with
  | nil => exact .pure fun _ created => created
  | cons condition rest ih =>
      have parses : LeavesSetup (parseSig condition : Leaf World (Option Nat)) := by
        unfold parseSig
        cases (sigNumbers ++ sigNames).lookup condition with
        | some sig => exact .pure _
        | none => exact .bind (.call _) fun _ => .pure _
      refine .bind (parses.meetsCreated serials) fun sig => ?_
      cases sig with
      | none => exact .pure fun _ created => created
      | some sig =>
          refine .ite (fun _ => (failWith_talks _).leavesSetup.meetsCreated serials) fun _ => ?_
          refine .bind (setTrap_created sig action given) fun done => .ite (fun _ => ih) fun _ => ?_
          exact .pure fun _ created => created

theorem builtinTrap_created (fuel : Nat) (args : List Str) :
    MeetsCreated (CreatedWith []) (builtinTrap fuel args : Leaf World Int) fun _ => ProgramsCreated := by
  refine .bind ((noOptions_leavesSetup args _ _).meetsCreated []) fun result => ?_
  rcases result with status | ⟨⟩
  · exact .pure fun _ created => created.1
  · have operands : LeavesSetup (operandsOf args : Leaf World (List Str)) := .bind (.gets _) fun _ => .pure _
    refine .bind (operands.meetsCreated []) fun operands => ?_
    cases operands with
    | nil => exact .bind ((printTraps_leavesSetup _).meetsCreated []) fun _ => .pure fun _ created => created.1
    | cons operand rest =>
        have installs : ∀ (actionStr : Str) (conditions : List Str), MeetsCreated (CreatedWith []) (do
            match ← parseAction fuel actionStr with
            | none => pure 1
            | some (action, program) => setTraps action program conditions : Leaf World Int) fun _ =>
              ProgramsCreated := by
          intro actionStr conditions
          refine .bind (parseAction_created fuel actionStr) fun parsed => ?_
          rcases parsed with _ | ⟨action, program⟩
          · exact .pure fun _ created => created.1
          · exact (setTraps_created action (fun _ given => given) conditions).weaken fun _ _ created => created.1
        cases decimal : isDecimalStr operand with
        | true =>
            simp only [decimal, if_true]
            exact installs _ _
        | false =>
            simp only [decimal, Bool.false_eq_true, if_false]
            exact installs _ _

theorem TrapCall.keepsCreated (fuel : Nat) (call : TrapCall) :
    MeetsCreated ProgramsCreated (call.prog fuel : Leaf World Unit) fun _ => ProgramsCreated := by
  have bare : ∀ state : Shell World, ProgramsCreated state → CreatedWith [] state := fun _ created => ⟨created, nofun⟩
  cases call with
  | trap args => exact .bind ((builtinTrap_created fuel args).strengthen bare) fun _ => .pure fun _ created => created
  | setJobControlTraps enabled =>
      exact .bind ((setJobControlTrapsLoop_created enabled _).strengthen bare) fun _ => .pure fun _ created => created.1
  | resetCaughtTraps =>
      exact .bind ((resetCaughtTrapsLoop_created _).strengthen bare) fun _ => .pure fun _ created => created.1

/-- From a state without programs, every state that calls reach has only programs that were created. -/
theorem TrapRun.created {fuel : Nat} {allowed : TrapCall → Prop} {start state : Shell World}
    (reached : TrapRun fuel allowed start state) (created : ProgramsCreated start) : ProgramsCreated state := by
  induction reached with
  | start => exact created
  | between _ keeps ih => exact ih.keeps keeps
  | call _ call _ ended ih => exact (call.keepsCreated fuel).done ih ended

/-! ## What decides it -/

theorem parseAction_commands {fuel : Nat} {actionStr : Str} {program : Program} {state : Shell World}
    (nonempty : actionStr ≠ []) (named : actionStr ≠ ['-'])
    (parses : actionProgram fuel state.nextAddress actionStr = some program) :
    ∃ nextAddress, Leaf.run (parseAction fuel actionStr) state =
      .done (some (.catch, some ⟨state.nextSerial, program⟩))
        { state with nextAddress, nextSerial := state.nextSerial + 1 } := by
  have notEmpty : ¬ actionStr.isEmpty = true := by simpa using nonempty
  have notDash : ¬ (actionStr == ['-']) = true := by simpa using named
  rw [parseAction, if_neg notEmpty, if_neg notDash]
  unfold actionProgram at parses
  cases parsed : mrshParseProgram fuel { mrshParserWithData actionStr with nextAddress := state.nextAddress } with
  | stopped reason parser =>
      rw [parsed] at parses
      cases parses
  | done result parser =>
      simp only [parsed] at parses
      cases failed : parser.error with
      | some error =>
          rw [failed] at parses
          cases parses
      | none =>
          rw [failed] at parses
          cases parses
          refine ⟨parser.nextAddress, ?_⟩
          simp only [parseText, Leaf.run_bind, Leaf.run_gets, Outcome.andThen_done, parsed, Leaf.run_update,
            Leaf.run_pure, failed]
          rfl

theorem isDecimalStr_eq_false {actionStr : Str} (commands : ¬ IsUnsignedDecimal actionStr) (nonempty : actionStr ≠ []) :
    isDecimalStr actionStr = false := by
  cases decimal : isDecimalStr actionStr with
  | false => rfl
  | true => exact absurd ⟨nonempty, decimal⟩ commands

/-- The traps are set as the operands ask for exactly if the action is not the empty string, the programs of the
entries can be freed, and no condition is named twice with a program. -/
theorem builtinTrap_sets_iff {fuel : Nat} {args operands conditions : List Str} {sigs : List Nat} {action : TrapAction}
    {program : Option Program} {state : Shell World} (gives : OnlyOperands args operands)
    (asks : TrapRequest fuel state.nextAddress operands conditions action program)
    (named : List.Forall₂ NamesCondition conditions sigs)
    (trappable : Trappable (handlersFor state.jobControl action) state.knows sigs state.world)
    (created : ProgramsCreated state) :
    SetsTraps fuel args sigs action program state ↔
      operands.head? ≠ some [] ∧ OwnPrograms state sigs ∧ (program.isSome → sigs.Nodup) := by
  unfold SetsTraps
  cases asks with
  | @reset first rest decimal =>
      obtain ⟨getopt, given⟩ := builtinTrap_given gives fuel state
      have nonempty : (first :: rest).head? ≠ some [] := fun empty => decimal.1 (Option.some.inj empty)
      have digits : isDecimalStr first = true := decimal.2
      rw [given, digits, and_iff_right nonempty]
      refine @setTraps_sets_iff World _ .default none (.inr rfl) _ _ named { state with getopt } trappable ?_
      exact fun _ none => absurd none (Option.some_ne_none _).symm
  | ignore =>
      obtain ⟨getopt, given⟩ := builtinTrap_given gives fuel state
      refine iff_of_false ?_ fun holds => holds.1 rfl
      rintro ⟨after, ended, -⟩
      rw [given] at ended
      change Leaf.run (setTraps .default none ([] :: conditions)) { state with getopt } = .done 0 after at ended
      rw [setTraps, Leaf.run_bind] at ended
      cases ended
  | default =>
      obtain ⟨getopt, given⟩ := builtinTrap_given gives fuel state
      have nonempty : (['-'] :: conditions).head? ≠ some [] := fun empty =>
        List.cons_ne_nil '-' [] (Option.some.inj empty)
      rw [given, and_iff_right nonempty]
      refine @setTraps_sets_iff World _ .default none (.inr rfl) _ _ named { state with getopt } trappable ?_
      exact fun _ none => absurd none (Option.some_ne_none _).symm
  | @catchWith actionStr _ program commands nonempty notDash parses =>
      obtain ⟨getopt, given⟩ := builtinTrap_given gives fuel state
      have filled : (actionStr :: conditions).head? ≠ some [] := fun empty => nonempty (Option.some.inj empty)
      have notDecimal := isDecimalStr_eq_false commands nonempty
      obtain ⟨nextAddress, parsed⟩ :=
        @parseAction_commands World _ fuel actionStr program { state with getopt } nonempty notDash parses
      rw [given, notDecimal, if_neg Bool.false_ne_true, if_neg Bool.false_ne_true, Leaf.run_bind_of_done parsed,
        and_iff_right filled]
      refine @setTraps_sets_iff World _ .catch (some ⟨state.nextSerial, program⟩) (.inl rfl) _ _ named
        { state with getopt, nextAddress, nextSerial := state.nextSerial + 1 } trappable fun fresh same => ?_
      obtain rfl := Option.some.inj same
      refine ⟨fun freed => Nat.lt_irrefl _ (created.freed _ freed), fun index owned => ?_⟩
      exact Nat.lt_irrefl _ (created.owned index _ owned)

end

theorem mrshStateCreate_created : ProgramsCreated (mrshStateCreate [] Machine.isolated) where
  owned _ _ has := nomatch has
  freed _ freed := nomatch freed

theorem mrshStateCreate_own (sigs : List Nat) : OwnPrograms (mrshStateCreate [] Machine.isolated) sigs where
  left _ _ _ has := nomatch has
  right _ _ _ _ _ has := nomatch has

theorem machine_trappable (action : TrapAction) :
    Trappable (handlersFor false action) (mrshStateCreate [] Machine.isolated).knows [2] Machine.isolated :=
  ⟨_, rfl, trivial⟩

theorem interrupt_named : List.Forall₂ NamesCondition [['I', 'N', 'T']] [2] := .cons ⟨by decide, by decide,
    by decide⟩ .nil

/-- The null command becomes the action for `SIGINT`. -/
theorem builtinTrap_sets_colon : ∃ program, SetsTraps 40 [['t', 'r', 'a', 'p'], [':'], ['I', 'N', 'T']] [2] .catch
    (some program) (mrshStateCreate [] Machine.isolated) := by
  have parses : (actionProgram 40 0 [':']).isSome = true := by decide +kernel
  obtain ⟨program, parses⟩ := Option.isSome_iff_exists.mp parses
  have gives : OnlyOperands [['t', 'r', 'a', 'p'], [':'], ['I', 'N', 'T']] [[':'], ['I', 'N', 'T']] :=
    .plain _ _ (.inl (by decide))
  have asks : TrapRequest 40 0 [[':'], ['I', 'N', 'T']] [['I', 'N', 'T']] .catch (some program) :=
    .catchWith (fun decimal => absurd decimal.2 (by decide)) (by decide) (by decide) parses
  exact ⟨program, (builtinTrap_sets_iff gives asks interrupt_named (machine_trappable .catch)
    mrshStateCreate_created).mpr ⟨by decide, mrshStateCreate_own [2], fun _ => by decide⟩⟩

/-- The empty action is looked up as a condition. -/
theorem builtinTrap_emptyAction :
    ¬ ∀ (fuel : Nat) (args operands conditions : List Str) (sigs : List Nat) (action : TrapAction)
      (program : Option Program) (state : Shell Machine), OnlyOperands args operands →
      TrapRequest fuel state.nextAddress operands conditions action program → conditions ≠ [] →
      List.Forall₂ NamesCondition conditions sigs →
      Trappable (handlersFor state.jobControl action) state.knows sigs state.world → ProgramsCreated state →
      OwnPrograms state sigs → SetsTraps fuel args sigs action program state := by
  intro always
  have gives : OnlyOperands [['t', 'r', 'a', 'p'], [], ['I', 'N', 'T']] [[], ['I', 'N', 'T']] :=
    .plain _ _ (.inl (by decide))
  obtain ⟨after, ended, -⟩ := always 0 _ _ _ _ _ _ (mrshStateCreate [] Machine.isolated) gives .ignore (by decide)
    interrupt_named (machine_trappable .ignore) mrshStateCreate_created (mrshStateCreate_own [2])
  have failed : (Leaf.run (builtinTrap 0 [['t', 'r', 'a', 'p'], [], ['I', 'N', 'T']])
      (mrshStateCreate [] Machine.isolated)).value? = some 1 := by decide +kernel
  rw [ended] at failed
  cases failed

theorem trapRun_created_colon :
    ProgramsCreated (Leaf.run (builtinTrap 40 [['t', 'r', 'a', 'p'], [':'], ['I', 'N', 'T']])
      (mrshStateCreate [] Machine.isolated)).state := by
  have ended : (Leaf.run (TrapCall.prog 40 (.trap [['t', 'r', 'a', 'p'], [':'], ['I', 'N', 'T']]))
      (mrshStateCreate [] Machine.isolated)).value? = some () := by decide +kernel
  have reached : TrapRun 40 (fun _ => True) (mrshStateCreate [] Machine.isolated) _ :=
    .call .start _ trivial (Outcome.eq_done_of_value? ended)
  exact reached.created mrshStateCreate_created

end Mrsh

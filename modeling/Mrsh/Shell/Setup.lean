import Mrsh.Builtin.Utilities
import Mrsh.Shell.VariableWrites

namespace Mrsh

open Mrsh.Data

/-! # The set-up of a process

The traps, job control, the options and whether the process is a child. Most functions
of the shell leave them alone.
-/

section

variable {World α β : Type}

/-! ## What leaves the set-up alone -/

/-- The traps and their programs stay. New objects may be created. -/
structure KeepsTraps (before after : Shell World) : Prop where
  traps : after.traps = before.traps
  freed : after.freedPrograms = before.freedPrograms
  serials : before.nextSerial ≤ after.nextSerial

/-- What a child changes when it sets itself up. -/
def Core.setup (core : Core World) :
    (Nat → Trap) × List Nat × Bool × Bool × Bool × (ShellOption → Bool) :=
  (core.traps, core.freedPrograms, core.child, core.jobControl, core.interactive, core.options)

structure KeepsSetup (before after : Shell World) : Prop where
  setup : after.setup = before.setup
  serials : before.nextSerial ≤ after.nextSerial

namespace KeepsSetup

variable {before after : Shell World}

theorem keepsTraps (keeps : KeepsSetup before after) : KeepsTraps before after where
  traps := congrArg Prod.fst keeps.setup
  freed := congrArg (·.2.1) keeps.setup
  serials := keeps.serials

theorem traps (keeps : KeepsSetup before after) : after.traps = before.traps := keeps.keepsTraps.traps

theorem child (keeps : KeepsSetup before after) : after.child = before.child := congrArg (·.2.2.1) keeps.setup

theorem jobControl (keeps : KeepsSetup before after) : after.jobControl = before.jobControl :=
  congrArg (·.2.2.2.1) keeps.setup

theorem options (keeps : KeepsSetup before after) : after.options = before.options :=
  congrArg (·.2.2.2.2.2) keeps.setup

end KeepsSetup

instance : Std.Refl (KeepsSetup : Shell World → Shell World → Prop) := ⟨fun _ => ⟨rfl, Nat.le_refl _⟩⟩

instance : IsTrans (Shell World) KeepsSetup :=
  ⟨fun _ _ _ first second => ⟨second.setup.trans first.setup, Nat.le_trans first.serials second.serials⟩⟩

abbrev LeavesSetup (prog : Leaf World α) : Prop := Within KeepsSetup prog

namespace LeavesSetup

theorem bind {first : Leaf World α} {next : α → Leaf World β} (leaves : LeavesSetup first)
    (nextLeaves : ∀ value, LeavesSetup (next value)) : LeavesSetup (first >>= next) := Within.bind leaves nextLeaves

theorem ite {condition : Prop} [Decidable condition] {yes no : Leaf World α} (yesLeaves : LeavesSetup yes)
    (noLeaves : LeavesSetup no) : LeavesSetup (if condition then yes else no) := Within.ite yesLeaves noLeaves

theorem update {change : Core World → Core World} (setup : ∀ core, (change core).setup = core.setup)
    (serials : ∀ core, core.nextSerial ≤ (change core).nextSerial) : LeavesSetup (update change) :=
  fun state => ⟨setup state.toCore, serials state.toCore⟩

theorem call (request : World → α × World) : LeavesSetup (call request) := fun _ => ⟨rfl, Nat.le_refl _⟩

end LeavesSetup

theorem newSerial_leavesSetup : LeavesSetup (newSerial : Leaf World Nat) :=
  .bind (.gets _) fun _ => .bind (.update (fun _ => rfl) fun _ => Nat.le_succ _) fun _ => .pure _

theorem setGetopt_leavesSetup (change : Getopt → Getopt) : LeavesSetup (setGetopt change : Leaf World Unit) :=
  .update (fun _ => rfl) fun _ => Nat.le_refl _

theorem Talks.leavesSetup {prog : Leaf World α} (talks : Talks prog) : LeavesSetup prog :=
  talks.within fun _ _ _ => ⟨rfl, Nat.le_refl _⟩

section

variable [System World]

theorem keepsSetup_allows : AllowsJobs (KeepsSetup : Shell World → Shell World → Prop) where
  jobs _ _ _ _ := ⟨rfl, Nat.le_refl _⟩
  serial _ := ⟨rfl, Nat.le_succ _⟩
  printErr _ _ := ⟨rfl, Nat.le_refl _⟩
  setpgid _ _ _ := ⟨rfl, Nat.le_refl _⟩
  tcsetpgrp _ _ := ⟨rfl, Nat.le_refl _⟩
  tcgetattr _ := ⟨rfl, Nat.le_refl _⟩
  tcsetattr _ _ := ⟨rfl, Nat.le_refl _⟩
  kill _ _ _ := ⟨rfl, Nat.le_refl _⟩

/-! ### The options -/

theorem optionLoop_leavesSetup (args : List Str) (optstring : Str)
    {step : β → Char → Leaf World (Except Int β)} (leaves : ∀ value opt, LeavesSetup (step value opt))
    (fuel : Nat) (value : β) : LeavesSetup (optionLoop args optstring step fuel value) := by
  induction fuel generalizing value with
  | zero => exact .stop _
  | succ fuel ih =>
      refine .bind (mrshGetopt_talks _ _ _).leavesSetup fun opt => ?_
      cases opt with
      | none => exact .pure _
      | some opt =>
          refine .bind (leaves value opt) fun stepped => ?_
          cases stepped with
          | error status => exact .pure _
          | ok value => exact ih value

theorem noOptions_leavesSetup (args : List Str) (name usage : Str) :
    LeavesSetup (noOptions args name usage : Leaf World (Except Int Unit)) :=
  .bind (setGetopt_leavesSetup _) fun _ => optionLoop_leavesSetup _ _
    (fun _ _ => .bind (.gets _) fun _ => .bind (.call _) fun _ => .bind (.call _) fun _ => .pure _) _ _

/-! ### The parts of the trap functions -/

theorem printTrap_leavesSetup (sig : Nat) (trap : Trap) : LeavesSetup (printTrap sig trap : Leaf World Unit) := by
  refine .bind (.call _) fun _ => ?_
  have named : ∀ _ : Unit, LeavesSetup (do
      let name ← Mrsh.orCrash (sigStr sig)
      printf ([' '] ++ name ++ ['\n']) : Leaf World Unit) := fun _ => .bind (.orCrash _) fun _ => .call _
  cases trap.action with
  | default => exact .bind (.call _) named
  | ignore => exact .bind (.call _) named
  | «catch» =>
      exact .bind (.orCrash _) fun _ => .bind (.gets _) fun _ => .bind (.assertThat _) fun _ => .bind (.orCrash _)
        fun _ => .bind (.call _) named

theorem printTraps_leavesSetup (sigs : List Nat) : LeavesSetup (printTraps sigs : Leaf World Unit) := by
  induction sigs with
  | nil => exact .pure _
  | cons sig sigs ih =>
      exact .bind (.gets _) fun trap => .ite (.bind (printTrap_leavesSetup _ _) fun _ => ih) ih

theorem mayTrap_leavesSetup (sig : Nat) : LeavesSetup (mayTrap sig : Leaf World Bool) := by
  refine .bind (.gets _) fun trap => .bind (.gets _) fun interactive => .ite (.bind (.call _) fun reply => ?_) (.pure _)
  rcases reply with errno | _ | _ | _
  · exact .bind (perror_talks _ _).leavesSetup fun _ => .pure _
  · exact .pure _
  · exact .bind (.call _) fun _ => .pure _
  · exact .pure _

end

end

end Mrsh

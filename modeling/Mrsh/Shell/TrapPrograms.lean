import Mrsh.Builtin.OptionSequence
import Mrsh.Shell.Setup

namespace Mrsh

open Mrsh.Data

/-! # Who owns the programs of the traps

A trap frees its program when it is replaced, and the shell frees the programs of all
traps at its end. This frees a program once as long as every program belongs to one
trap. A `trap` command parses its action once and gives the same program to every
condition it names.
-/

section

variable {World : Type} [System World]

/-! ## The end of the shell -/

def broadcastSighupLoop : List Job → Leaf World Unit
  | [] => pure ()
  | job :: jobs => do
      let status ← jobPoll job.serial
      if status < 0 then
        match ← call (System.kill (-job.pgid) sighup) with
        | .error errno => perror "kill".toList errno
        | .ok _ => pure ()
      broadcastSighupLoop jobs

def broadcastSighupToJobs : Leaf World Unit := do
  assertThat (← gets (·.jobControl))
  broadcastSighupLoop (← gets (·.jobs))

def destroyJobs : List Job → Leaf World Unit
  | [] => pure ()
  | job :: jobs => do
      jobDestroy job.serial
      destroyJobs jobs

def destroyTrapPrograms : List Nat → Leaf World Unit
  | [] => pure ()
  | index :: rest => do
      let trap ← gets (·.traps index)
      destroyTrapProgram trap.program
      destroyTrapPrograms rest

/-- `mrsh_state_destroy`, without the memory of the tables, of the call frames and of
the state itself. -/
def mrshStateDestroy : Leaf World Unit := do
  if ← gets (·.jobControl) then broadcastSighupToJobs
  destroyJobs (← gets (·.jobs)).reverse
  update fun core => { core with processes := [] }
  destroyTrapPrograms (List.range nsig)

/-! ## The calls -/

inductive TrapCall where
  | trap (args : List Str)
  | setJobControlTraps (enabled : Bool)
  | resetCaughtTraps

def TrapCall.prog (fuel : Nat) : TrapCall → Leaf World Unit
  | .trap args => do
      let _ ← builtinTrap fuel args
  | .setJobControlTraps enabled => do
      let _ ← Mrsh.setJobControlTraps enabled
  | .resetCaughtTraps => do
      let _ ← Mrsh.resetCaughtTraps

/-- The operands of a builtin without options. -/
def plainOperands (args : List Str) : List Str :=
  match args.drop 1 with
  | [] => []
  | first :: rest => if strChar first 0 = '-' ∧ strChar first 1 = '-' then rest else first :: rest

/-- A condition that a trap may be set for. -/
def isCondition (operand : Str) : Bool :=
  match (sigNumbers ++ sigNames).lookup operand with
  | some sig => sig != sigkill && sig != sigstop
  | none => false

/-- The conditions that `trap` reaches, as the first bad one ends it. -/
def trapConditions (operands : List Str) : List Str := operands.takeWhile isCondition

/-- The program that `trap` parses its action to. -/
def actionProgram (fuel nextAddress : Nat) (actionStr : Str) : Option Program :=
  match mrshParseProgram fuel { mrshParserWithData actionStr with nextAddress } with
  | .done program parser => if parser.error.isNone then program else none
  | .stopped _ _ => none

/-- The call does not give a new program to two conditions. -/
def TrapCall.GivesOnce (fuel : Nat) : TrapCall → Prop
  | .trap args =>
      match plainOperands args with
      | [] => True
      | actionStr :: conditions =>
          isDecimalStr actionStr ∨ actionStr = ['-'] ∨
            (∀ nextAddress, actionProgram fuel nextAddress actionStr = none) ∨
            (trapConditions conditions).length ≤ 1
  | .setJobControlTraps _ => True
  | .resetCaughtTraps => True

end

section

variable {World α β : Type}

section

variable [System World]

theorem destroyJobs_leavesSetup (jobs : List Job) : LeavesSetup (destroyJobs jobs : Leaf World Unit) := by
  induction jobs with
  | nil => exact .pure _
  | cons job jobs ih => exact .bind (keepsSetup_allows.jobDestroy _) fun _ => ih

theorem broadcastSighupLoop_leavesSetup (jobs : List Job) :
    LeavesSetup (broadcastSighupLoop jobs : Leaf World Unit) := by
  induction jobs with
  | nil => exact .pure _
  | cons job jobs ih =>
      refine .bind (jobPoll_within _) fun status => .ite (.bind (.call _) fun reply => ?_) ih
      cases reply with
      | error errno => exact .bind (perror_talks _ _).leavesSetup fun _ => ih
      | ok _ => exact ih

theorem broadcastSighupToJobs_leavesSetup : LeavesSetup (broadcastSighupToJobs : Leaf World Unit) :=
  .bind (.gets _) fun _ => .bind (.assertThat _) fun _ => .bind (.gets _) fun _ => broadcastSighupLoop_leavesSetup _

end

/-! ## Ownership -/

/-- The program was created and is not freed yet. -/
def IsLive (state : Shell World) (program : TrapProgram) : Prop :=
  program.serial < state.nextSerial ∧ program.serial ∉ state.freedPrograms

/-- Each trap owns its program, and no program was freed twice. -/
structure TrapsOwned (state : Shell World) : Prop where
  live : ∀ index program, (state.traps index).program = some program → IsLive state program
  apart : ∀ index other program second, (state.traps index).program = some program →
    (state.traps other).program = some second → program.serial = second.serial → index = other
  freedCreated : ∀ serial ∈ state.freedPrograms, serial < state.nextSerial
  freedOnce : state.freedPrograms.Nodup

/-- No program was freed twice. -/
def FreedOnce (state : Shell World) : Prop := state.freedPrograms.Nodup

/-- A live program that no trap has yet. -/
structure Unowned (state : Shell World) (program : TrapProgram) : Prop where
  live : IsLive state program
  apart : ∀ index other, (state.traps index).program = some other → other.serial ≠ program.serial

theorem IsLive.keeps {before after : Shell World} {program : TrapProgram} (live : IsLive before program)
    (keeps : KeepsTraps before after) : IsLive after program := by
  constructor
  · exact Nat.lt_of_lt_of_le live.1 keeps.serials
  · rw [keeps.freed]
    exact live.2

theorem TrapsOwned.keeps {before after : Shell World} (owned : TrapsOwned before) (keeps : KeepsTraps before after) :
    TrapsOwned after where
  live index program has := by
    rw [keeps.traps] at has
    exact (owned.live index program has).keeps keeps
  apart index other program second has hasSecond same := by
    rw [keeps.traps] at has hasSecond
    exact owned.apart index other program second has hasSecond same
  freedCreated serial freed := by
    rw [keeps.freed] at freed
    exact Nat.lt_of_lt_of_le (owned.freedCreated serial freed) keeps.serials
  freedOnce := by
    rw [keeps.freed]
    exact owned.freedOnce

theorem Unowned.keeps {before after : Shell World} {program : TrapProgram} (unowned : Unowned before program)
    (keeps : KeepsTraps before after) : Unowned after program where
  live := unowned.live.keeps keeps
  apart index other has := by
    rw [keeps.traps] at has
    exact unowned.apart index other has

abbrev MeetsOwned (before : Shell World → Prop) (prog : Leaf World α) (after : α → Shell World → Prop) : Prop :=
  prog.Meets handleLeaf before after TrapsOwned

/-- A program that leaves the traps alone keeps what is owned and what is not. -/
theorem LeavesSetup.meets {prog : Leaf World α} (leaves : LeavesSetup prog) {before : Shell World → Prop}
    (stable : ∀ first second, KeepsTraps first second → before first → before second)
    (owned : ∀ state, before state → TrapsOwned state) : MeetsOwned before prog fun _ => before :=
  .frame leaves (fun first second keeps => stable first second keeps.keepsTraps) owned

theorem LeavesSetup.meetsOwned {prog : Leaf World α} (leaves : LeavesSetup prog) :
    MeetsOwned TrapsOwned prog fun _ => TrapsOwned :=
  leaves.meets (fun _ _ keeps owned => owned.keeps keeps) fun _ owned => owned

/-- The serial numbers of the programs of a trap. -/
def Trap.serials (trap : Trap) : List Nat := (trap.program.map (·.serial)).toList

theorem Trap.mem_serials {trap : Trap} {serial : Nat} :
    serial ∈ trap.serials ↔ ∃ program, trap.program = some program ∧ program.serial = serial := by
  simp [Trap.serials]

def Shell.withTrap (state : Shell World) (index : Nat) (trap : Trap) : Shell World :=
  { state with
    freedPrograms := (state.traps index).serials ++ state.freedPrograms
    traps := fun other => if other = index then trap else state.traps other }

theorem destroyTrapProgram_run (program : Option TrapProgram) (state : Shell World)
    (live : ∀ owned, program = some owned → owned.serial ∉ state.freedPrograms) :
    Leaf.run (destroyTrapProgram program) state =
      .done () { state with freedPrograms := (program.map (·.serial)).toList ++ state.freedPrograms } := by
  cases program with
  | none => rfl
  | some program =>
      have notFreed : ¬ program.serial ∈ state.freedPrograms := live program rfl
      simp [destroyTrapProgram, assertThat, notFreed]

theorem replaceTrap_run {state : Shell World} (owned : TrapsOwned state) (index : Nat) (trap : Trap) :
    Leaf.run (replaceTrap index trap) state = .done () (state.withTrap index trap) := by
  have destroyed := destroyTrapProgram_run (state.traps index).program state
    fun program has => (owned.live index program has).2
  unfold replaceTrap
  rw [Leaf.run_gets_bind, Leaf.run_bind, destroyed]
  rfl

theorem TrapsOwned.withTrap {state : Shell World} (owned : TrapsOwned state) (index : Nat) {trap : Trap}
    (unowned : ∀ program, trap.program = some program → Unowned state program) :
    TrapsOwned (state.withTrap index trap) where
  live other program has := by
    simp only [Shell.withTrap] at has
    by_cases replaced : other = index
    · rw [if_pos replaced] at has
      obtain ⟨⟨created, notFreed⟩, apart⟩ := unowned program has
      refine ⟨created, ?_⟩
      simp only [Shell.withTrap, List.mem_append, not_or]
      refine ⟨?_, notFreed⟩
      intro old
      obtain ⟨oldProgram, hadOld, same⟩ := Trap.mem_serials.mp old
      exact apart index oldProgram hadOld same
    · rw [if_neg replaced] at has
      obtain ⟨created, notFreed⟩ := owned.live other program has
      refine ⟨created, ?_⟩
      simp only [Shell.withTrap, List.mem_append, not_or]
      refine ⟨?_, notFreed⟩
      intro old
      obtain ⟨oldProgram, hadOld, same⟩ := Trap.mem_serials.mp old
      exact replaced (owned.apart other index program oldProgram has hadOld same.symm)
  apart first second program other has hasOther same := by
    simp only [Shell.withTrap] at has hasOther
    by_cases firstReplaced : first = index <;> by_cases secondReplaced : second = index
    · rw [firstReplaced, secondReplaced]
    · rw [if_pos firstReplaced] at has
      rw [if_neg secondReplaced] at hasOther
      exact absurd same.symm ((unowned program has).apart second other hasOther)
    · rw [if_neg firstReplaced] at has
      rw [if_pos secondReplaced] at hasOther
      exact absurd same ((unowned other hasOther).apart first program has)
    · rw [if_neg firstReplaced] at has
      rw [if_neg secondReplaced] at hasOther
      exact owned.apart first second program other has hasOther same
  freedCreated serial freed := by
    rcases List.mem_append.mp freed with old | freed
    · obtain ⟨program, had, rfl⟩ := Trap.mem_serials.mp old
      exact (owned.live index program had).1
    · exact owned.freedCreated serial freed
  freedOnce := by
    refine List.nodup_append'.mpr ⟨?_, owned.freedOnce, ?_⟩
    · cases had : (state.traps index).program <;> simp [Trap.serials, had]
    · intro serial old freed
      obtain ⟨program, had, rfl⟩ := Trap.mem_serials.mp old
      exact (owned.live index program had).2 freed

/-- The program, if there is one, may be given to a trap. -/
def MayOwn (program : Option TrapProgram) (state : Shell World) : Prop :=
  TrapsOwned state ∧ ∀ given, program = some given → Unowned state given

theorem replaceTrap_meets (index : Nat) (trap : Trap) :
    MeetsOwned (MayOwn trap.program) (replaceTrap index trap : Leaf World Unit) fun _ => TrapsOwned := by
  intro state holds
  have ended := replaceTrap_run holds.1 index trap
  unfold Leaf.run at ended
  rw [ended]
  exact holds.1.withTrap index holds.2

/-! ## The trap functions -/

theorem LeavesSetup.meetsMayOwn {prog : Leaf World α} (leaves : LeavesSetup prog) (program : Option TrapProgram) :
    MeetsOwned (MayOwn program) prog fun _ => MayOwn program :=
  leaves.meets
    (fun _ _ keeps may => ⟨may.1.keeps keeps, fun given has => (may.2 given has).keeps keeps⟩)
    fun _ may => may.1

theorem MayOwn.none {state : Shell World} (owned : TrapsOwned state) : MayOwn none state :=
  ⟨owned, fun _ has => nomatch has⟩

/-- The program of an action, if it has one. -/
def programGiven : Option (TrapAction × Option TrapProgram) → Option TrapProgram
  | some (_, program) => program
  | none => none

theorem newSerial_meets (program : Program) :
    MeetsOwned TrapsOwned (newSerial : Leaf World Nat) fun serial => MayOwn (some ⟨serial, program⟩) := by
  intro state owned
  change MayOwn (some ⟨state.nextSerial, program⟩) { state with nextSerial := state.nextSerial + 1 }
  have keeps : KeepsTraps state { state with nextSerial := state.nextSerial + 1 } := ⟨rfl, rfl, Nat.le_succ _⟩
  refine ⟨owned.keeps keeps, fun given has => ?_⟩
  obtain rfl := Option.some.inj has
  refine ⟨⟨Nat.lt_succ_self _, fun freed => Nat.lt_irrefl _ (owned.freedCreated _ freed)⟩, ?_⟩
  exact fun index other has => Nat.ne_of_lt (owned.live index other has).1

theorem parseText_meets (text : Str) (parse : Parse α) :
    MeetsOwned TrapsOwned (parseText text parse : Leaf World (α × Parser))
      fun parsed state => TrapsOwned state ∧
        ∃ nextAddress, parse { mrshParserWithData text with nextAddress } = .done parsed.1 parsed.2 := by
  intro state owned
  cases parsed : parse { mrshParserWithData text with nextAddress := state.nextAddress } with
  | done value parser =>
      have ended : Leaf.run (parseText text parse) state =
          .done (value, parser) { state with nextAddress := parser.nextAddress } := by
        simp only [parseText, Leaf.run_bind, Leaf.run_gets, Outcome.andThen_done, parsed, Leaf.run_update,
          Leaf.run_pure]
      unfold Leaf.run at ended
      rw [ended]
      exact ⟨owned.keeps ⟨rfl, rfl, Nat.le_refl _⟩, state.nextAddress, parsed⟩
  | stopped reason parser =>
      have ended : Leaf.run (parseText text parse) state = .stopped
          (match reason with | .outOfFuel => .outOfFuel | .aborted => .aborted) state := by
        cases reason <;> simp only [parseText, Leaf.run_bind, Leaf.run_gets, Outcome.andThen_done, parsed,
          Leaf.run_outOfFuel, Leaf.run_abort]
      unfold Leaf.run at ended
      rw [ended]
      exact owned

theorem mayOwn_none {state : Shell World} (owned : TrapsOwned state) {property : Prop} :
    MayOwn none state ∧ ((none : Option TrapProgram).isSome → property) :=
  ⟨.none owned, fun has => nomatch has⟩

theorem destroyTrapPrograms_freesOnce {indices : List Nat} (distinct : indices.Nodup) {state : Shell World}
    (freedOnce : state.freedPrograms.Nodup)
    (live : ∀ index ∈ indices, ∀ program, (state.traps index).program = some program →
      program.serial ∉ state.freedPrograms)
    (apart : ∀ index other program second, (state.traps index).program = some program →
      (state.traps other).program = some second → program.serial = second.serial → index = other) :
    (Leaf.run (destroyTrapPrograms indices) state).state.freedPrograms.Nodup := by
  induction indices generalizing state with
  | nil => exact freedOnce
  | cons index indices ih =>
      obtain ⟨fresh, distinct⟩ := List.nodup_cons.mp distinct
      have destroyed := destroyTrapProgram_run (state.traps index).program state
        (live index List.mem_cons_self)
      unfold destroyTrapPrograms
      rw [Leaf.run_gets_bind, Leaf.run_bind_of_done destroyed]
      refine ih distinct ?_ ?_ apart
      · refine List.nodup_append'.mpr ⟨?_, freedOnce, ?_⟩
        · cases (state.traps index).program <;> simp
        · intro serial old freed
          obtain ⟨program, had, rfl⟩ := Trap.mem_serials.mp old
          exact live index List.mem_cons_self program had freed
      · intro other member program has freed
        rcases List.mem_append.mp freed with old | freed
        · obtain ⟨program', had, same⟩ := Trap.mem_serials.mp old
          have again := apart index other program' program had has same
          exact fresh (again ▸ member)
        · exact live other (List.mem_cons_of_mem _ member) program has freed

variable [System World]

section

variable {before after always : Shell World → Prop}
  (setup : ∀ {α : Type} {prog : Leaf World α}, LeavesSetup prog → prog.Meets handleLeaf before (fun _ => before) always)
include setup

theorem setTrap_rule (sig : Nat) (action : TrapAction) (program : Option TrapProgram)
    (refused : ∀ state, before state → after state)
    (replaces : ∀ action, (replaceTrap sig { set := true, action, program } : Leaf World Unit).Meets handleLeaf before
      (fun _ => after) always) :
    (setTrap sig action program : Leaf World Bool).Meets handleLeaf before (fun _ => after) always := by
  have installs : ∀ action, (do
      replaceTrap sig { set := true, action, program }
      pure true : Leaf World Bool).Meets handleLeaf before (fun _ => after) always :=
    fun action => .bind (replaces action) fun _ => .pure fun _ replaced => replaced
  have refuses : (pure false : Leaf World Bool).Meets handleLeaf before (fun _ => after) always := .pure refused
  refine .bind (setup (.assertThat _)) fun _ => .ite (fun _ => installs action) fun _ => ?_
  refine .bind (setup (mayTrap_leavesSetup sig)) fun may => .ite (fun _ => ?_) fun _ => refuses
  refine .bind (setup (.bind (.gets _) fun _ => .pure _)) fun installed => ?_
  refine .bind (setup (LeavesSetup.call _)) fun reply => ?_
  cases reply with
  | error errno => exact .bind (setup (perror_talks _ _).leavesSetup) fun _ => refuses
  | ok _ => exact installs installed

theorem setJobControlTrapsLoop_rule (enabled : Bool) (sigs : List (Nat × Nat))
    (replaces : ∀ index, (replaceTrap index { set := false, action := .default, program := none } :
      Leaf World Unit).Meets handleLeaf before (fun _ => before) always) :
    (setJobControlTrapsLoop enabled sigs : Leaf World Bool).Meets handleLeaf before (fun _ => before) always := by
  induction sigs with
  | nil => exact .pure fun _ holds => holds
  | cons entry sigs ih =>
      refine .bind (setup (LeavesSetup.call _)) fun reply => ?_
      cases reply with
      | error errno => exact .bind (setup (perror_talks _ _).leavesSetup) fun _ => .pure fun _ holds => holds
      | ok _ => exact .bind (replaces entry.2) fun _ => ih

theorem resetCaughtTrapsLoop_rule (sigs : List Nat)
    (resets : ∀ sig, (setTrap sig .default none : Leaf World Bool).Meets handleLeaf before (fun _ => before) always) :
    (resetCaughtTrapsLoop sigs : Leaf World Bool).Meets handleLeaf before (fun _ => before) always := by
  induction sigs with
  | nil => exact .pure fun _ holds => holds
  | cons sig sigs ih =>
      refine .bind (setup (.gets _)) fun trap => .ite (fun _ => ?_) fun _ => ih
      exact .bind (resets sig) fun done => .ite (fun _ => ih) fun _ => .pure fun _ holds => holds

end

theorem setTrap_meets (sig : Nat) (action : TrapAction) (program : Option TrapProgram) :
    MeetsOwned (MayOwn program) (setTrap sig action program : Leaf World Bool) fun _ => TrapsOwned :=
  setTrap_rule (fun leaves => leaves.meetsMayOwn program) sig action program (fun _ may => may.1)
    fun action => replaceTrap_meets sig { set := true, action, program }

theorem setJobControlTrapsLoop_meets (enabled : Bool) (sigs : List (Nat × Nat)) :
    MeetsOwned TrapsOwned (setJobControlTrapsLoop enabled sigs : Leaf World Bool) fun _ => TrapsOwned :=
  setJobControlTrapsLoop_rule (fun leaves => leaves.meetsOwned) enabled sigs fun index =>
    (replaceTrap_meets index _).strengthen fun _ owned => MayOwn.none owned

theorem resetCaughtTrapsLoop_meets (sigs : List Nat) :
    MeetsOwned TrapsOwned (resetCaughtTrapsLoop sigs : Leaf World Bool) fun _ => TrapsOwned :=
  resetCaughtTrapsLoop_rule (fun leaves => leaves.meetsOwned) sigs fun sig =>
    (setTrap_meets sig .default none).strengthen fun _ owned => MayOwn.none owned

theorem parseAction_meets (fuel : Nat) (actionStr : Str) :
    MeetsOwned TrapsOwned (parseAction fuel actionStr : Leaf World (Option (TrapAction × Option TrapProgram)))
      fun parsed state => MayOwn (programGiven parsed) state ∧
        ((programGiven parsed).isSome →
          actionStr ≠ ['-'] ∧ ∃ nextAddress, actionProgram fuel nextAddress actionStr ≠ none) := by
  refine .ite (fun _ => .pure fun state owned => mayOwn_none owned) fun _ => ?_
  refine .ite (fun _ => .pure fun state owned => mayOwn_none owned) fun named => ?_
  have dashed : actionStr ≠ ['-'] := by simpa using named
  refine .bind (parseText_meets actionStr _) fun parsed => ?_
  obtain ⟨program, parser⟩ := parsed
  by_cases accepted : ∃ nextAddress,
      mrshParseProgram fuel { mrshParserWithData actionStr with nextAddress } = .done program parser
  · have created : ∀ {β : Type} {prog : Leaf World β} {after : β → Shell World → Prop},
        MeetsOwned TrapsOwned prog after → MeetsOwned (fun state => TrapsOwned state ∧ ∃ nextAddress,
          mrshParseProgram fuel { mrshParserWithData actionStr with nextAddress } = .done program parser) prog after :=
      fun meets => meets.strengthen fun _ holds => holds.1
    cases failed : parser.error with
    | some error =>
        simp only [failed]
        exact .bind (created (LeavesSetup.call _).meetsOwned) fun _ => .pure fun _ owned => mayOwn_none owned
    | none =>
        simp only [failed]
        cases program with
        | none =>
            exact .bind (created newSerial_leavesSetup.meetsOwned) fun _ => .pure fun _ owned => mayOwn_none owned
        | some program =>
            refine .bind (created (newSerial_meets program)) fun serial => ?_
            obtain ⟨nextAddress, accepted⟩ := accepted
            refine .pure fun state may => ⟨may, fun _ => ⟨dashed, nextAddress, ?_⟩⟩
            simp [actionProgram, accepted, failed]
  · exact fun state holds => absurd holds.2 accepted

theorem parseSig_meets {before : Shell World → Prop} (str : Str)
    (stable : ∀ first second, KeepsTraps first second → before first → before second)
    (owned : ∀ state, before state → TrapsOwned state) :
    MeetsOwned before (parseSig str) fun sig state => before state ∧ sig = (sigNumbers ++ sigNames).lookup str := by
  unfold parseSig
  cases (sigNumbers ++ sigNames).lookup str with
  | some sig => exact .pure fun _ holds => ⟨holds, rfl⟩
  | none => exact .bind ((LeavesSetup.call _).meets stable owned) fun _ => .pure fun _ holds => ⟨holds, rfl⟩

theorem setTraps_meets (action : TrapAction) (program : Option TrapProgram) (conditions : List Str)
    (once : program = none ∨ (trapConditions conditions).length ≤ 1) :
    MeetsOwned (fun state => TrapsOwned state ∧ (trapConditions conditions ≠ [] → MayOwn program state))
      (setTraps action program conditions : Leaf World Int) fun _ => TrapsOwned := by
  induction conditions with
  | nil => exact .pure fun _ holds => holds.1
  | cons condition rest ih =>
      let ready : Shell World → Prop := fun state =>
        TrapsOwned state ∧ (trapConditions (condition :: rest) ≠ [] → MayOwn program state)
      have parses : MeetsOwned ready (parseSig condition) fun sig state =>
          ready state ∧ sig = (sigNumbers ++ sigNames).lookup condition :=
        parseSig_meets condition
          (fun _ _ keeps holds => ⟨holds.1.keeps keeps, fun some =>
            ⟨holds.1.keeps keeps, fun given has => ((holds.2 some).2 given has).keeps keeps⟩⟩)
          fun _ holds => holds.1
      refine .bind parses fun sig => ?_
      cases sig with
      | none => exact .pure fun _ holds => holds.1.1
      | some sig =>
          refine .ite (fun _ => ?_) fun settable => ?_
          · exact (failWith_talks _).leavesSetup.meetsOwned.strengthen fun _ holds => holds.1.1
          · by_cases found : some sig = (sigNumbers ++ sigNames).lookup condition
            · have accepted : isCondition condition = true := by
                simpa [isCondition, ← found] using settable
              have reached : trapConditions (condition :: rest) = condition :: trapConditions rest := by
                simp [trapConditions, accepted]
              rw [reached] at once
              have sets : MeetsOwned (fun state => ready state ∧ some sig = (sigNumbers ++ sigNames).lookup condition)
                  (setTrap sig action program) fun _ => TrapsOwned :=
                (setTrap_meets sig action program).strengthen fun _ holds => holds.1.2 (by simp [reached])
              refine .bind sets fun done => .ite (fun _ => ?_) fun _ => .pure fun _ owned => owned
              have later : program = none ∨ (trapConditions rest).length ≤ 1 :=
                once.imp id fun few => Nat.le_trans (Nat.le_succ _) few
              refine (ih later).strengthen fun state owned => ⟨owned, fun more => ?_⟩
              rcases once with rfl | few
              · exact .none owned
              · have none : trapConditions rest = [] := by
                  rw [List.length_cons] at few
                  exact List.length_eq_zero_iff.mp (by omega)
                exact absurd none more
            · exact fun state holds => absurd holds.2 found

/-! ## The operands -/

theorem mrshGetopt_operands {args : List Str} {state after : Shell World} (reset : state.getopt.optind = 0)
    (ended : Leaf.run (mrshGetopt args.length (stringsArgv args) [':']) state = .done none after) :
    args.drop after.getopt.optind.toNat = plainOperands args := by
  obtain ⟨-, scans, -⟩ := mrshGetopt_done ended
  have start : state.getopt.started.optind = ((1 : Nat) : Int) := by simp [Getopt.started, reset]
  -- The argument behind the name.
  have second : ∀ {arg : Str}, slotOf (stringsArgv args) state.getopt.started.optind = some (some arg) →
      args.drop 1 = arg :: args.drop 2 := by
    intro arg found
    rw [start, slotOf_strings_some] at found
    obtain ⟨inside, rfl⟩ := List.getElem?_eq_some_iff.mp found
    exact List.drop_eq_getElem_cons inside
  generalize after.getopt = next at scans ⊢
  cases scans with
  | past past =>
      rw [start] at past ⊢
      have none : args.drop 1 = [] := List.drop_eq_nil_of_le (by omega)
      rw [plainOperands, none]
      exact none
  | @operand arg inside found plain =>
      have notDashed : ¬ (strChar arg 0 = '-' ∧ strChar arg 1 = '-') := by
        rintro ⟨first, dash⟩
        rcases plain with other | nothing
        · exact other first
        · rw [dash] at nothing
          cases nothing
      rw [start, plainOperands, second found]
      exact (second found).trans (if_neg notDashed).symm
  | dashes inside found dash double =>
      rw [plainOperands, second found, start]
      exact (if_pos ⟨dash, double⟩).symm

theorem noOptions_operands {args : List Str} {name usage : Str} {state after : Shell World}
    (ended : Leaf.run (noOptions args name usage) state = .done (.ok ()) after) :
    args.drop after.getopt.optind.toNat = plainOperands args := by
  unfold noOptions forOptions at ended
  obtain ⟨_, between, reset, looped⟩ := Leaf.run_bind_done.mp ended
  cases reset
  unfold optionLoop at looped
  obtain ⟨opt, last, got, stepped⟩ := Leaf.run_bind_done.mp looped
  cases opt with
  | none =>
      cases stepped
      exact mrshGetopt_operands rfl got
  | some opt =>
      obtain ⟨result, middle, failed, decided⟩ := Leaf.run_bind_done.mp stepped
      cases failed
      cases decided

/-! ## Runs of calls -/

theorem installTraps_meets (fuel : Nat) (actionStr : Str) (conditions : List Str)
    (once : actionStr = ['-'] ∨ (∀ nextAddress, actionProgram fuel nextAddress actionStr = none) ∨
      (trapConditions conditions).length ≤ 1) :
    MeetsOwned TrapsOwned (do
      match ← parseAction fuel actionStr with
      | none => pure 1
      | some (action, program) => setTraps action program conditions : Leaf World Int) fun _ => TrapsOwned := by
  refine .bind (parseAction_meets fuel actionStr) fun parsed => ?_
  rcases parsed with _ | ⟨action, program⟩
  · exact .pure fun _ holds => holds.1.1
  · by_cases few : program = none ∨ (trapConditions conditions).length ≤ 1
    · exact (setTraps_meets action program conditions few).strengthen fun _ holds => ⟨holds.1.1, fun _ => holds.1⟩
    · intro state holds
      obtain ⟨given, many⟩ := not_or.mp few
      obtain ⟨named, nextAddress, parses⟩ := holds.2 (Option.isSome_iff_ne_none.mpr given)
      rcases once with dash | unparsed | few
      · exact absurd dash named
      · exact absurd (unparsed nextAddress) parses
      · exact absurd few many

theorem builtinTrap_meets (fuel : Nat) (args : List Str) (once : (TrapCall.trap args).GivesOnce fuel) :
    MeetsOwned TrapsOwned (builtinTrap fuel args : Leaf World Int) fun _ => TrapsOwned := by
  have options : MeetsOwned TrapsOwned
      (noOptions args "trap".toList trapUsage : Leaf World (Except Int Unit)) fun result state =>
      TrapsOwned state ∧ (result = .ok () → args.drop state.getopt.optind.toNat = plainOperands args) := by
    intro state owned
    have kept := (noOptions_leavesSetup args "trap".toList trapUsage).meetsOwned state owned
    cases ended : Leaf.run (noOptions args "trap".toList trapUsage) state with
    | done result after =>
        unfold Leaf.run at ended
        rw [ended] at kept ⊢
        refine ⟨kept, fun accepted => ?_⟩
        subst accepted
        exact noOptions_operands ended
    | stopped reason after =>
        unfold Leaf.run at ended
        rw [ended] at kept ⊢
        exact kept
  refine .bind options fun result => ?_
  rcases result with status | ⟨⟩
  · exact .pure fun _ holds => holds.1
  · have operands : MeetsOwned (fun state => TrapsOwned state ∧
          ((.ok () : Except Int Unit) = .ok () → args.drop state.getopt.optind.toNat = plainOperands args))
        (operandsOf args : Leaf World (List Str)) fun operands state =>
          TrapsOwned state ∧ operands = plainOperands args :=
      fun state holds => ⟨holds.1, holds.2 rfl⟩
    refine .bind operands fun operands => ?_
    by_cases actual : operands = plainOperands args
    · subst actual
      unfold TrapCall.GivesOnce at once
      cases named : plainOperands args with
      | nil =>
          refine .bind ((printTraps_leavesSetup _).meetsOwned.strengthen fun _ holds => holds.1) fun _ => ?_
          exact .pure fun _ owned => owned
      | cons operand rest =>
          simp only [named] at once
          by_cases decimal : isDecimalStr operand = true
          · simp only [decimal, if_true]
            exact (installTraps_meets fuel ['-'] (operand :: rest) (.inl rfl)).strengthen fun _ holds => holds.1
          · simp only [decimal, Bool.false_eq_true, if_false]
            exact (installTraps_meets fuel operand rest (once.resolve_left decimal)).strengthen fun _ holds => holds.1
    · exact fun state holds => absurd holds.2 actual

theorem TrapCall.meets (fuel : Nat) {call : TrapCall} (once : call.GivesOnce fuel) :
    MeetsOwned TrapsOwned (call.prog fuel : Leaf World Unit) fun _ => TrapsOwned := by
  cases call with
  | trap args => exact .bind (builtinTrap_meets fuel args once) fun _ => .pure fun _ owned => owned
  | setJobControlTraps enabled =>
      exact .bind (setJobControlTrapsLoop_meets enabled _) fun _ => .pure fun _ owned => owned
  | resetCaughtTraps => exact .bind (resetCaughtTrapsLoop_meets _) fun _ => .pure fun _ owned => owned

theorem mrshStateDestroy_meets :
    Prog.Meets handleLeaf TrapsOwned (mrshStateDestroy : Leaf World Unit) (fun _ => FreedOnce) FreedOnce := by
  have leaves : ∀ {γ : Type} {prog : Leaf World γ}, LeavesSetup prog →
      Prog.Meets handleLeaf TrapsOwned prog (fun _ => TrapsOwned) FreedOnce := fun respects =>
    .frame respects (fun _ _ keeps owned => owned.keeps keeps.keepsTraps) fun _ owned => owned.freedOnce
  have programs : Prog.Meets handleLeaf TrapsOwned (destroyTrapPrograms (List.range nsig) : Leaf World Unit)
      (fun _ => FreedOnce) FreedOnce :=
    .of_state fun state owned => destroyTrapPrograms_freesOnce List.nodup_range owned.freedOnce
      (fun index _ program has => (owned.live index program has).2) owned.apart
  have jobs : Prog.Meets handleLeaf TrapsOwned (do
      destroyJobs (← gets (·.jobs)).reverse
      update fun core => { core with processes := [] }
      destroyTrapPrograms (List.range nsig) : Leaf World Unit) (fun _ => FreedOnce) FreedOnce := by
    refine .bind (leaves (.gets _)) fun _ => ?_
    refine .bind (leaves (destroyJobs_leavesSetup _)) fun _ => ?_
    exact .bind (leaves (.update (fun _ => rfl) fun _ => Nat.le_refl _)) fun _ => programs
  refine .bind (leaves (.gets _)) fun _ => ?_
  exact .ite (fun _ => .bind (leaves broadcastSighupToJobs_leavesSetup) fun _ => jobs) fun _ => jobs

/-- The states that calls reach, with anything else that leaves the traps alone in between. -/
inductive TrapRun (fuel : Nat) (allowed : TrapCall → Prop) (start : Shell World) : Shell World → Prop where
  | start : TrapRun fuel allowed start start
  | between {state after : Shell World} (reached : TrapRun fuel allowed start state)
      (keeps : KeepsTraps state after) : TrapRun fuel allowed start after
  | call {state after : Shell World} (reached : TrapRun fuel allowed start state) (call : TrapCall)
      (may : allowed call) (ended : Leaf.run (call.prog fuel) state = .done () after) :
      TrapRun fuel allowed start after

theorem TrapRun.owned {fuel : Nat} {start state : Shell World} (owned : TrapsOwned start)
    (reached : TrapRun fuel (TrapCall.GivesOnce fuel) start state) : TrapsOwned state := by
  induction reached with
  | start => exact owned
  | between _ keeps ih => exact ih.keeps keeps
  | call _ call may ended ih => exact (TrapCall.meets fuel may).done ih ended

/-- From a state without programs, calls that give each program to one trap at most keep
every program of a trap live, and no program is freed twice, not even by the next call
or by the end of the shell. -/
theorem trapPrograms_freedOnce (fuel : Nat) (start state : Shell World)
    (noPrograms : ∀ index, (start.traps index).program = none) (noneFreed : start.freedPrograms = [])
    (reached : TrapRun fuel (TrapCall.GivesOnce fuel) start state) :
    (∀ index program, (state.traps index).program = some program → IsLive state program) ∧
      FreedOnce state ∧
      (∀ call : TrapCall, call.GivesOnce fuel → FreedOnce (Leaf.run (call.prog fuel) state).state) ∧
      FreedOnce (Leaf.run mrshStateDestroy state).state := by
  have initially : TrapsOwned start := by
    refine ⟨?_, ?_, ?_, ?_⟩
    · intro index program has
      exact absurd (noPrograms index ▸ has) nofun
    · intro index other program second has
      exact absurd (noPrograms index ▸ has) nofun
    · rw [noneFreed]
      exact nofun
    · rw [noneFreed]
      exact List.nodup_nil
  have owned := reached.owned initially
  refine ⟨owned.live, owned.freedOnce, fun call once => ?_, mrshStateDestroy_meets.state owned⟩
  exact ((TrapCall.meets fuel once).state owned).freedOnce

end

/-! ## A program that two traps have -/

/-- The null command as the action for the conditions. -/
def trapColon (conditions : List String) : TrapCall :=
  .trap ("trap".toList :: ":".toList :: conditions.map String.toList)

/-- The shell that has run the call. -/
def afterTrap (conditions : List String) : Shell Machine :=
  (Leaf.run ((trapColon conditions).prog 40) (mrshStateCreate [] Machine.isolated)).state

theorem trapRun_afterTrap {conditions : List String} {allowed : TrapCall → Prop}
    (may : allowed (trapColon conditions))
    (ended : (Leaf.run ((trapColon conditions).prog 40) (mrshStateCreate [] Machine.isolated)).value? = some ()) :
    TrapRun 40 allowed (mrshStateCreate [] Machine.isolated) (afterTrap conditions) :=
  .call .start _ may (Outcome.eq_done_of_value? ended)

theorem trapPrograms_freedOnce_interrupt :
    FreedOnce (Leaf.run mrshStateDestroy (afterTrap ["INT"])).state :=
  (trapPrograms_freedOnce 40 (mrshStateCreate [] Machine.isolated) (afterTrap ["INT"]) (fun _ => rfl) rfl
    (trapRun_afterTrap (.inr (.inr (.inr (by decide)))) (by decide +kernel))).2.2.2

/-- The end of the shell frees the program of two traps twice, and a condition that is
named twice frees its own program. -/
theorem trapPrograms_freedTwice :
    (∃ state, TrapRun 40 (fun _ => True) (mrshStateCreate [] Machine.isolated) state ∧
      ¬ FreedOnce (Leaf.run mrshStateDestroy state).state) ∧
    ∃ state program, TrapRun 40 (fun _ => True) (mrshStateCreate [] Machine.isolated) state ∧
      (state.traps 2).program = some program ∧ ¬ IsLive state program := by
  constructor
  · refine ⟨afterTrap ["INT", "TERM"], trapRun_afterTrap trivial (by decide +kernel), ?_⟩
    have freed : (Leaf.run mrshStateDestroy (afterTrap ["INT", "TERM"])).state.freedPrograms = [0, 0] := by
      decide +kernel
    unfold FreedOnce
    rw [freed]
    decide
  · have has : ((afterTrap ["INT", "INT"]).traps 2).program.map (·.serial) = some 0 := by decide +kernel
    have freed : (afterTrap ["INT", "INT"]).freedPrograms = [0] := by decide +kernel
    obtain ⟨program, has, serial⟩ := Option.map_eq_some_iff.mp has
    refine ⟨_, program, trapRun_afterTrap trivial (by decide +kernel), has, fun live => ?_⟩
    unfold IsLive at live
    rw [freed, serial] at live
    exact live.2 List.mem_cons_self

end Mrsh

import Mrsh.Shell.ChildStatus
import Mrsh.Shell.Interpreter
import Mrsh.Shell.Setup

namespace Mrsh

open Mrsh.Data

/-! # How a child that runs shell code sets itself up

Four places of the interpreter fork and go on with shell code in the child. Each has its
own code for what the child changes first, and they do not agree: only the subshell and
the command substitution reset the traps, all but the command substitution mark the
child, and the subshell keeps job control.
-/

section

variable {World α : Type}

/-! ## Leaving job control -/

/-- The trap after `set_trap` with the default action. -/
def defaultTrap : Trap := { set := true, action := .default, program := none }

/-- The trap after `set_job_control_traps`. -/
def unsetTrap : Trap := { set := false, action := .default, program := none }

/-- The state apart from the traps and their programs, for what the set-up is about. -/
structure SameMode (before after : Shell World) : Prop where
  child : after.child = before.child
  jobControl : after.jobControl = before.jobControl
  options : after.options = before.options

theorem SameMode.refl (state : Shell World) : SameMode state state := ⟨rfl, rfl, rfl⟩

theorem SameMode.trans {first second third : Shell World} (before : SameMode first second)
    (after : SameMode second third) : SameMode first third :=
  ⟨after.child.trans before.child, after.jobControl.trans before.jobControl, after.options.trans before.options⟩

theorem KeepsSetup.sameMode {before after : Shell World} (keeps : KeepsSetup before after) : SameMode before after :=
  ⟨keeps.child, keeps.jobControl, keeps.options⟩

/-- A replaced entry of the table of traps. -/
def withEntry (traps : Nat → Trap) (index : Nat) (trap : Trap) : Nat → Trap :=
  fun other => if other = index then trap else traps other

theorem destroyTrapProgram_done {program : Option TrapProgram} {state after : Shell World}
    (ended : Leaf.run (destroyTrapProgram program) state = .done () after) :
    after.traps = state.traps ∧ SameMode state after := by
  cases program with
  | none =>
      cases ended
      exact ⟨rfl, .refl _⟩
  | some program =>
      simp only [destroyTrapProgram, assertThat, Leaf.run_bind, Leaf.run_gets, Outcome.andThen_done, Leaf.run_update,
        Leaf.run_ite, Leaf.run_pure, Leaf.run_abort] at ended
      split at ended
      · cases ended
        exact ⟨rfl, rfl, rfl, rfl⟩
      · cases ended

theorem replaceTrap_done {index : Nat} {trap : Trap} {state after : Shell World}
    (ended : Leaf.run (replaceTrap index trap) state = .done () after) :
    after.traps = withEntry state.traps index trap ∧ SameMode state after := by
  obtain ⟨old, read, same, rest⟩ := Leaf.run_bind_done.mp ended
  cases same
  obtain ⟨_, between, destroyed, sets⟩ := Leaf.run_bind_done.mp rest
  obtain ⟨traps, mode⟩ := destroyTrapProgram_done destroyed
  cases sets
  refine ⟨?_, mode.child, mode.jobControl, mode.options⟩
  change withEntry between.traps index trap = withEntry state.traps index trap
  rw [traps]
  rfl

variable [System World]

/-- The system lets the handler of the signal be changed. -/
def Accepts (World : Type) [System World] (sig : Nat) : Prop :=
  ∀ handler (world : World), ∃ after, System.sigaction sig handler world = (.ok (), after)

theorem call_accepts {sig : Nat} (accepts : Accepts World sig) (handler : Handler) (state : Shell World) :
    ∃ world, Leaf.run (call (System.sigaction sig handler)) state = .done (.ok ()) { state with world } := by
  obtain ⟨world, replied⟩ := accepts handler state.world
  exact ⟨world, by rw [Leaf.run_call, replied]⟩

theorem setJobControlTrapsLoop_done {sigs : List (Nat × Nat)} {enabled done : Bool} {state after : Shell World}
    (accepts : ∀ entry ∈ sigs, Accepts World entry.1)
    (ended : Leaf.run (setJobControlTrapsLoop enabled sigs) state = .done done after) :
    (after.traps = fun index => if index ∈ sigs.map Prod.snd then unsetTrap else state.traps index) ∧
      SameMode state after := by
  induction sigs generalizing state with
  | nil =>
      cases ended
      exact ⟨by simp, .refl _⟩
  | cons entry sigs ih =>
      obtain ⟨world, replied⟩ :=
        call_accepts (accepts entry List.mem_cons_self) (if enabled then .ignore else .default) state
      rw [setJobControlTrapsLoop, Leaf.run_bind_of_done replied] at ended
      obtain ⟨_, between, replaced, rest⟩ := Leaf.run_bind_done.mp ended
      obtain ⟨traps, mode⟩ := replaceTrap_done replaced
      obtain ⟨later, laterMode⟩ := ih (fun entry member => accepts entry (List.mem_cons_of_mem _ member)) rest
      refine ⟨?_, SameMode.trans ⟨mode.child, mode.jobControl, mode.options⟩ laterMode⟩
      rw [later, traps]
      funext index
      simp only [withEntry, List.map_cons, List.mem_cons]
      by_cases reset : index ∈ sigs.map Prod.snd
      · simp [reset]
      · by_cases here : index = entry.2
        · simp [here, unsetTrap]
        · simp [reset, here]

/-- The traps of a process that has left job control. -/
def trapsOutside (jobControl : Bool) (traps : Nat → Trap) : Nat → Trap :=
  fun index => if jobControl = true ∧ index < 5 then unsetTrap else traps index

theorem initJobChildProcess_done {fuel : Nat} {state after : Shell World}
    (accepts : ∀ sig ∈ ignoredJobControlSigs, Accepts World sig)
    (ended : Leaf.run (initJobChildProcess fuel) state = .done () after) :
    after.traps = trapsOutside state.jobControl state.traps ∧ after.jobControl = false ∧
      after.child = state.child ∧ after.options = state.options := by
  unfold initJobChildProcess mrshSetJobControl at ended
  obtain ⟨done, last, sets, returned⟩ := Leaf.run_bind_done.mp ended
  cases returned
  rw [Leaf.run_gets_bind] at sets
  cases inside : state.jobControl with
  | false =>
      simp only [inside, beq_self_eq_true, if_true] at sets
      cases sets
      refine ⟨?_, inside, rfl, rfl⟩
      funext index
      simp [trapsOutside]
  | true =>
      have differs : ¬ (true == false) = true := by decide
      rw [inside, if_neg differs, if_neg Bool.false_ne_true] at sets
      obtain ⟨_, between, loop, rest⟩ := Leaf.run_bind_done.mp sets
      cases rest
      have accepted : ∀ entry ∈ ignoredJobControlSigs.zipIdx, Accepts World entry.1 := by
        intro entry member
        exact accepts entry.1 (List.fst_mem_of_mem_zipIdx member)
      obtain ⟨traps, mode⟩ := setJobControlTrapsLoop_done accepted loop
      refine ⟨?_, rfl, mode.child, mode.options⟩
      change between.traps = _
      rw [traps]
      funext index
      have entries : index ∈ ignoredJobControlSigs.zipIdx.map Prod.snd ↔ index < 5 := by
        simp [ignoredJobControlSigs]
        omega
      simp only [trapsOutside, entries, true_and]

theorem setTrap_default {sig : Nat} {done : Bool} {state after : Shell World} (set : (state.traps sig).set = true)
    (outside : state.jobControl = false) (accepts : sig ≠ 0 → Accepts World sig)
    (ended : Leaf.run (setTrap sig .default none) state = .done done after) :
    done = true ∧ after.traps = withEntry state.traps sig defaultTrap ∧ SameMode state after := by
  have noProgram : (TrapAction.default == .catch || (none : Option TrapProgram).isNone) = true := rfl
  rw [setTrap, noProgram, assertThat, if_pos rfl, pure_bind] at ended
  by_cases exit : sig = 0
  · have zero : (sig == 0) = true := by simpa using exit
    rw [if_pos zero] at ended
    obtain ⟨_, last, replaced, returned⟩ := Leaf.run_bind_done.mp ended
    cases returned
    exact ⟨rfl, replaceTrap_done replaced⟩
  · have nonzero : ¬ (sig == 0) = true := by simpa using exit
    rw [if_neg nonzero] at ended
    obtain ⟨may, asked, asks, rest⟩ := Leaf.run_bind_done.mp ended
    have trapped : Leaf.run (mayTrap sig) state = .done true state := by
      simp [mayTrap, set]
    rw [trapped] at asks
    cases asks
    have installs : Leaf.run (installedAction sig .default) state = .done .default state := by
      simp [installedAction, outside]
    obtain ⟨world, replied⟩ := call_accepts (accepts exit) (handlerOf .default) state
    rw [if_pos rfl, Leaf.run_bind_of_done installs, Leaf.run_bind_of_done replied] at rest
    obtain ⟨_, last, replaced, returned⟩ := Leaf.run_bind_done.mp rest
    cases returned
    obtain ⟨traps, mode⟩ := replaceTrap_done replaced
    exact ⟨rfl, traps, mode.child, mode.jobControl, mode.options⟩

/-- A trap that is set and whose signal is not ignored is reset. -/
def resetTrap (trap : Trap) : Trap := if trap.set && trap.action != .ignore then defaultTrap else trap

theorem resetTrap_idem (trap : Trap) : resetTrap (resetTrap trap) = resetTrap trap := by
  unfold resetTrap
  split
  · rfl
  · simp_all

theorem resetCaughtTrapsLoop_done {sigs : List Nat} {done : Bool} {state after : Shell World}
    (outside : state.jobControl = false)
    (accepts : ∀ sig ∈ sigs, sig ≠ 0 → (state.traps sig).set = true → Accepts World sig)
    (ended : Leaf.run (resetCaughtTrapsLoop sigs) state = .done done after) :
    (after.traps = fun sig => if sig ∈ sigs then resetTrap (state.traps sig) else state.traps sig) ∧
      SameMode state after := by
  induction sigs generalizing state with
  | nil =>
      cases ended
      exact ⟨by simp, .refl _⟩
  | cons sig sigs ih =>
      rw [resetCaughtTrapsLoop, Leaf.run_gets_bind] at ended
      by_cases caught : ((state.traps sig).set && (state.traps sig).action != .ignore) = true
      · rw [if_pos caught] at ended
        have set : (state.traps sig).set = true := by
          rw [Bool.and_eq_true] at caught
          exact caught.1
        obtain ⟨ok, between, resets, rest⟩ := Leaf.run_bind_done.mp ended
        have accepted : sig ≠ 0 → Accepts World sig := fun nonzero => accepts sig List.mem_cons_self nonzero set
        obtain ⟨rfl, traps, mode⟩ := setTrap_default set outside accepted resets
        rw [if_pos rfl] at rest
        have kept : ∀ other, (between.traps other).set = (state.traps other).set := by
          intro other
          rw [traps]
          by_cases here : other = sig
          · simp [withEntry, here, set, defaultTrap]
          · simp [withEntry, here]
        obtain ⟨later, laterMode⟩ := ih (mode.jobControl.trans outside)
          (fun other member nonzero isSet =>
            accepts other (List.mem_cons_of_mem _ member) nonzero ((kept other).symm.trans isSet)) rest
        refine ⟨?_, mode.trans laterMode⟩
        have here : resetTrap (state.traps sig) = defaultTrap := by rw [resetTrap, if_pos caught]
        rw [later, traps]
        funext other
        simp only [withEntry, List.mem_cons]
        by_cases same : other = sig
        · subst same
          rw [if_pos rfl, ← here, resetTrap_idem]
          simp
        · simp [same]
      · rw [if_neg caught] at ended
        obtain ⟨later, laterMode⟩ := ih outside
          (fun other member => accepts other (List.mem_cons_of_mem _ member)) ended
        refine ⟨?_, laterMode⟩
        have here : resetTrap (state.traps sig) = state.traps sig := by rw [resetTrap, if_neg caught]
        rw [later]
        funext other
        simp only [List.mem_cons]
        by_cases same : other = sig
        · subst same
          simp [here]
        · simp [same]

/-! ## What leaves the set-up alone in a child -/

theorem initChild_leavesSetup (ctx : Context) (pid : Int) (async : Bool) :
    LeavesSetup (initChild ctx pid async : Leaf World Nat) := keepsSetup_allows.initChild ctx pid async

theorem redirectStdin_leavesSetup : LeavesSetup (redirectStdin : Leaf World Unit) := by
  refine .bind (.gets _) fun monitor => .ite (.pure _) (.bind (.call _) fun opened => ?_)
  cases opened with
  | error errno => exact .bind (.pure _) fun _ => .bind (.call _) fun _ => .stop _
  | ok fd => exact .ite (.pure _) (.bind (.call _) fun _ => .call _)

theorem moveFd_leavesSetup (fd target : Int) (name : Str) : LeavesSetup (moveFd fd target name : Leaf World Bool) := by
  refine .ite (.pure _) (.bind (.call _) fun reply => ?_)
  cases reply with
  | error errno => exact .bind (.pure _) fun _ => .bind (.call _) fun _ => .pure _
  | ok _ => exact .bind (.call _) fun _ => .pure _

theorem moveOptionalFd_leavesSetup (fd : Option Int) (target : Int) (name : Str) :
    LeavesSetup (moveOptionalFd fd target name : Leaf World Bool) := by
  cases fd with
  | none => exact .pure _
  | some fd => exact moveFd_leavesSetup fd target name

theorem moveOutput_leavesSetup (fd : Int) : LeavesSetup (moveOutput fd : Leaf World Unit) :=
  .ite (.bind (.call _) fun _ => .call _) (.pure _)

/-! ## The four places -/

/-- A place that forks and goes on with shell code in the child. -/
inductive ForkSite where
  | subshell (ctx : Context) (body : List CommandList)
  | async (ctx : Context) (andOrList : AndOrList)
  | pipeline (ctx : Context) (fds : PipelineFds) (cmd : Command)
  | substitution (program : Program) (fds : Int × Int)

/-- The child that the place forks. -/
def ForkSite.child (self : Tasks World) : ForkSite → Exec World Int
  | .subshell ctx body => runSubshellChild self ctx body
  | .async ctx andOrList => runAsyncChild self ctx andOrList
  | .pipeline ctx fds cmd => runPipelineChild self ctx fds cmd
  | .substitution program fds => runWordCommandChild self (some program) fds

/-- What the child does before its shell code, and whether it gets there. -/
def ForkSite.enter (fuel : Nat) : ForkSite → Leaf World Bool
  | .subshell _ _ => do
      enterSubshell
      pure true
  | .async ctx _ => do
      enterAsync fuel ctx
      pure true
  | .pipeline ctx fds _ => preparePipelineChild fuel ctx fds
  | .substitution program fds => do
      enterWordCommand fuel program fds
      pure true

/-- The shell code of the child, and its exit. -/
def ForkSite.shellCode (self : Tasks World) : ForkSite → Exec World Int
  | .subshell ctx body => subshellCode self ctx body
  | .async ctx andOrList => asyncCode self ctx andOrList
  | .pipeline ctx _ cmd => pipelineCode self ctx cmd
  | .substitution program _ => wordCommandCode self program

theorem ForkSite.child_starts {self : Tasks World} {site : ForkSite} {parent started : Shell World}
    (ended : Leaf.run (site.enter self.fuel) parent = .done true started) :
    Exec.run (site.child self) parent = Exec.run (site.shellCode self) started := by
  cases site with
  | subshell ctx body =>
      obtain ⟨_, last, entered, returned⟩ := Leaf.run_bind_done.mp ended
      cases returned
      exact runSubshellChild_starts entered
  | async ctx andOrList =>
      obtain ⟨_, last, entered, returned⟩ := Leaf.run_bind_done.mp ended
      cases returned
      exact runAsyncChild_starts entered
  | pipeline ctx fds cmd => exact runPipelineChild_starts ended
  | substitution program fds =>
      obtain ⟨_, last, entered, returned⟩ := Leaf.run_bind_done.mp ended
      cases returned
      exact runWordCommandChild_starts entered

theorem runWordCommandChild_neverReturns (self : Tasks World) (program : Program) (fds : Int × Int) :
    NeverReturns (runWordCommandChild self (some program) fds : Exec World α) := by
  have code : NeverReturns (wordCommandCode self program : Exec World α) := .bind fun _ => .bind fun _ => .exit _
  refine .bind fun _ => .ite (.bind fun _ => .bind fun _ => ?_) ?_
  all_goals exact .bind fun _ => .ite (.bind fun _ => code) code

/-- The child of a pipeline that cannot move its pipes goes on with the code of the shell, as
if the pipeline had ended with status 0. No other child returns. -/
theorem ForkSite.child_returns_iff {self : Tasks World} {site : ForkSite} {state after : Shell World} {ret : Int} :
    Exec.run (site.child self) state = .done ret after ↔
      ret = 0 ∧ Leaf.run (site.enter self.fuel) state = .done false after := by
  have entersOnly : ∀ enter : Leaf World Unit,
      ¬ (ret = 0 ∧ Leaf.run (do enter; pure true) state = .done false after) := by
    rintro enter ⟨-, ended⟩
    obtain ⟨_, _, -, ended⟩ := Leaf.run_bind_done.mp ended
    cases ended
  cases site with
  | subshell ctx body =>
      have never : NeverReturns (runSubshellChild self ctx body) :=
        .bind fun _ => .bind fun _ => .bind fun _ => .bind fun _ => .bind fun _ => .exit _
      exact iff_of_false (never state ret after) (entersOnly _)
  | async ctx andOrList =>
      exact iff_of_false (runAsyncChild_neverReturns self ctx andOrList state ret after) (entersOnly _)
  | substitution program fds =>
      exact iff_of_false (runWordCommandChild_neverReturns self program fds state ret after) (entersOnly _)
  | pipeline ctx fds cmd =>
      change Exec.run (runPipelineChild self ctx fds cmd) state = _ ↔ _ ∧
        Leaf.run (preparePipelineChild self.fuel ctx fds) state = _
      rw [runPipelineChild, Exec.run_bind_done]
      constructor
      · rintro ⟨prepared, between, prepares, ended⟩
        cases prepared with
        | true =>
            have never : NeverReturns (pipelineCode self ctx cmd) := .bind fun _ => .exit _
            exact absurd ended (never between ret after)
        | false =>
            rw [Exec.run_leaf] at prepares
            cases ended
            exact ⟨rfl, prepares⟩
      · rintro ⟨rfl, prepares⟩
        exact ⟨false, after, (Exec.run_leaf _ _).trans prepares, rfl⟩

/-- The trap of a signal that the shell catches. -/
def Trap.caught (trap : Trap) : Bool := trap.set && trap.action == .catch

def Trap.ignored (trap : Trap) : Bool := trap.set && trap.action == .ignore

/-- A command substitution of a lone `trap` keeps the traps. -/
def ForkSite.keepsTraps : ForkSite → Bool
  | .substitution program _ => isPrintTraps program
  | _ => false

/-- The state in which a child is to start. -/
structure StartsClean (site : ForkSite) (parent started : Shell World) : Prop where
  child : started.child = true
  jobControl : started.jobControl = false
  caught : site.keepsTraps = false → ∀ sig < nsig, (parent.traps sig).caught = true →
    (started.traps sig).action = .default ∧ (started.traps sig).program = none
  ignored : ∀ sig < nsig, (parent.traps sig).ignored = true → (started.traps sig).ignored = true

/-- Whether the place leaves job control, which clears the first five traps. -/
def ForkSite.leavesJobControl (state : Shell World) : ForkSite → Bool
  | .subshell _ _ => false
  | .async _ _ => state.jobControl && state.options .monitor
  | .pipeline _ _ _ => state.jobControl && state.options .monitor
  | .substitution _ _ => state.jobControl

/-- Whether the place marks the child. -/
def ForkSite.marksChild : ForkSite → Bool
  | .substitution _ _ => false
  | _ => true

/-- Whether the place resets the caught traps. -/
def ForkSite.resetsTraps : ForkSite → Bool
  | .subshell _ _ => true
  | .async _ _ => false
  | .pipeline _ _ _ => false
  | .substitution program _ => !isPrintTraps program

/-- The parents whose children start as they should. -/
structure MayFork (site : ForkSite) (parent : Shell World) : Prop where
  child : parent.child = true ∨ site.marksChild = true
  jobControl : parent.jobControl = false ∨ site.leavesJobControl parent = true
  caught : site.keepsTraps = false → site.resetsTraps = false → ∀ sig < nsig, (parent.traps sig).caught = true →
    site.leavesJobControl parent = true ∧ sig < 5
  ignored : ∀ sig < nsig, (parent.traps sig).ignored = true → site.leavesJobControl parent = true → 5 ≤ sig

/-- The signals whose handlers the children change. -/
def HandlersChange (parent : Shell World) : Prop :=
  (∀ sig ∈ ignoredJobControlSigs, Accepts World sig) ∧
    ∀ sig < nsig, sig ≠ 0 → (parent.traps sig).set = true → Accepts World sig

/-- What a child has become after its set-up. -/
structure Entered (site : ForkSite) (parent started : Shell World) : Prop where
  child : started.child = (parent.child || site.marksChild)
  jobControl : started.jobControl = (parent.jobControl && !site.leavesJobControl parent)
  traps : started.jobControl = false → ∀ sig < nsig, started.traps sig =
    if site.resetsTraps = true then resetTrap (trapsOutside (site.leavesJobControl parent) parent.traps sig)
    else trapsOutside (site.leavesJobControl parent) parent.traps sig

/-! ## Resetting the traps in job control -/

instance : Std.Refl (SameMode : Shell World → Shell World → Prop) := ⟨SameMode.refl⟩

instance : IsTrans (Shell World) SameMode := ⟨fun _ _ _ first second => first.trans second⟩

/-- The program leaves job control, the options and the mark of a child alone. -/
abbrev KeepsMode (prog : Leaf World α) : Prop := Within SameMode prog

omit [System World] in
theorem LeavesSetup.keepsMode {prog : Leaf World α} (leaves : LeavesSetup prog) : KeepsMode prog :=
  fun state => (leaves state).sameMode

omit [System World] in
theorem replaceTrap_keepsMode (index : Nat) (trap : Trap) : KeepsMode (replaceTrap index trap : Leaf World Unit) := by
  refine .bind (.gets _) fun old => .bind ?_ fun _ => fun _ => ⟨rfl, rfl, rfl⟩
  cases old.program with
  | none => exact .pure _
  | some program =>
      exact .bind (.gets _) fun _ => .bind (fun _ => ⟨rfl, rfl, rfl⟩) fun _ => .assertThat _

theorem setTrap_keepsMode (sig : Nat) (action : TrapAction) (program : Option TrapProgram) :
    KeepsMode (setTrap sig action program : Leaf World Bool) := by
  have installs : ∀ action, KeepsMode (do
      replaceTrap sig { set := true, action, program }
      pure true : Leaf World Bool) := fun action => .bind (replaceTrap_keepsMode _ _) fun _ => .pure _
  refine .bind (.assertThat _) fun _ => .ite (installs action) ?_
  refine .bind (mayTrap_leavesSetup sig).keepsMode fun _ => .ite ?_ (.pure _)
  have chooses : LeavesSetup (installedAction sig action : Leaf World TrapAction) := .bind (.gets _) fun _ => .pure _
  refine .bind chooses.keepsMode fun installed => .bind (LeavesSetup.call _).keepsMode fun reply => ?_
  cases reply with
  | error errno => exact .bind (perror_talks _ _).leavesSetup.keepsMode fun _ => .pure _
  | ok _ => exact installs installed

theorem resetCaughtTraps_keepsMode : KeepsMode (resetCaughtTraps : Leaf World Bool) := by
  have loops : ∀ sigs, KeepsMode (resetCaughtTrapsLoop sigs : Leaf World Bool) := by
    intro sigs
    induction sigs with
    | nil => exact .pure _
    | cons sig sigs ih =>
        exact .bind (.gets _) fun _ => .ite (.bind (setTrap_keepsMode _ _ _) fun _ => .ite ih (.pure _)) ih
  exact loops _

/-! ## What each place establishes -/

theorem leaveJobControl_done {fuel : Nat} {state after : Shell World}
    (accepts : ∀ sig ∈ ignoredJobControlSigs, Accepts World sig)
    (ended : Leaf.run (leaveJobControl fuel) state = .done () after) :
    after.traps = trapsOutside (state.jobControl && state.options .monitor) state.traps ∧
      after.jobControl = (state.jobControl && !(state.jobControl && state.options .monitor)) ∧
      after.child = state.child := by
  unfold leaveJobControl optionSet at ended
  rw [Leaf.run_gets_bind] at ended
  cases monitor : state.options .monitor with
  | false =>
      rw [monitor, if_neg Bool.false_ne_true] at ended
      cases ended
      refine ⟨?_, by simp, rfl⟩
      funext sig
      simp [trapsOutside]
  | true =>
      rw [monitor, if_pos rfl] at ended
      obtain ⟨traps, jobControl, child, -⟩ := initJobChildProcess_done accepts ended
      rw [Bool.and_true]
      exact ⟨traps, by simp [jobControl], child⟩

omit [System World] in
theorem Shell.markChild_keeps {parent marked after : Shell World} (marks : marked = { parent with child := true })
    (keeps : KeepsSetup marked after) :
    after.traps = parent.traps ∧ after.jobControl = parent.jobControl ∧ after.options = parent.options ∧
      after.child = true := by
  subst marks
  exact ⟨keeps.traps, keeps.jobControl, keeps.options, keeps.child⟩

theorem enterSubshell_done (ctx : Context) (body : List CommandList) {parent started : Shell World}
    (accepts : HandlersChange parent)
    (ended : Leaf.run enterSubshell parent = .done () started) :
    Entered (.subshell ctx body) parent started := by
  obtain ⟨_, marked, marks, rest⟩ := Leaf.run_bind_done.mp ended
  cases marks
  obtain ⟨done, reset, resets, redirects⟩ := Leaf.run_bind_done.mp rest
  have mode : SameMode { parent with child := true } reset := Run.Respects.done resetCaughtTraps_keepsMode resets
  have keeps := redirectStdin_leavesSetup.done redirects
  have jobControl : started.jobControl = parent.jobControl := keeps.jobControl.trans mode.jobControl
  refine ⟨?_, ?_, fun outside sig known => ?_⟩
  · rw [keeps.child, mode.child]
    simp [ForkSite.marksChild]
  · rw [jobControl]
    simp [ForkSite.leavesJobControl]
  · rw [jobControl] at outside
    have accepted : ∀ sig ∈ List.range nsig, sig ≠ 0 → (parent.traps sig).set = true → Accepts World sig :=
      fun sig member => accepts.2 sig (List.mem_range.mp member)
    obtain ⟨traps, -⟩ := @resetCaughtTrapsLoop_done _ _ _ _ { parent with child := true } _ outside accepted resets
    rw [keeps.traps, traps, if_pos (show (ForkSite.subshell ctx body).resetsTraps = true from rfl)]
    simp [List.mem_range.mpr known, trapsOutside, ForkSite.leavesJobControl]

/-- The child that is marked, creates its process and leaves job control. -/
theorem leavingChild_done {fuel : Nat} {parent marked created left started : Shell World}
    (accepts : HandlersChange parent) (marks : marked = { parent with child := true })
    (creates : KeepsSetup marked created) (leaves : Leaf.run (leaveJobControl fuel) created = .done () left)
    (goesOn : KeepsSetup left started) :
    started.child = true ∧
      started.jobControl = (parent.jobControl && !(parent.jobControl && parent.options .monitor)) ∧
      started.traps = trapsOutside (parent.jobControl && parent.options .monitor) parent.traps := by
  obtain ⟨sameTraps, sameControl, sameOptions, child⟩ := Shell.markChild_keeps marks creates
  obtain ⟨traps, jobControl, leftChild⟩ := leaveJobControl_done accepts.1 leaves
  rw [sameControl, sameOptions, sameTraps] at traps
  rw [sameControl, sameOptions] at jobControl
  exact ⟨(goesOn.child.trans leftChild).trans child, goesOn.jobControl.trans jobControl, goesOn.traps.trans traps⟩

theorem enterAsync_done {fuel : Nat} {ctx : Context} (andOrList : AndOrList) {parent started : Shell World}
    (accepts : HandlersChange parent)
    (ended : Leaf.run (enterAsync fuel ctx) parent = .done () started) :
    Entered (.async ctx andOrList) parent started := by
  obtain ⟨_, marked, marks, rest⟩ := Leaf.run_bind_done.mp ended
  obtain ⟨pid, asked, asks, rest⟩ := Leaf.run_bind_done.mp rest
  obtain ⟨_, created, creates, rest⟩ := Leaf.run_bind_done.mp rest
  obtain ⟨_, left, leaves, redirects⟩ := Leaf.run_bind_done.mp rest
  have marked_eq : marked = { parent with child := true } := (Outcome.done.inj marks).2.symm
  have keeps : KeepsSetup marked created := IsTrans.trans _ _ _ ((LeavesSetup.call _).done asks)
    ((initChild_leavesSetup ctx pid true).done creates)
  obtain ⟨child, jobControl, traps⟩ := leavingChild_done accepts marked_eq keeps leaves
    (redirectStdin_leavesSetup.done redirects)
  refine ⟨?_, jobControl, fun _ sig _ => ?_⟩
  · rw [child]
    simp [ForkSite.marksChild]
  · rw [traps, if_neg (show ¬ (ForkSite.async ctx andOrList).resetsTraps = true from Bool.false_ne_true)]
    rfl

theorem preparePipelineChild_done {fuel : Nat} {ctx : Context} {fds : PipelineFds} (cmd : Command) {moved : Bool}
    {parent started : Shell World} (accepts : HandlersChange parent)
    (ended : Leaf.run (preparePipelineChild fuel ctx fds) parent = .done moved started) :
    Entered (.pipeline ctx fds cmd) parent started := by
  obtain ⟨_, marked, marks, rest⟩ := Leaf.run_bind_done.mp ended
  obtain ⟨pid, asked, asks, rest⟩ := Leaf.run_bind_done.mp rest
  obtain ⟨_, created, creates, rest⟩ := Leaf.run_bind_done.mp rest
  obtain ⟨_, left, leaves, moves⟩ := Leaf.run_bind_done.mp rest
  have marked_eq : marked = { parent with child := true } := (Outcome.done.inj marks).2.symm
  have keeps : KeepsSetup marked created := IsTrans.trans _ _ _ ((LeavesSetup.call _).done asks)
    ((initChild_leavesSetup ctx pid false).done creates)
  have movesFds : LeavesSetup (do
      if ← moveOptionalFd fds.curStdin stdinFileno "stdin".toList then
        moveOptionalFd fds.curStdout stdoutFileno "stdout".toList
      else pure false : Leaf World Bool) :=
    .bind (moveOptionalFd_leavesSetup _ _ _) fun _ => .ite (moveOptionalFd_leavesSetup _ _ _) (.pure _)
  have movesAll : KeepsSetup left started := by
    revert moves
    cases fds.nextStdin with
    | none => exact fun moves => movesFds.done moves
    | some fd => exact fun moves => (LeavesSetup.bind (.call _) fun _ => movesFds).done moves
  obtain ⟨child, jobControl, traps⟩ := leavingChild_done accepts marked_eq keeps leaves movesAll
  refine ⟨?_, jobControl, fun _ sig _ => ?_⟩
  · rw [child]
    simp [ForkSite.marksChild]
  · rw [traps, if_neg (show ¬ (ForkSite.pipeline ctx fds cmd).resetsTraps = true from Bool.false_ne_true)]
    rfl

theorem enterWordCommand_done {fuel : Nat} {program : Program} {fds : Int × Int} {parent started : Shell World}
    (accepts : HandlersChange parent) (ended : Leaf.run (enterWordCommand fuel program fds) parent = .done () started) :
    Entered (.substitution program fds) parent started := by
  obtain ⟨_, closed, closes, rest⟩ := Leaf.run_bind_done.mp ended
  obtain ⟨_, moved, moves, rest⟩ := Leaf.run_bind_done.mp rest
  obtain ⟨_, left, leaves, resets⟩ := Leaf.run_bind_done.mp rest
  have keeps : KeepsSetup parent moved := IsTrans.trans _ _ _ ((LeavesSetup.call _).done closes)
    ((moveOutput_leavesSetup _).done moves)
  obtain ⟨traps, outside, child, -⟩ := initJobChildProcess_done accepts.1 leaves
  rw [keeps.jobControl, keeps.traps] at traps
  rw [keeps.child] at child
  unfold leaveTraps at resets
  cases alone : isPrintTraps program with
  | true =>
      simp only [alone, Bool.not_true, if_neg Bool.false_ne_true] at resets
      cases resets
      refine ⟨?_, ?_, fun _ sig _ => ?_⟩
      · simp [child, ForkSite.marksChild]
      · simp [outside, ForkSite.leavesJobControl]
      · simp [traps, ForkSite.resetsTraps, alone, ForkSite.leavesJobControl]
  | false =>
      simp only [alone, Bool.not_false, if_true] at resets
      obtain ⟨done, reset, resets, returned⟩ := Leaf.run_bind_done.mp resets
      cases returned
      have accepted : ∀ sig ∈ List.range nsig, sig ≠ 0 → (left.traps sig).set = true → Accepts World sig := by
        intro sig member nonzero set
        apply accepts.2 sig (List.mem_range.mp member) nonzero
        rw [traps, trapsOutside] at set
        split at set
        · cases set
        · exact set
      obtain ⟨resetTraps, mode⟩ := resetCaughtTrapsLoop_done outside accepted resets
      refine ⟨?_, ?_, fun _ sig known => ?_⟩
      · simp [mode.child, child, ForkSite.marksChild]
      · simp [mode.jobControl, outside, ForkSite.leavesJobControl]
      · simp [resetTraps, traps, List.mem_range.mpr known, ForkSite.resetsTraps, alone, ForkSite.leavesJobControl]

theorem Entered.of_enter {site : ForkSite} {parent started : Shell World} (accepts : HandlersChange parent) {fuel : Nat}
    (ended : Leaf.run (site.enter fuel) parent = .done true started) : Entered site parent started := by
  cases site with
  | subshell ctx body =>
      obtain ⟨_, last, entered, returned⟩ := Leaf.run_bind_done.mp ended
      cases returned
      exact enterSubshell_done ctx body accepts entered
  | async ctx andOrList =>
      obtain ⟨_, last, entered, returned⟩ := Leaf.run_bind_done.mp ended
      cases returned
      exact enterAsync_done andOrList accepts entered
  | pipeline ctx fds cmd => exact preparePipelineChild_done cmd accepts ended
  | substitution program fds =>
      obtain ⟨_, last, entered, returned⟩ := Leaf.run_bind_done.mp ended
      cases returned
      exact enterWordCommand_done accepts entered

theorem Trap.caught_iff {trap : Trap} : trap.caught = true ↔ trap.set = true ∧ trap.action = .catch := by
  rw [Trap.caught, Bool.and_eq_true, beq_iff_eq]

theorem Trap.ignored_iff {trap : Trap} : trap.ignored = true ↔ trap.set = true ∧ trap.action = .ignore := by
  rw [Trap.ignored, Bool.and_eq_true, beq_iff_eq]

theorem resetTrap_caught {trap : Trap} (caught : trap.caught = true) : resetTrap trap = defaultTrap := by
  obtain ⟨set, action⟩ := Trap.caught_iff.mp caught
  simp [resetTrap, set, action]

theorem resetTrap_ignored {trap : Trap} (ignored : trap.ignored = true) : resetTrap trap = trap := by
  obtain ⟨set, action⟩ := Trap.ignored_iff.mp ignored
  simp [resetTrap, set, action]

theorem trapsOutside_cleared {leaves : Bool} {traps : Nat → Trap} {sig : Nat} (left : leaves = true) (low : sig < 5) :
    trapsOutside leaves traps sig = unsetTrap := if_pos ⟨left, low⟩

theorem trapsOutside_kept {leaves : Bool} {traps : Nat → Trap} {sig : Nat} (kept : ¬ (leaves = true ∧ sig < 5)) :
    trapsOutside leaves traps sig = traps sig := if_neg kept

omit [System World] in
/-- A caught trap is gone after the set-up unless the place neither resets nor clears it. -/
theorem Entered.caught_iff {site : ForkSite} {parent started : Shell World} (entered : Entered site parent started)
    (outside : started.jobControl = false) {sig : Nat} (known : sig < nsig)
    (caught : (parent.traps sig).caught = true) :
    ((started.traps sig).action = .default ∧ (started.traps sig).program = none) ↔
      (site.resetsTraps = false → site.leavesJobControl parent = true ∧ sig < 5) := by
  rw [entered.traps outside sig known]
  by_cases cleared : site.leavesJobControl parent = true ∧ sig < 5
  · rw [trapsOutside_cleared cleared.1 cleared.2]
    refine ⟨fun _ _ => cleared, fun _ => ?_⟩
    split <;> exact ⟨rfl, rfl⟩
  · rw [trapsOutside_kept cleared]
    cases resets : site.resetsTraps with
    | true =>
        rw [if_pos rfl, resetTrap_caught caught]
        exact ⟨fun _ never => absurd never (by decide), fun _ => ⟨rfl, rfl⟩⟩
    | false =>
        rw [if_neg Bool.false_ne_true, (Trap.caught_iff.mp caught).2]
        exact ⟨fun default => absurd default.1 (by decide), fun clears => absurd (clears rfl) cleared⟩

omit [System World] in
/-- An ignored trap is left ignored unless it is cleared with the job-control signals. -/
theorem Entered.ignored_iff {site : ForkSite} {parent started : Shell World} (entered : Entered site parent started)
    (outside : started.jobControl = false) {sig : Nat} (known : sig < nsig)
    (ignored : (parent.traps sig).ignored = true) :
    (started.traps sig).ignored = true ↔ (site.leavesJobControl parent = true → 5 ≤ sig) := by
  rw [entered.traps outside sig known]
  by_cases cleared : site.leavesJobControl parent = true ∧ sig < 5
  · rw [trapsOutside_cleared cleared.1 cleared.2]
    have unset : (resetTrap unsetTrap).ignored = false ∧ unsetTrap.ignored = false := by decide
    constructor
    · intro still
      split at still
      · exact absurd (unset.1.symm.trans still) (by decide)
      · exact absurd (unset.2.symm.trans still) (by decide)
    · intro high
      have := high cleared.1
      omega
  · rw [trapsOutside_kept cleared, resetTrap_ignored ignored, ite_self]
    refine ⟨fun _ left => ?_, fun _ => ignored⟩
    by_contra low
    exact cleared ⟨left, by omega⟩

/-- A child whose set-up succeeds runs its shell code in the state that the set-up leaves.
That state is a clean one exactly when the parent may fork at this place. -/
theorem childSetup_iff (self : Tasks World) (site : ForkSite) (parent started : Shell World)
    (accepts : HandlersChange parent) (ended : Leaf.run (site.enter self.fuel) parent = .done true started) :
    Exec.run (site.child self) parent = Exec.run (site.shellCode self) started ∧
      (StartsClean site parent started ↔ MayFork site parent) := by
  refine ⟨ForkSite.child_starts ended, ?_⟩
  have entered := Entered.of_enter accepts ended
  have mode : started.jobControl = false ↔ parent.jobControl = false ∨ site.leavesJobControl parent = true := by
    rw [entered.jobControl]
    cases parent.jobControl <;> cases site.leavesJobControl parent <;> decide
  have marked : started.child = true ↔ parent.child = true ∨ site.marksChild = true := by
    rw [entered.child, Bool.or_eq_true]
  constructor
  · intro clean
    have outside := clean.jobControl
    refine ⟨marked.mp clean.child, mode.mp outside, ?_, ?_⟩
    · intro kept unreset sig known caught
      exact (entered.caught_iff outside known caught).mp (clean.caught kept sig known caught) unreset
    · intro sig known ignored
      exact (entered.ignored_iff outside known ignored).mp (clean.ignored sig known ignored)
  · intro may
    have outside := mode.mpr may.jobControl
    refine ⟨marked.mpr may.child, outside, ?_, ?_⟩
    · intro kept sig known caught
      exact (entered.caught_iff outside known caught).mpr fun unreset => may.caught kept unreset sig known caught
    · intro sig known ignored
      exact (entered.ignored_iff outside known ignored).mpr (may.ignored sig known ignored)

end

theorem machine_accepts (sig : Nat) : Accepts Machine sig := fun _ machine => ⟨machine, rfl⟩

theorem machine_handlersChange (parent : Shell Machine) : HandlersChange parent :=
  ⟨fun sig _ => machine_accepts sig, fun sig _ _ _ => machine_accepts sig⟩

/-- A shell that catches `SIGTERM` with the program of address 1. -/
def catchingShell : Shell Machine :=
  { monitoringShell with
    traps := fun sig => if sig = 15 then { set := true, action := .catch, program := some ⟨1, ⟨[]⟩⟩ }
      else unsetTrap }

theorem childSetup_subshell :
    ∃ started, Exec.run (ForkSite.child (tasks 1) (.subshell .initial [])) catchingShell =
        Exec.run (ForkSite.shellCode (tasks 1) (.subshell .initial [])) started ∧
      StartsClean (.subshell .initial []) catchingShell started := by
  have entered : Leaf.run (ForkSite.enter (tasks 1 : Tasks Machine).fuel (.subshell .initial [])) catchingShell =
      .done true _ := Outcome.eq_done_of_value? (by decide +kernel)
  obtain ⟨runs, clean⟩ := childSetup_iff (tasks 1) (.subshell .initial []) catchingShell _
    (machine_handlersChange catchingShell) entered
  refine ⟨_, runs, clean.mpr ⟨.inr rfl, .inl rfl, fun _ resets => absurd resets (by decide), ?_⟩⟩
  intro sig known ignored left
  cases left

/-- The element of a pipeline goes on with the caught trap of its parent. -/
theorem pipelineElement_keepsTrap :
    ¬ ∀ (self : Tasks Machine) (site : ForkSite) (parent started : Shell Machine),
      HandlersChange parent → Leaf.run (site.enter self.fuel) parent = .done true started →
      StartsClean site parent started := by
  intro always
  have clean := always (tasks 1)
    (.pipeline .initial ⟨none, none, none⟩ (.braceGroup ⟨[], .invalid, .invalid⟩))
    { catchingShell with options := fun _ => false } _ (machine_handlersChange _)
    (Outcome.eq_done_of_value? (by decide +kernel))
  have reset := (clean.caught rfl 15 (by decide) (by decide)).1
  revert reset
  decide +kernel

end Mrsh

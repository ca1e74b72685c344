import Mrsh.Shell.Breaking
import Mrsh.Shell.ChildSetup
import Mrsh.Shell.JobFootprint
import Mrsh.Shell.Kernel

namespace Mrsh

open Mrsh.Data

/-! # The standard input of a subshell

Both the child of an asynchronous list and that of a subshell read `/dev/null`
without the `monitor` option. A brace group reads what the shell reads.
-/

/-- The call leaves the descriptors alone. -/
def KeepsFiles {World δ α : Type} (table : World → Descriptors δ) (request : World → α × World) : Prop :=
  ∀ world, table (request world).2 = table world

/-- What the calls do to the table of descriptors, where `null` is the file `/dev/null`. -/
structure InputLaws (World δ : Type) [System World] (table : World → Descriptors δ) (null : δ) : Prop where
  openNull : ∀ fd world after, System.openFile "/dev/null".toList .readOnly world = (.ok fd, after) →
    table world fd = none ∧ table after = Function.update (table world) fd (some null)
  dup2 : ∀ source target world, table world source ≠ none → 0 ≤ target →
    table (System.dup2 source target world).2 = Function.update (table world) target (table world source)
  close : ∀ fd (world : World), table (System.close fd world).2 = Function.update (table world) fd none
  fork : KeepsFiles table System.fork
  getpid : KeepsFiles table System.getpid
  getpgrp : KeepsFiles table System.getpgrp
  getsid : KeepsFiles table System.getsid
  tcgetpgrp : KeepsFiles table System.tcgetpgrp
  setpgid : ∀ pid pgid, KeepsFiles table (System.setpgid pid pgid)
  tcsetpgrp : ∀ pgid, KeepsFiles table (System.tcsetpgrp pgid)
  tcgetattr : KeepsFiles table System.tcgetattr
  tcsetattr : ∀ modes, KeepsFiles table (System.tcsetattr modes)
  kill : ∀ pid sig, KeepsFiles table (System.kill pid sig)
  getHandler : ∀ sig, KeepsFiles table (System.getHandler sig)
  sigaction : ∀ sig handler, KeepsFiles table (System.sigaction sig handler)
  printErr : ∀ text, KeepsFiles table (System.printErr text)

section

variable {World δ α : Type} [System World] {table : World → Descriptors δ} {null : δ}

/-- The same descriptors and options. -/
def SameFiles (table : World → Descriptors δ) (before after : Shell World) : Prop :=
  table after.world = table before.world ∧ after.options = before.options

instance : Std.Refl (SameFiles table : Shell World → Shell World → Prop) := ⟨fun _ => ⟨rfl, rfl⟩⟩

instance : IsTrans (Shell World) (SameFiles table) :=
  ⟨fun _ _ _ first second => ⟨second.1.trans first.1, second.2.trans first.2⟩⟩

omit [System World] in
theorem KeepsFiles.allows {request : World → α × World} (keeps : KeepsFiles table request) :
    AllowsCall (SameFiles table) request := fun state => ⟨keeps state.world, rfl⟩

variable (laws : InputLaws World δ table null)

include laws

theorem InputLaws.allows : AllowsJobControl (SameFiles table : Shell World → Shell World → Prop) where
  jobs _ _ _ _ := ⟨rfl, rfl⟩
  serial _ := ⟨rfl, rfl⟩
  printErr text := (laws.printErr text).allows
  setpgid pid pgid := (laws.setpgid pid pgid).allows
  tcsetpgrp pgid := (laws.tcsetpgrp pgid).allows
  tcgetattr := laws.tcgetattr.allows
  tcsetattr modes := (laws.tcsetattr modes).allows
  kill pid sig := (laws.kill pid sig).allows
  traps _ _ _ := ⟨rfl, rfl⟩
  control _ _ _ _ := ⟨rfl, rfl⟩
  sigaction sig handler := (laws.sigaction sig handler).allows
  getpid := laws.getpid.allows
  getpgrp := laws.getpgrp.allows
  getsid := laws.getsid.allows
  tcgetpgrp := laws.tcgetpgrp.allows

/-! ## The traps -/

theorem mayTrap_sameFiles (sig : Nat) : Within (SameFiles table) (mayTrap sig : Leaf World Bool) := by
  refine .bind (.gets _) fun trap => .bind (.gets _) fun interactive => .ite ?_ (.pure _)
  refine .bind (.call (laws.getHandler sig).allows) fun handler => ?_
  rcases handler with errno | default | ignore | caught
  · exact .bind (laws.allows.perror _ _) fun _ => .pure _
  · exact .pure _
  · exact .bind (.call (laws.printErr _).allows) fun _ => .pure _
  · exact .pure _

theorem setTrap_sameFiles (sig : Nat) (action : TrapAction) (program : Option TrapProgram) :
    Within (SameFiles table) (setTrap sig action program : Leaf World Bool) := by
  refine .bind (.assertThat _) fun _ => .ite (.bind (laws.allows.replaceTrap _ _) fun _ => .pure _) ?_
  refine .bind (mayTrap_sameFiles laws sig) fun allowed => .ite ?_ (.pure _)
  refine .bind (.bind (.gets _) fun _ => .pure _) fun installed =>
    .bind (.call (laws.sigaction _ _).allows) fun reply => ?_
  cases reply with
  | error errno => exact .bind (laws.allows.perror _ _) fun _ => .pure _
  | ok _ => exact .bind (laws.allows.replaceTrap _ _) fun _ => .pure _

theorem resetCaughtTraps_sameFiles : Within (SameFiles table) (resetCaughtTraps : Leaf World Bool) := by
  unfold resetCaughtTraps
  induction List.range nsig with
  | nil => exact .pure _
  | cons sig sigs ih =>
      refine .bind (.gets _) fun trap => .ite ?_ ih
      exact .bind (setTrap_sameFiles laws sig .default none) fun _ => .ite ih (.pure _)

/-! ## The input of a child -/

/-- What the child of a subshell or of an asynchronous list reads. -/
def childInput (table : World → Descriptors δ) (null : δ) (state : Shell World) : Option δ :=
  if state.options .monitor then table state.world 0 else some null

theorem redirectStdin_input {state after : Shell World} (redirected : Leaf.run redirectStdin state = .done () after) :
    table after.world 0 = childInput table null state := by
  rw [redirectStdin, Leaf.run_bind, optionSet, Leaf.run_gets, Outcome.andThen_done, Leaf.run_ite] at redirected
  rw [childInput]
  split at redirected
  · rename_i monitor
    cases redirected
    rw [if_pos monitor]
  · rename_i noMonitor
    rw [if_neg noMonitor]
    rw [Leaf.run_call_bind] at redirected
    rcases opened : System.openFile "/dev/null".toList .readOnly state.world with ⟨errno | fd, world⟩
    · rw [opened] at redirected
      cases redirected
    · obtain ⟨-, openTable⟩ := laws.openNull fd state.world world opened
      rw [opened] at redirected
      dsimp only at redirected
      rw [Leaf.run_ite] at redirected
      split at redirected
      · rename_i isInput
        cases redirected
        have isZero : fd = 0 := by simpa [stdinFileno] using isInput
        rw [openTable, isZero, Function.update_self]
      · rename_i notInput
        cases redirected
        have notZero : (0 : Int) ≠ fd := fun same => notInput (by simp [stdinFileno, ← same])
        have isOpen : table world fd = some null := by rw [openTable, Function.update_self]
        show table (System.close fd (System.dup2 fd stdinFileno world).2).2 0 = some null
        rw [laws.close, Function.update_of_ne notZero, laws.dup2 fd stdinFileno world (by simp [isOpen]) (by decide),
          stdinFileno, Function.update_self, isOpen]

theorem enterSubshell_input {state after : Shell World} (entered : Leaf.run enterSubshell state = .done () after) :
    table after.world 0 = childInput table null state := by
  obtain ⟨_, marked, mark, entered⟩ := Leaf.run_bind_done.mp entered
  obtain ⟨_, reset, resets, redirected⟩ := Leaf.run_bind_done.mp entered
  have first : SameFiles table state marked := (Within.update fun _ => ⟨rfl, rfl⟩).done mark
  have same : SameFiles table state reset :=
    IsTrans.trans _ _ _ first ((resetCaughtTraps_sameFiles laws).done resets)
  rw [redirectStdin_input laws redirected, childInput, childInput, same.1, same.2]

theorem enterAsync_input {fuel : Nat} {ctx : Context} {state after : Shell World}
    (entered : Leaf.run (enterAsync fuel ctx) state = .done () after) :
    table after.world 0 = childInput table null state := by
  obtain ⟨_, marked, mark, entered⟩ := Leaf.run_bind_done.mp entered
  obtain ⟨pid, numbered, asked, entered⟩ := Leaf.run_bind_done.mp entered
  obtain ⟨proc, added, adds, entered⟩ := Leaf.run_bind_done.mp entered
  obtain ⟨_, left, leaves, redirected⟩ := Leaf.run_bind_done.mp entered
  have first : SameFiles table state marked := (Within.update fun _ => ⟨rfl, rfl⟩).done mark
  have second : SameFiles table marked numbered := (Within.call laws.getpid.allows).done asked
  have third : SameFiles table numbered added := (laws.allows.initChild _ _ _).done adds
  have fourth : SameFiles table added left := (laws.allows.leaveJobControl _).done leaves
  have same : SameFiles table state left :=
    IsTrans.trans _ _ _ (IsTrans.trans _ _ _ first second) (IsTrans.trans _ _ _ third fourth)
  rw [redirectStdin_input laws redirected, childInput, childInput, same.1, same.2]

omit laws

/-! ## Where a body starts -/

/-- The shell runs the command, and the body starts in this state. -/
inductive BodyBegins (state : Shell World) : Command → List CommandList → Shell World → Prop where
  | braceGroup (bg : BraceGroup) : BodyBegins state (.braceGroup bg) bg.body state
  | subshell (s : Subshell) {child started : Shell World}
      (forked : Leaf.run (call System.fork) state = .done (.ok 0) child)
      (entered : Leaf.run enterSubshell child = .done () started) : BodyBegins state (.subshell s) s.body started

include laws

theorem BodyBegins.subshell_input {s : Subshell} {body : List CommandList} {state started : Shell World}
    (begins : BodyBegins state (.subshell s) body started) : table started.world 0 = childInput table null state := by
  cases begins with
  | @subshell _ child _ forked entered =>
      have same : SameFiles table state child := (Within.call laws.fork.allows).done forked
      rw [enterSubshell_input laws entered, childInput, childInput, same.1, same.2]

/-- A subshell reads what the shell reads, and what a brace group in its place
would read, exactly with the `monitor` option, unless the shell reads `/dev/null`
itself. An asynchronous list reads `/dev/null` exactly without the option. -/
theorem subshell_readsInput_iff {s : Subshell} {body : List CommandList} {state started : Shell World}
    (begins : BodyBegins state (.subshell s) body started) :
    ((table started.world 0 = table state.world 0 ∧
        ∀ bg groupBody groupStarted, BodyBegins state (.braceGroup bg) groupBody groupStarted →
          table started.world 0 = table groupStarted.world 0) ↔
      state.options .monitor = true ∨ table state.world 0 = some null) ∧
    ∀ fuel ctx child async, Leaf.run (enterAsync fuel ctx) (child : Shell World) = .done () async →
      table async.world 0 = if child.options .monitor then table child.world 0 else some null := by
  have reads := begins.subshell_input laws
  rw [childInput] at reads
  refine ⟨⟨?_, fun known => ?_⟩, fun _ _ _ _ entered => enterAsync_input laws entered⟩
  · rintro ⟨sameInput, -⟩
    cases monitor : state.options .monitor with
    | true => exact .inl rfl
    | false =>
        rw [monitor, if_neg Bool.false_ne_true] at reads
        exact .inr (sameInput.symm.trans reads)
  · have sameInput : table started.world 0 = table state.world 0 := by
      rcases known with monitor | isNull
      · rw [reads, if_pos monitor]
      · rw [reads, isNull, ite_self]
    refine ⟨sameInput, fun bg groupBody groupStarted group => ?_⟩
    cases group
    exact sameInput

end

/-! ## An element of a pipeline -/

theorem kernel_inputLaws : InputLaws Kernel Str Kernel.descriptors "/dev/null".toList where
  openNull := by
    intro fd world after opened
    cases opened
    exact ⟨world.lowestFree_isLowestFree.2.1, rfl⟩
  dup2 := by
    intro source target world isOpen natural
    cases found : world.descriptors source with
    | none => exact absurd found isOpen
    | some file =>
        have moved : world.dup2 source target =
            (.ok (), (world.noting (.moved source target file)).set target (some file) false) := by
          rw [Kernel.dup2]
          simp only [found]
          rw [if_neg (by omega)]
        show (world.dup2 source target).2.descriptors = _
        rw [moved]
        rfl
  close _ _ := rfl
  fork _ := rfl
  getpid _ := rfl
  getpgrp _ := rfl
  getsid _ := rfl
  tcgetpgrp _ := rfl
  setpgid _ _ _ := rfl
  tcsetpgrp _ _ := rfl
  tcgetattr _ := rfl
  tcsetattr _ _ := rfl
  kill _ _ _ := rfl
  getHandler _ _ := rfl
  sigaction _ _ _ := rfl
  printErr _ _ := rfl

/-- The shell of an element that reads from a pipe, and that goes on as a child. -/
def pipelineElement (monitor : Bool) : Shell Kernel :=
  let state := mrshStateCreate [] ((standardKernel true).set 0 (some "pipe".toList) false)
  { state with options := fun option => option == .monitor && monitor }

def catBody : List CommandList := [listOf (.simpleCommand (literalCommand "cat".toList []))]

/-- With the `monitor` option `( cat )` reads from the pipe. -/
theorem subshell_readsInput_monitor :
    ∃ started, BodyBegins (pipelineElement true) (.subshell ⟨catBody, .invalid, .invalid⟩) catBody started ∧
      started.world.descriptors 0 = some "pipe".toList := by
  have begins : BodyBegins (pipelineElement true) (.subshell ⟨catBody, .invalid, .invalid⟩) catBody _ :=
    .subshell _ rfl rfl
  exact ⟨_, begins, ((subshell_readsInput_iff kernel_inputLaws begins).1.mpr (.inl rfl)).1⟩

/-- Without it `( cat )` reads `/dev/null`, and `{ cat; }` reads from the pipe. -/
theorem subshell_readsNull :
    ∃ started, BodyBegins (pipelineElement false) (.subshell ⟨catBody, .invalid, .invalid⟩) catBody started ∧
      started.world.descriptors 0 = some "/dev/null".toList ∧
      BodyBegins (pipelineElement false) (.braceGroup ⟨catBody, .invalid, .invalid⟩) catBody (pipelineElement false) ∧
      (pipelineElement false).world.descriptors 0 = some "pipe".toList :=
  ⟨_, .subshell _ rfl rfl, rfl, .braceGroup _, rfl⟩

end Mrsh

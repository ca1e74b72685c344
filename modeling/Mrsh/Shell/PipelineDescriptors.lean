import Mrsh.Data.Pipes
import Mrsh.Shell.JobFootprint
import Mrsh.Shell.SystemPart
import Mrsh.Shell.Task.Task

namespace Mrsh

open Mrsh.Data

/-! # The descriptors of a pipeline

`run_pipeline` keeps the descriptors of its pipes in three variables. Here its loop has the
variables as the source has them, -1 where there is no descriptor, and the assertions on
them. Each command starts with the ends of the pipes to its neighbours as its standard input
and output, and the parent waits with the descriptors that it had at first.
-/

section

variable {World : Type} [System World]

/-! ## The loop and its variables -/

/-- What a process does after the loop. -/
inductive Started where
  /-- A child runs the command with the index. -/
  | runs (i : Nat) (cmd : Command)
  | waits (procs : List Nat)
  | ends (ret : Int)
  /-- An assertion on the variables has failed. -/
  | asserts

def Started.after (proc : Nat) : Started → Started
  | .waits procs => .waits (proc :: procs)
  | started => started

/-- The pipe of a command that is not the last one gives new values to `next_stdin` and `cur_stdout`. -/
def openPipe (last : Bool) (nextStdin curStdout : Int) : Leaf World (Except Started (Int × Int)) := do
  if last then pure (.ok (nextStdin, curStdout))
  else
    match ← call System.pipe with
    | .error errno => do
        perror "pipe".toList errno
        pure (.error (.ends taskStatusError))
    | .ok fds =>
        if nextStdin == -1 && curStdout == -1 then pure (.ok fds) else pure (.error .asserts)

def closeOpen (fd : Int) : Leaf World Unit := do
  if 0 ≤ fd then call (System.close fd)

/-- The child up to the call of `run_command`. -/
def startChild (fuel : Nat) (ctx : Context) (i : Nat) (last : Bool) (nextStdin curStdin curStdout : Int)
    (cmd : Command) :
    Leaf World Started := do
  update fun core => { core with child := true }
  let pid ← call System.getpid
  let _ ← initChild ctx pid false
  leaveJobControl fuel
  closeOpen nextStdin
  if ← (if 0 < i then moveFd curStdin stdinFileno "stdin".toList else pure true) then
    if ← (if !last then moveFd curStdout stdoutFileno "stdout".toList else pure true) then pure (.runs i cmd)
    else pure (.ends 0)
  else pure (.ends 0)

def startLoop (fuel : Nat) (ctx : Context) (i : Nat) (nextStdin curStdin curStdout : Int) :
    List Command → Leaf World Started
  | [] => pure (if nextStdin == -1 && curStdout == -1 && curStdin == -1 then .waits [] else .asserts)
  | cmd :: cmds => do
      match ← openPipe cmds.isEmpty nextStdin curStdout with
      | .error ended => pure ended
      | .ok (nextStdin, curStdout) =>
          match ← call System.fork with
          | .error _ => pure (.ends taskStatusError)
          | .ok pid =>
              if pid == 0 then startChild fuel ctx i cmds.isEmpty nextStdin curStdin curStdout cmd
              else do
                let proc ← initChild ctx pid false
                closeOpen curStdin
                closeOpen curStdout
                let started ← startLoop fuel ctx (i + 1) (-1) nextStdin (if 0 ≤ curStdout then -1 else curStdout) cmds
                pure (started.after proc)

/-- `run_pipeline` up to the call of `run_command` in a child, or to the waiting loop in the parent. -/
def startPipeline (fuel : Nat) (ctx : Context) (pl : Pipeline) : Leaf World (Context × Started) := do
  let ctx ← withJob ctx (.andOrList (.pipeline pl))
  let started ← startLoop fuel ctx 0 (-1) (-1) (-1) pl.commands
  pure (ctx, started)

/-- How the process goes on. -/
def Started.resume (self : Tasks World) (ctx : Context) (bang : Bool) : Started → Exec World Int
  | .runs _ cmd => do
      let ret ← self.runCommand ctx cmd
      leaf (exitProcess (if ret < 0 then 127 else ret))
  | .waits procs => do
      let ret ← leaf (waitProcesses self.fuel procs 0)
      pure (negate bang ret)
  | .ends ret => pure ret
  | .asserts => leaf abort

end

/-! ## The calls of the system -/

section

variable {World δ α : Type} [System World]

/-- The call leaves the descriptors and the number of pipes alone. -/
def KeepsPipes (table : World → Descriptors (OpenFile δ)) (pipes : World → Nat) (request : World → α × World) : Prop :=
  ∀ world, table (request world).2 = table world ∧ pipes (request world).2 = pipes world

/-- What the calls do to the table of descriptors, where `pipes` counts the pipes that were made. A pipe takes the
two lowest free numbers, the lower one for its input. -/
structure PipelineLaws (World δ : Type) [System World] (table : World → Descriptors (OpenFile δ))
    (pipes : World → Nat) : Prop where
  pipe : ∀ input output world after, System.pipe world = (.ok (input, output), after) →
    IsLowestFree (table world) input ∧
      IsLowestFree (Function.update (table world) input (some (.input (pipes world)))) output ∧
      table after = Function.update (Function.update (table world) input (some (.input (pipes world)))) output
        (some (.output (pipes world))) ∧
      pipes after = pipes world + 1
  dup2 : ∀ source target world reply after, System.dup2 source target world = (.ok reply, after) →
    table after = Function.update (table world) target (table world source) ∧ pipes after = pipes world
  close : ∀ fd (world : World), table (System.close fd world).2 = Function.update (table world) fd none ∧
    pipes (System.close fd world).2 = pipes world
  fork : KeepsPipes table pipes System.fork
  getpid : KeepsPipes table pipes System.getpid
  getpgrp : KeepsPipes table pipes System.getpgrp
  getsid : KeepsPipes table pipes System.getsid
  tcgetpgrp : KeepsPipes table pipes System.tcgetpgrp
  setpgid : ∀ pid pgid, KeepsPipes table pipes (System.setpgid pid pgid)
  tcsetpgrp : ∀ pgid, KeepsPipes table pipes (System.tcsetpgrp pgid)
  tcgetattr : KeepsPipes table pipes System.tcgetattr
  tcsetattr : ∀ modes, KeepsPipes table pipes (System.tcsetattr modes)
  kill : ∀ pid sig, KeepsPipes table pipes (System.kill pid sig)
  sigaction : ∀ sig handler, KeepsPipes table pipes (System.sigaction sig handler)
  printErr : ∀ text, KeepsPipes table pipes (System.printErr text)

variable {table : World → Descriptors (OpenFile δ)} {pipes : World → Nat}

/-- An end of a pipe, unless it is missing. -/
def endUnless (missing : Bool) (file : OpenFile δ) : Option (OpenFile δ) := if missing then none else some file

/-- The pipe that command `i` reads from, of the pipes that are made from the first one on. -/
def inputOf (first i : Nat) : Option (OpenFile δ) := endUnless (i == 0) (.input (first + i - 1))

/-- The pipe that command `i` writes to. -/
def outputOf (first i : Nat) (last : Bool) : Option (OpenFile δ) := endUnless last (.output (first + i))

/-! ## What each part of the loop does -/

/-- The table of descriptors and the number of pipes are these. -/
def HoldsTable (table : World → Descriptors (OpenFile δ)) (pipes : World → Nat) (held : Descriptors (OpenFile δ))
    (count : Nat)
    (state : Shell World) : Prop := table state.world = held ∧ pipes state.world = count

/-- Whatever stops the program, if it ends it has the postcondition. -/
abbrev LeadsTo (before : Shell World → Prop) (prog : Leaf World α) (after : α → Shell World → Prop) : Prop :=
  Prog.Meets handleLeaf before prog after fun _ => True

def SamePipes (table : World → Descriptors (OpenFile δ)) (pipes : World → Nat) (before after : Shell World) : Prop :=
  table after.world = table before.world ∧ pipes after.world = pipes before.world

instance : Std.Refl (SamePipes table pipes : Shell World → Shell World → Prop) := ⟨fun _ => ⟨rfl, rfl⟩⟩

instance : IsTrans (Shell World) (SamePipes table pipes) :=
  ⟨fun _ _ _ first second => ⟨second.1.trans first.1, second.2.trans first.2⟩⟩

variable {held base : Descriptors (OpenFile δ)} {count : Nat}

omit [System World] in
theorem leadsTo_true {before : Shell World → Prop} (prog : Leaf World α) : LeadsTo before prog fun _ _ => True :=
  .of_state fun _ _ => trivial

omit [System World] in
theorem leadsTo_and {fact : Prop} {before : Shell World → Prop} {prog : Leaf World α} {after : α → Shell World → Prop}
    (leadsTo : fact → LeadsTo before prog after) : LeadsTo (fun state => fact ∧ before state) prog after :=
  fun state holds => leadsTo holds.1 state holds.2

omit [System World] in
theorem samePipes_leadsTo {prog : Leaf World α} (within : Within (SamePipes table pipes) prog) :
    LeadsTo (HoldsTable table pipes held count) prog fun _ => HoldsTable table pipes held count :=
  .frame within (fun _ _ same holds => ⟨same.1.trans holds.1, same.2.trans holds.2⟩) fun _ _ => trivial

variable (laws : PipelineLaws World δ table pipes)

include laws

theorem PipelineLaws.allows : AllowsJobControl (SamePipes table pipes : Shell World → Shell World → Prop) where
  jobs _ _ _ _ := ⟨rfl, rfl⟩
  serial _ := ⟨rfl, rfl⟩
  printErr text state := laws.printErr text state.world
  setpgid pid pgid state := laws.setpgid pid pgid state.world
  tcsetpgrp pgid state := laws.tcsetpgrp pgid state.world
  tcgetattr state := laws.tcgetattr state.world
  tcsetattr modes state := laws.tcsetattr modes state.world
  kill pid sig state := laws.kill pid sig state.world
  traps _ _ _ := ⟨rfl, rfl⟩
  control _ _ _ _ := ⟨rfl, rfl⟩
  sigaction sig handler state := laws.sigaction sig handler state.world
  getpid state := laws.getpid state.world
  getpgrp state := laws.getpgrp state.world
  getsid state := laws.getsid state.world
  tcgetpgrp state := laws.tcgetpgrp state.world

theorem close_leadsTo (fd : Int) : LeadsTo (HoldsTable table pipes held count) (call (System.close fd))
    fun _ => HoldsTable table pipes (Function.update held fd none) count := by
  rintro state ⟨same, counted⟩
  obtain ⟨closed, kept⟩ := laws.close fd state.world
  exact ⟨by rw [← same]; exact closed, kept.trans counted⟩

theorem closeOpen_leadsTo {fd : Int} {file : Option (OpenFile δ)} (isEnd : IsEnd held fd file) :
    LeadsTo (HoldsTable table pipes (attach held fd file) count) (closeOpen fd)
    fun _ => HoldsTable table pipes held count := by
  have closes := isEnd.close
  refine .ite (fun isOpen => ?_) fun closed => ?_
  · rw [if_pos isOpen] at closes
    have closed : LeadsTo (HoldsTable table pipes (attach held fd file) count) (call (System.close fd))
        fun _ => HoldsTable table pipes (Function.update (attach held fd file) fd none) count := close_leadsTo laws fd
    rw [closes] at closed
    exact closed
  · rw [if_neg closed] at closes
    rw [closes]
    exact .pure fun _ holds => holds

theorem dup2_leadsTo (source target : Int) :
    LeadsTo (HoldsTable table pipes held count) (call (System.dup2 source target)) fun reply state =>
      ∀ done, reply = .ok done → HoldsTable table pipes (Function.update held target (held source)) count state := by
  rintro state ⟨same, counted⟩ done ended
  obtain ⟨moved, kept⟩ := laws.dup2 source target state.world done _ (Prod.ext ended rfl)
  exact ⟨by rw [← same]; exact moved, kept.trans counted⟩

theorem moveFd_leadsTo (fd target : Int) (name : Str) :
    LeadsTo (HoldsTable table pipes held count) (moveFd fd target name)
      fun moved state => moved = true → HoldsTable table pipes (move held fd target) count state := by
  refine .ite (fun same => ?_) fun different => .bind (dup2_leadsTo laws fd target) fun reply => ?_
  · rw [move, if_pos (beq_iff_eq.mp same)]
    exact .pure fun _ holds _ => holds
  · rw [move, if_neg fun same => different (beq_iff_eq.mpr same)]
    cases reply with
    | error errno =>
        refine .bind (leadsTo_true _) fun _ => .bind (leadsTo_true _) fun _ => ?_
        exact .pure fun _ _ moved => nomatch moved
    | ok done =>
        refine .bind (.strengthen (close_leadsTo laws fd) fun _ holds => holds done rfl) fun _ => ?_
        exact .pure fun _ holds _ => holds

theorem moveEnd_leadsTo {moves : Prop} [Decidable moves] {fd target : Int} {name : Str} {file : Option (OpenFile δ)}
    (isEnd : IsEnd held fd file) (has : moves ↔ file.isSome) :
    LeadsTo (HoldsTable table pipes (attach held fd file) count) (if moves then moveFd fd target name else pure true)
      fun moved state => moved = true → HoldsTable table pipes (attach held target file) count state := by
  cases file with
  | none =>
      rw [if_neg fun moves => nomatch has.mp moves]
      exact .pure fun _ holds _ => holds
  | some file =>
      have moved : move (attach held fd (some file)) fd target = attach held target (some file) :=
        move_attach isEnd.2 rfl
      rw [if_pos (has.mpr rfl), ← moved]
      exact moveFd_leadsTo laws fd target name

/-- The ends of a new pipe, unless the command is the last one. -/
structure OpenedPipe (held : Descriptors (OpenFile δ)) (nextStdin curStdout : Int)
    (input output : Option (OpenFile δ)) : Prop where
  inputEnd : IsEnd held nextStdin input
  outputEnd : IsEnd (attach held nextStdin input) curStdout output
  positive : output.isSome → 0 < curStdout

theorem pipe_leadsTo :
    LeadsTo (HoldsTable table pipes held count) (call System.pipe) fun reply state =>
      ∀ fds, reply = .ok fds → OpenedPipe held fds.1 fds.2 (some (.input count)) (some (.output count)) ∧
        HoldsTable table pipes (attach (attach held fds.1 (some (.input count))) fds.2 (some (.output count)))
        (count + 1)
          state := by
  rintro state ⟨rfl, rfl⟩ ⟨input, output⟩ piped
  obtain ⟨lowest, second, opened, counted⟩ := laws.pipe input output state.world _ (Prod.ext piped rfl)
  have higher : input < output := by
    by_contra lower
    have different : output ≠ input := by
      rintro rfl
      have taken := second.2.1
      rw [Function.update_self] at taken
      cases taken
    have free := second.2.1
    rw [Function.update_of_ne different] at free
    exact lowest.2.2 output second.1 (by omega) free
  have natural := lowest.1
  exact ⟨⟨⟨lowest.1, lowest.2.1⟩, ⟨second.1, second.2.1⟩, fun _ => by omega⟩, opened, counted⟩

theorem openPipe_leadsTo (last : Bool) :
    LeadsTo (HoldsTable table pipes held count) (openPipe last (-1) (-1)) fun reply state =>
      match reply with
      | .error started => ∃ ret, started = .ends ret
      | .ok (nextStdin, curStdout) =>
          OpenedPipe held nextStdin curStdout (endUnless last (.input count)) (endUnless last (.output count)) ∧
            HoldsTable table pipes (attach (attach held nextStdin (endUnless last (.input count))) curStdout
              (endUnless last (.output count))) (if last then count else count + 1) state := by
  cases last with
  | true => exact .pure fun _ holds => ⟨⟨rfl, rfl, nofun⟩, holds⟩
  | false =>
      refine .bind (pipe_leadsTo laws) fun reply => ?_
      cases reply with
      | error errno =>
          refine .bind (leadsTo_true _) fun _ => .pure fun _ _ => ⟨_, rfl⟩
      | ok fds => exact .pure fun _ opened => opened fds rfl

/-! ## The loop -/

/-- What a process that leaves the loop has: a child the ends of its pipes, and the parent what it had before. -/
def Placed (table : World → Descriptors (OpenFile δ)) (base : Descriptors (OpenFile δ)) (first i : Nat)
    (cmds : List Command) : Started → Shell World → Prop
  | .runs j cmd, state => ∃ k, j = i + k ∧ cmds[k]? = some cmd ∧
      table state.world = redirected base (inputOf first j) (outputOf first j (k + 1 == cmds.length))
  | .waits procs, state => procs.length = cmds.length ∧ table state.world = base
  | .ends _, _ => True
  | .asserts, _ => False

theorem startChild_leadsTo {fuel i : Nat} {ctx : Context} {last : Bool} {nextStdin curStdin curStdout : Int}
    {cmd : Command} {input next output : Option (OpenFile δ)} (reads : 0 < i ↔ input.isSome)
    (writes : !last ↔ output.isSome) (inputEnd : IsEnd base curStdin input)
    (opened : OpenedPipe (attach base curStdin input) nextStdin curStdout next output) :
    LeadsTo
    (HoldsTable table pipes (attach (attach (attach base curStdin input) nextStdin next) curStdout output) count)
      (startChild fuel ctx i last nextStdin curStdin curStdout cmd) fun started state =>
        (∃ ret, started = .ends ret) ∨
          started = .runs i cmd ∧ table state.world = redirected base input output := by
  obtain ⟨outputNext, nextEnd, firstSwap⟩ := opened.inputEnd.swap opened.outputEnd
  obtain ⟨outputEnd, inputAfter, secondSwap⟩ := inputEnd.swap outputNext
  have keeps : ∀ {γ : Type} {prog : Leaf World γ} {held : Descriptors (OpenFile δ)},
      Within (SamePipes table pipes) prog →
        LeadsTo (HoldsTable table pipes held count) prog fun _ => HoldsTable table pipes held count := samePipes_leadsTo
  refine .bind (keeps fun _ => ⟨rfl, rfl⟩) fun _ => .bind (keeps (.call laws.allows.getpid)) fun pid => ?_
  refine .bind (keeps (laws.allows.initChild ctx pid false)) fun _ => ?_
  refine .bind (keeps (laws.allows.leaveJobControl fuel)) fun _ => ?_
  rw [firstSwap]
  refine .bind (closeOpen_leadsTo laws nextEnd) fun _ => ?_
  rw [secondSwap]
  have different : output.isSome → curStdout ≠ 0 := fun some => by
    have positive := opened.positive some
    omega
  refine .bind (moveEnd_leadsTo laws inputAfter reads) fun moved => ?_
  refine .ite (fun isMoved => ?_) fun _ => .pure fun _ _ => .inl ⟨_, rfl⟩
  have commutes : attach (attach base curStdout output) 0 input = attach (attach base 0 input) curStdout output :=
    attach_comm fun some _ => different some
  refine .strengthen ?_ fun _ holds => holds isMoved
  rw [show stdinFileno = 0 from rfl, commutes]
  refine .bind (moveEnd_leadsTo laws (outputEnd.attach different) writes) fun moved => ?_
  refine .ite (fun isMoved => ?_) fun _ => .pure fun _ _ => .inl ⟨_, rfl⟩
  exact .pure fun _ holds => .inr ⟨rfl, (holds isMoved).1⟩

/-- The input that the parent holds for the next command. -/
def heldInput (first i : Nat) (cmds : List Command) : Option (OpenFile δ) :=
  if cmds.isEmpty then none else inputOf first i

omit laws [System World] in
theorem Placed.cons {first i proc : Nat} {cmd : Command} {cmds : List Command} {started : Started} {state : Shell World}
    (placed : Placed table base first (i + 1) cmds started state) :
    Placed table base first i (cmd :: cmds) (started.after proc) state := by
  cases started with
  | runs j other =>
      obtain ⟨k, rfl, found, same⟩ := placed
      refine ⟨k + 1, by omega, found, ?_⟩
      have last : (k + 1 + 1 == (cmd :: cmds).length) = (k + 1 == cmds.length) := by simp
      rw [same, last, Nat.add_right_comm, Nat.add_assoc i k 1]
  | waits procs => exact ⟨congrArg (· + 1) placed.1, placed.2⟩
  | ends ret => trivial
  | asserts => exact placed

theorem startLoop_leadsTo (fuel : Nat) (ctx : Context) {first i : Nat} {curStdin : Int} {cmds : List Command}
    (counted : cmds ≠ [] → count = first + i) (inputEnd : IsEnd base curStdin (heldInput first i cmds)) :
    LeadsTo (HoldsTable table pipes (attach base curStdin (heldInput first i cmds)) count)
      (startLoop fuel ctx i (-1) curStdin (-1) cmds) (Placed table base first i cmds) := by
  induction cmds generalizing i curStdin count with
  | nil =>
      have missing : curStdin = -1 := inputEnd
      subst missing
      exact .pure fun _ holds => ⟨rfl, holds.1⟩
  | cons cmd cmds ih =>
      obtain rfl := counted (List.cons_ne_nil _ _)
      have keeps : ∀ {γ : Type} {prog : Leaf World γ} {held : Descriptors (OpenFile δ)} {count : Nat},
          Within (SamePipes table pipes) prog →
            LeadsTo (HoldsTable table pipes held count) prog fun _ => HoldsTable table pipes held count :=
              samePipes_leadsTo
      refine .bind (openPipe_leadsTo laws cmds.isEmpty) fun reply => ?_
      match reply with
      | .error started =>
          refine .pure fun _ ends => ?_
          obtain ⟨ret, rfl⟩ := ends
          trivial
      | .ok (nextStdin, curStdout) =>
          refine leadsTo_and fun opened => .bind (keeps (.call fun state => laws.fork state.world)) fun forked => ?_
          cases forked with
          | error errno => exact .pure fun _ _ => trivial
          | ok pid =>
              have reads : 0 < i ↔ (heldInput first i (cmd :: cmds) : Option (OpenFile δ)).isSome := by
                cases i <;> simp [heldInput, inputOf, endUnless]
              have writes : !cmds.isEmpty ↔ (outputOf first i cmds.isEmpty : Option (OpenFile δ)).isSome := by
                cases cmds <;> simp [outputOf, endUnless]
              refine .ite (fun child => ?_) fun parent => ?_
              · refine .weaken (startChild_leadsTo laws reads writes inputEnd opened) fun started state ends => ?_
                rcases ends with ⟨ret, rfl⟩ | ⟨rfl, same⟩
                · trivial
                · refine ⟨0, rfl, rfl, ?_⟩
                  cases cmds <;> exact same
              · obtain ⟨nextBase, inputNext, firstSwap⟩ := inputEnd.swap opened.inputEnd
                have outputNext := opened.outputEnd
                rw [firstSwap] at outputNext ⊢
                obtain ⟨outputBase, inputLast, secondSwap⟩ := inputNext.swap outputNext
                rw [secondSwap]
                refine .bind (keeps (laws.allows.initChild ctx pid false)) fun proc => ?_
                refine .bind (closeOpen_leadsTo laws inputLast) fun _ => ?_
                refine .bind (closeOpen_leadsTo laws outputBase) fun _ => ?_
                have closed : (if 0 ≤ curStdout then -1 else curStdout) = -1 := by
                  cases cmds with
                  | nil => exact ite_eq_left_iff.mpr fun _ => opened.outputEnd
                  | cons _ _ => exact if_pos opened.outputEnd.1
                have nextInput : endUnless cmds.isEmpty (.input (first + i)) =
                    (heldInput first (i + 1) cmds : Option (OpenFile δ)) := by
                  cases cmds <;> rfl
                rw [closed, nextInput]
                rw [nextInput] at nextBase
                refine .bind (ih (fun more => ?_) nextBase) fun started => .pure fun _ placed => placed.cons
                cases cmds with
                | nil => exact absurd rfl more
                | cons _ _ => exact Nat.add_assoc first i 1

theorem withJob_within (ctx : Context) (node : JobNode) :
    Within (SamePipes table pipes) (withJob ctx node : Leaf World Context) := by
  unfold withJob
  cases ctx.job with
  | some job => exact .pure _
  | none => exact .bind (laws.allows.jobCreate node) fun _ => .pure _

omit laws

/-! ## The loop of the interpreter -/

/-- A descriptor as the variables of the source have it. -/
def fdOf (fd : Option Int) : Int := fd.getD (-1)

/-- What the process does up to the end of `startCommands`. -/
def Started.commands (self : Tasks World) (ctx : Context) : Started → Exec World (Except Int (List Nat))
  | .runs _ cmd => do
      let ret ← self.runCommand ctx cmd
      leaf (exitProcess (if ret < 0 then 127 else ret))
  | .waits procs => pure (.ok procs)
  | .ends ret => pure (.error ret)
  | .asserts => leaf abort

theorem closeOpen_fdOf {fd : Option Int} (natural : ∀ n, fd = some n → 0 ≤ n) :
    (closeOpen (fdOf fd) : Leaf World Unit) = closeFd fd := by
  cases fd with
  | none => rfl
  | some n => exact if_pos (natural n rfl)

theorem moveOptionalFd_fdOf {moves : Prop} [Decidable moves] {fd : Option Int} {target : Int} {name : Str}
    (has : moves ↔ fd.isSome) :
    (moveOptionalFd fd target name : Leaf World Bool) = if moves then moveFd (fdOf fd) target name else pure true := by
  cases fd with
  | none =>
      have stays : ¬ moves := fun isMoved => nomatch has.mp isMoved
      rw [if_neg stays, moveOptionalFd]
  | some n =>
      have isMoved : moves := has.mpr rfl
      rw [if_pos isMoved, moveOptionalFd, fdOf, Option.getD_some]

theorem startChild_eq (fds : PipelineFds) {fuel i : Nat} {ctx : Context} {last : Bool} {cmd : Command}
    (natural : ∀ n, fds.nextStdin = some n → 0 ≤ n) (reads : 0 < i ↔ fds.curStdin.isSome)
    (writes : !last ↔ fds.curStdout.isSome) :
    (startChild fuel ctx i last (fdOf fds.nextStdin) (fdOf fds.curStdin)
      (fdOf fds.curStdout) cmd : Leaf World Started) =
      preparePipelineChild fuel ctx fds >>= fun ready => pure (if ready then .runs i cmd else .ends 0) := by
  unfold startChild preparePipelineChild
  rw [closeOpen_fdOf natural, ← moveOptionalFd_fdOf reads, ← moveOptionalFd_fdOf writes]
  simp only [bind_assoc]
  refine bind_congr fun _ => bind_congr fun pid => bind_congr fun _ => bind_congr fun _ => ?_
  have moved : (do
      if ← moveOptionalFd fds.curStdin stdinFileno "stdin".toList then
        if ← moveOptionalFd fds.curStdout stdoutFileno "stdout".toList then pure (.runs i cmd) else pure (.ends 0)
      else pure (.ends 0) : Leaf World Started) = (do
      if ← moveOptionalFd fds.curStdin stdinFileno "stdin".toList then
        moveOptionalFd fds.curStdout stdoutFileno "stdout".toList
      else pure false : Leaf World Bool) >>= fun ready => pure (if ready then .runs i cmd else .ends 0) := by
    rw [bind_assoc]
    refine bind_congr fun stdin => ?_
    cases stdin with
    | false => rfl
    | true => exact bind_congr fun stdout => by cases stdout <;> rfl
  cases fds.nextStdin with
  | none => exact moved
  | some fd =>
      rw [bind_assoc]
      exact bind_congr fun _ => moved

/-- The child of the interpreter does what the one with the variables does before it runs its command. -/
theorem startChild_run {self : Tasks World} {ctx : Context} {i : Nat} {last : Bool}
    {nextStdin curStdin curStdout : Option Int}
    {cmd : Command} (natural : ∀ n, nextStdin = some n → 0 ≤ n) (reads : 0 < i ↔ curStdin.isSome)
    (writes : !last ↔ curStdout.isSome) (state : Shell World) :
    Exec.run (do
        let ret ← runPipelineChild self ctx { curStdin, curStdout, nextStdin } cmd
        pure (Except.error ret)) state =
      (Leaf.run (startChild self.fuel ctx i last (fdOf nextStdin) (fdOf curStdin) (fdOf curStdout) cmd) state).andThen
        fun started after => Exec.run (started.commands self ctx) after := by
  have starts : (startChild self.fuel ctx i last (fdOf nextStdin) (fdOf curStdin) (fdOf curStdout) cmd :
        Leaf World Started) =
      preparePipelineChild self.fuel ctx { curStdin, curStdout, nextStdin } >>= fun ready =>
        pure (if ready then .runs i cmd else .ends 0) :=
    startChild_eq { curStdin, curStdout, nextStdin } natural reads writes
  rw [starts, runPipelineChild]
  simp only [Exec.run_bind, Exec.run_leaf, Leaf.run_bind]
  cases Leaf.run (preparePipelineChild self.fuel ctx { curStdin, curStdout, nextStdin }) state with
  | stopped reason after => rfl
  | done ready after =>
      cases ready with
      | false => rfl
      | true =>
          simp only [Outcome.andThen_done, if_true, Leaf.run_pure, Started.commands, Exec.run_bind, Exec.run_leaf,
            Leaf.run_exitProcess]
          cases Exec.run (self.runCommand ctx cmd) after with
          | stopped reason last => simp only [Outcome.andThen_stopped]
          | done ret last => simp only [Outcome.andThen_done, Outcome.andThen_stopped]

theorem openPipe_run {last : Bool} {state : Shell World} :
    Leaf.run (openPipe last (-1) (-1)) state = (Leaf.run (nextPipe last) state).andThen fun reply after =>
      .done (match reply with
        | none => .error (.ends taskStatusError)
        | some (nextStdin, curStdout) => .ok (fdOf nextStdin, fdOf curStdout)) after := by
  cases last with
  | true => rfl
  | false =>
      simp only [openPipe, nextPipe, Bool.false_eq_true, if_false, Leaf.run_bind, Leaf.run_call, Outcome.andThen_done]
      cases (System.pipe state.world).1 with
      | error errno => rfl
      | ok fds => rfl

theorem nextPipe_done (laws : PipelineLaws World δ table pipes) {last : Bool} {state after : Shell World}
    {nextStdin curStdout : Option Int}
    (opened : Leaf.run (nextPipe last) state = .done (some (nextStdin, curStdout)) after) :
    nextStdin.isSome = !last ∧ curStdout.isSome = !last ∧ (∀ n, nextStdin = some n → 0 ≤ n) ∧
      ∀ n, curStdout = some n → 0 ≤ n := by
  cases last with
  | true =>
      cases opened
      exact ⟨rfl, rfl, nofun, nofun⟩
  | false =>
      obtain ⟨reply, between, piped, opened⟩ := Leaf.run_bind_done.mp opened
      cases reply with
      | error errno =>
          obtain ⟨_, _, _, opened⟩ := Leaf.run_bind_done.mp opened
          cases opened
      | ok fds =>
          cases opened
          have ends := (pipe_leadsTo laws).done ⟨rfl, rfl⟩ piped fds rfl
          refine ⟨rfl, rfl, fun n same => ?_, fun n same => ?_⟩
          · cases same
            exact ends.1.inputEnd.1
          · cases same
            exact ends.1.outputEnd.1

omit [System World] in
theorem commands_after {self : Tasks World} {ctx : Context} {proc : Nat} (started : Started) (state : Shell World) :
    Exec.run ((started.after proc).commands self ctx) state =
      (Exec.run (started.commands self ctx) state).andThen fun reply after =>
        .done (match reply with
          | .error ret => .error ret
          | .ok procs => .ok (proc :: procs)) after := by
  cases started with
  | runs i cmd =>
      simp only [Started.after, Started.commands, Exec.run_bind, Exec.run_leaf, Leaf.run_exitProcess]
      cases Exec.run (self.runCommand ctx cmd) state <;> rfl
  | waits procs => rfl
  | ends ret => rfl
  | asserts => rfl

theorem startCommands_run (laws : PipelineLaws World δ table pipes) (self : Tasks World) (ctx : Context) {i : Nat}
    {curStdin : Option Int} {cmds : List Command} (natural : ∀ n, curStdin = some n → 0 ≤ n)
    (reads : if cmds.isEmpty then curStdin = none else 0 < i ↔ curStdin.isSome) (state : Shell World) :
    Exec.run (startCommands self ctx curStdin cmds) state =
      Exec.run
      (leaf (startLoop self.fuel ctx i (-1) (fdOf curStdin) (-1) cmds) >>= Started.commands self ctx) state := by
  induction cmds generalizing i curStdin state with
  | nil =>
      obtain rfl : curStdin = none := reads
      rfl
  | cons cmd cmds ih =>
      simp only [startCommands, startLoop, Exec.run_bind, Exec.run_leaf, Leaf.run_bind, openPipe_run]
      cases opened : Leaf.run (nextPipe cmds.isEmpty) state with
      | stopped reason after => rfl
      | done reply after =>
          cases reply with
          | none => rfl
          | some fds =>
              obtain ⟨nextStdin, curStdout⟩ := fds
              obtain ⟨hasNext, hasOut, nextNatural, outNatural⟩ := nextPipe_done laws opened
              obtain ⟨forked, between, fork⟩ : ∃ forked between, Leaf.run (call System.fork) after =
                  .done forked between := ⟨_, _, rfl⟩
              simp only [Outcome.andThen_done, Leaf.run_bind, Exec.run_bind, Exec.run_leaf, fork]
              cases forked with
              | error errno => rfl
              | ok pid =>
                  rw [Exec.run_ite, Leaf.run_ite]
                  split
                  · exact startChild_run nextNatural reads (by rw [hasOut]) between
                  · rw [closeOpen_fdOf natural, closeOpen_fdOf outNatural]
                    have closed : (if 0 ≤ fdOf curStdout then -1 else fdOf curStdout) = -1 := by
                      cases curStdout with
                      | none => rfl
                      | some n => exact if_pos (outNatural n rfl)
                    have next : if cmds.isEmpty then nextStdin = none else 0 < i + 1 ↔ nextStdin.isSome := by
                      cases more : cmds.isEmpty <;> simp_all
                    simp only [closed, Exec.run_bind, Exec.run_leaf, Leaf.run_bind, Outcome.andThen_assoc]
                    refine congrArg _ (funext fun proc => funext fun _ => ?_)
                    refine congrArg _ (funext fun _ => funext
                      fun _ => congrArg _ (funext fun _ => funext fun rest => ?_))
                    rw [ih nextNatural next rest]
                    simp only [Exec.run_bind, Exec.run_leaf, Outcome.andThen_assoc]
                    refine congrArg _ (funext fun started => funext fun last => ?_)
                    rw [Leaf.run_pure, Outcome.andThen_done, commands_after]
                    refine congrArg _ (funext fun reply => funext fun _ => ?_)
                    cases reply <;> rfl

theorem resume_run {self : Tasks World} {ctx : Context} {bang : Bool} (started : Started)
    (state : Shell World) :
    ((Exec.run (started.commands self ctx) state).andThen fun reply after =>
      Exec.run (match reply with
        | .error ret => pure ret
        | .ok procs => do
            let ret ← leaf (waitProcesses self.fuel procs 0)
            pure (negate bang ret)) after) = Exec.run (started.resume self ctx bang) state := by
  cases started with
  | runs i cmd =>
      simp only [Started.resume, Started.commands, Exec.run_bind, Exec.run_leaf, Leaf.run_exitProcess]
      cases Exec.run (self.runCommand ctx cmd) state <;> rfl
  | waits procs => rfl
  | ends ret => rfl
  | asserts => rfl

/-- A pipeline is the loop with the variables, and then what the process does. -/
theorem runPipeline_started (laws : PipelineLaws World δ table pipes) (self : Tasks World) (ctx : Context)
    {pl : Pipeline} (two : 2 ≤ pl.commands.length) (state : Shell World) :
    Exec.run (runPipeline self ctx pl) state =
      Exec.run (leaf (startPipeline self.fuel ctx pl) >>= fun started => started.2.resume self started.1 pl.bang)
        state := by
  unfold runPipeline startPipeline
  obtain ⟨first, second, rest, commands⟩ : ∃ first second rest, pl.commands = first :: second :: rest := by
    match pl.commands, two with
    | first :: second :: rest, _ => exact ⟨first, second, rest, rfl⟩
  simp only [commands, Exec.run_bind, Exec.run_leaf, Leaf.run_bind, Outcome.andThen_assoc]
  refine congrArg _ (funext fun child => funext fun created => ?_)
  have noInput : ∀ n, (none : Option Int) = some n → 0 ≤ n := fun _ isSome => nomatch isSome
  have reads : if (first :: second :: rest).isEmpty then (none : Option Int) = none
      else 0 < 0 ↔ (none : Option Int).isSome := by simp
  have starts : Exec.run (startCommands self child none (first :: second :: rest)) created =
      Exec.run (leaf (startLoop self.fuel child 0 (-1) (fdOf none) (-1) (first :: second :: rest)) >>=
        Started.commands self child) created := startCommands_run laws self child noInput reads created
  rw [starts]
  simp only [Exec.run_bind, Exec.run_leaf, Outcome.andThen_assoc]
  exact congrArg _ (funext fun started => funext fun after => resume_run started after)

/-- When the commands of a pipeline start, each of them has the ends of the pipes to its neighbours as its standard
input and output and otherwise the descriptors of the shell. The parent waits with the descriptors of the shell. No
assertion on the variables fails. -/
theorem runPipeline_descriptors (laws : PipelineLaws World δ table pipes) (self : Tasks World) (ctx : Context)
    {pl : Pipeline} (two : 2 ≤ pl.commands.length) (state : Shell World) :
    Exec.run (runPipeline self ctx pl) state =
        Exec.run (leaf (startPipeline self.fuel ctx pl) >>= fun started => started.2.resume self started.1 pl.bang)
          state ∧
      ∀ started after, Leaf.run (startPipeline self.fuel ctx pl) state = .done started after →
        match started.2 with
        | .runs i cmd => pl.commands[i]? = some cmd ∧
            table after.world = redirected (table state.world) (inputOf (pipes state.world) i)
              (outputOf (pipes state.world) i (i + 1 == pl.commands.length))
        | .waits procs => procs.length = pl.commands.length ∧ table after.world = table state.world
        | .ends _ => True
        | .asserts => False := by
  refine ⟨runPipeline_started laws self ctx two state, fun started after ended => ?_⟩
  obtain ⟨child, created, job, ended⟩ := Leaf.run_bind_done.mp ended
  obtain ⟨left, last, loop, ended⟩ := Leaf.run_bind_done.mp ended
  obtain ⟨rfl, rfl⟩ := Outcome.done.inj ended
  have same : SamePipes table pipes state created := (withJob_within laws ctx _).done job
  have held : heldInput (pipes state.world) 0 pl.commands = (none : Option (OpenFile δ)) := by
    cases pl.commands <;> rfl
  have inputEnd : IsEnd (table state.world) (-1) (heldInput (pipes state.world) 0 pl.commands) := by
    rw [held]
    rfl
  have placed := (startLoop_leadsTo laws self.fuel child (fun _ => rfl) inputEnd).done (by rw [held]; exact same) loop
  cases left with
  | runs i cmd =>
      obtain ⟨k, rfl, found, holds⟩ := placed
      rw [Nat.zero_add] at *
      exact ⟨found, holds⟩
  | waits procs => exact placed
  | ends ret => trivial
  | asserts => exact placed

end

/-! ## A system with pipes -/

/-- A table of descriptors. So many forks go on as the parent, and the next one as the child. -/
structure Piping where
  descriptors : Descriptors (OpenFile Str)
  pipes : Nat
  parentForks : Nat

def Piping.set (system : Piping) (fd : Int) (file : Option (OpenFile Str)) : Piping :=
  { system with descriptors := Function.update system.descriptors fd file }

def Piping.openPipe (system : Piping) : Option ((Int × Int) × Piping) := do
  let input ← lowestFree system.descriptors
  let reading := system.set input (some (.input system.pipes))
  let output ← lowestFree reading.descriptors
  pure ((input, output), { reading.set output (some (.output system.pipes)) with pipes := system.pipes + 1 })

instance : System Piping :=
  { isolatedSystem Piping with
    fork := fun system =>
      if system.parentForks = 0 then (.ok 0, system) else (.ok 2, { system with parentForks := system.parentForks - 1 })
    tcsetpgrp := fun _ system => (.ok (), system)
    tcgetattr := fun system => (.ok 0, system)
    tcsetattr := fun _ system => (.ok (), system)
    kill := fun _ _ system => (.ok (), system)
    pipe := fun system =>
      match system.openPipe with
      | some (fds, opened) => (.ok fds, opened)
      | none => (.error .einval, system)
    close := fun fd system => ((), system.set fd none)
    dup2 := fun source target system =>
      match system.descriptors source with
      | some file => (.ok (), system.set target (some file))
      | none => (.error .einval, system) }

theorem piping_laws : PipelineLaws Piping Str Piping.descriptors Piping.pipes where
  pipe input output system after := by
    intro piped
    cases opened : system.openPipe with
    | none => simp [System.pipe, opened] at piped
    | some ends =>
        simp only [System.pipe, opened, Prod.mk.injEq, Except.ok.injEq] at piped
        obtain ⟨reading, found, rest⟩ := Option.bind_eq_some_iff.mp opened
        obtain ⟨writing, foundNext, rest⟩ := Option.bind_eq_some_iff.mp rest
        cases rest
        obtain ⟨same, rfl⟩ := piped
        cases same
        exact ⟨lowestFree_some found, lowestFree_some foundNext, rfl, rfl⟩
  dup2 source target system reply after := by
    intro duplicated
    cases file : system.descriptors source with
    | none => simp [System.dup2, file] at duplicated
    | some name =>
        simp only [System.dup2, file, Prod.mk.injEq, true_and] at duplicated
        obtain rfl := duplicated
        exact ⟨rfl, rfl⟩
  close _ _ := ⟨rfl, rfl⟩
  fork system := by
    by_cases last : system.parentForks = 0 <;> simp [System.fork, last]
  getpid _ := ⟨rfl, rfl⟩
  getpgrp _ := ⟨rfl, rfl⟩
  getsid _ := ⟨rfl, rfl⟩
  tcgetpgrp _ := ⟨rfl, rfl⟩
  setpgid _ _ _ := ⟨rfl, rfl⟩
  tcsetpgrp _ _ := ⟨rfl, rfl⟩
  tcgetattr _ := ⟨rfl, rfl⟩
  tcsetattr _ _ := ⟨rfl, rfl⟩
  kill _ _ _ := ⟨rfl, rfl⟩
  sigaction _ _ _ := ⟨rfl, rfl⟩
  printErr _ _ := ⟨rfl, rfl⟩

/-- The standard input and output are closed. -/
def onlyErrors : Descriptors (OpenFile Str) := fun fd => if fd = 2 then some (.other "err".toList) else none

def nullCommand : Command :=
  .simpleCommand
    { name := some (.string [':'] false false .invalid), arguments := [], ioRedirects := [], assignments := [] }

/-- The pipeline `: | : | :`. -/
def nullPipeline : Pipeline :=
    { commands := [nullCommand, nullCommand, nullCommand], bang := false, bangPos := .invalid }

def shellOfErrors : Shell Piping := mrshStateCreate [] ⟨onlyErrors, 0, 1⟩

/-- The second command reads from the first pipe and writes to the second one. -/
theorem runPipeline_descriptors_second : ∃ after,
    Leaf.run (startPipeline 1 ⟨some 0, false⟩ nullPipeline) shellOfErrors =
        .done (⟨some 0, false⟩, .runs 1 nullCommand) after ∧
      after.world.descriptors = redirected onlyErrors (some (.input 0)) (some (.output 1)) := by
  have ended : ∃ after, Leaf.run (startPipeline 1 ⟨some 0, false⟩ nullPipeline) shellOfErrors =
        .done (⟨some 0, false⟩, .runs 1 nullCommand) after := ⟨_, rfl⟩
  obtain ⟨after, ended⟩ := ended
  have two : 2 ≤ nullPipeline.commands.length := by decide
  exact ⟨after, ended,
    ((runPipeline_descriptors piping_laws (tasks 1) ⟨some 0, false⟩ two shellOfErrors).2 _ _ ended).2⟩

end Mrsh

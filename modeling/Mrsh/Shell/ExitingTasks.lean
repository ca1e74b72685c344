import Mrsh.Shell.Exiting

namespace Mrsh

open Mrsh.Data

/-! # Every command obeys `exit`

One lemma for each function of the interpreter: it hands an interruption by `exit` on
with a negative status, or something passes over it. Expansions are never interrupted,
as their commands run in other processes.
-/

section

variable {World : Type} [System World]

/-- The calls of the next level obey. -/
structure TasksObey (level : Tasks World) : Prop where
  runWord : ∀ ctx word, Obeys (level.runWord ctx word) Never
  runCommand : ∀ ctx cmd, Obeys (level.runCommand ctx cmd) (· < 0)
  mrshRunProgram : ∀ prog, Obeys (level.mrshRunProgram prog) (· < 0)
  mrshRunBuiltin : ∀ args, Obeys (level.mrshRunBuiltin args) (· < 0)

variable {self : Tasks World} (obey : TasksObey self)

include obey

/-! ## Expansions -/

theorem runWordCommandChild_obeys {α : Type} (program : Option Program) (fds : Int × Int) :
    Obeys (runWordCommandChild self program fds : Exec World α) Never := by
  have ends : Passes (do
      let exit ← leaf (gets (·.exit))
      leaf (exitProcess (if 0 ≤ exit then exit else 0)) : Exec World α) Never :=
    (Passes.leaf _).bind fun _ => .stop _ _
  refine .leafBind fun _ => .ite (.leafBind fun _ => .leafBind fun _ => ?_) ?_ <;>
    refine .leafBind fun _ => .ite (.leafBind fun _ => ?_) ?_
  all_goals
    cases program with
    | none => exact ends.obeys
    | some program => exact (obey.mrshRunProgram program).bind (fun _ => ends.obeys) fun _ _ => ends.quiet

theorem runWordCommand_obeys (word : Word) (program : Option Program) :
    Obeys (runWordCommand self word program) Never := by
  refine .leafBind fun piped => ?_
  cases piped with
  | error errno => exact .leafBind fun _ => .pure _ _
  | ok fds =>
      refine .leafBind fun forked => ?_
      cases forked with
      | error errno => exact .leafBind fun _ => .leafBind fun _ => .pure _ _
      | ok pid =>
          refine .ite (runWordCommandChild_obeys obey program fds) (.leafBind fun _ => .leafBind fun _ =>
            .leafBind fun buf => ?_)
          cases buf with
          | none => exact .leafBind fun _ => .pure _ _
          | some buf => exact .leafBind fun _ => .leafBind fun _ => .pure _ _

omit [System World] in
theorem unsetMessage_obeys (ctx : Context) (arg : Option Word) : Obeys (unsetMessage self ctx arg) Never := by
  cases arg with
  | none => exact .pure _ _
  | some arg =>
      refine .leafBind fun word => .bindCalm (obey.runWord ctx word) fun expanded => ?_
      exact .ite (.pure _ _) (.leafBind fun _ => .pure _ _)

theorem applyParameterCondOp_obeys (ctx : Context) (wp : WordParameter) (value : Option Word) :
    Obeys (applyParameterCondOp self ctx wp value) Never := by
  unfold applyParameterCondOp
  split
  · exact .pure _ _
  · exact .leafBind fun _ => .ite (.leafBind fun _ => .pure _ _) (.pure _ _)
  · refine .leafBind fun _ => .ite (.leafBind fun result => .bindCalm (obey.runWord ctx result) fun expanded => ?_)
      (.pure _ _)
    exact .ite (.pure _ _) (.leafBind fun _ => .leafBind fun _ => .pure _ _)
  · refine .leafBind fun _ => .ite (.bindCalm (unsetMessage_obeys obey ctx wp.arg) fun msg => ?_) (.pure _ _)
    cases msg with
    | error ret => exact .pure _ _
    | ok msg => exact .leafBind fun _ => .pure _ _
  · exact .leafBind fun _ => .ite (.pure _ _) (.leafBind fun _ => .pure _ _)
  · exact .leaf _ _

theorem applyParameterStrOp_obeys (ctx : Context) (wp : WordParameter) (str : Option Str) :
    Obeys (applyParameterStrOp self ctx wp str) Never := by
  unfold applyParameterStrOp
  refine .ite ?_ ?_
  · refine .leafBind fun _ => .ite (.pure _ _) (.pure _ _)
  · split
    · exact .pure _ _
    · exact .pure _ _
    · refine .leafBind fun pattern => .bindCalm (obey.runWord ctx pattern) fun expanded => .ite (.pure _ _) ?_
      refine .leafBind fun found => ?_
      cases found with
      | none => exact .leafBind fun _ => .pure _ _
      | some pattern => exact .pure _ _

theorem applyParameterOp_obeys (ctx : Context) (wp : WordParameter) (value : Option Str) (doubleQuoted : Bool) :
    Obeys (applyParameterOp self ctx wp value doubleQuoted) Never :=
  .ite (.leafBind fun _ => applyParameterCondOp_obeys obey ctx wp _)
    (.ite (.leafBind fun _ => .leafBind fun _ => .pure _ _) (applyParameterStrOp_obeys obey ctx wp value))

theorem runWordParameter_obeys (ctx : Context) (doubleQuoted : Bool) (wp : WordParameter) :
    Obeys (runWordParameter self ctx doubleQuoted wp) Never := by
  refine .leafBind fun value => .bindCalm (applyParameterOp_obeys obey ctx wp _ doubleQuoted) fun result => ?_
  cases result with
  | error ret => exact .pure _ _
  | ok result =>
      refine .leafBind fun result => ?_
      rcases result with _ | word
      · exact .pure _ _
      · cases word with
        | string str singleQuoted splitFields range => exact .pure _ _
        | _ => exact .bindCalm (obey.runWord ctx _) fun expanded => .ite (.pure _ _) (.pure _ _)

omit obey in
mutual

theorem runWordIn_obeys (obey : TasksObey self) (ctx : Context) (doubleQuoted : Bool) :
    ∀ word, Obeys (runWordIn self ctx doubleQuoted word) Never
  | .string _ _ _ _ => .pure _ _
  | .parameter wp => runWordParameter_obeys obey ctx doubleQuoted wp
  | .command program _ _ => runWordCommand_obeys obey _ program
  | .arithmetic body => .bindCalm (runWordIn_obeys obey ctx false body) fun (_, _) => .ite (.pure _ _) (.leaf _ _)
  | .list children listQuoted _ _ =>
      .bindCalm (runWords_obeys obey ctx _ listQuoted children) fun (_, _) => .ite (.pure _ _) (.pure _ _)
  | .null => .leaf _ _

theorem runWords_obeys (obey : TasksObey self) (ctx : Context) (doubleQuoted listQuoted : Bool) :
    ∀ children, Obeys (runWords self ctx doubleQuoted listQuoted children) Never
  | [] => .pure _ _
  | child :: children =>
      .bindCalm (runWordIn_obeys obey ctx doubleQuoted child) fun (_, _) => .ite (.pure _ _)
        (.bindCalm (runWords_obeys obey ctx doubleQuoted listQuoted children) fun (_, _) => .pure _ _)

end

theorem runWord_obeys (ctx : Context) (word : Word) : Obeys (runWord self ctx word) Never :=
  runWordIn_obeys obey ctx false word

theorem expandWord_obeys (ctx : Context) (word : Word) : Obeys (expandWord self ctx word) Never := by
  refine .leafBind fun word => .leafBind fun word => .bindCalm (runWord_obeys obey ctx word) fun (ret, word) => ?_
  refine .ite (.pure _ _) (.leafBind fun _ => .leafBind fun _ => .leafBind fun _ => .ite ?_ ?_)
  · exact .leafBind fun _ => .pure _ _
  · refine .leafBind fun strs => ?_
    cases strs with
    | none => exact .pure _ _
    | some strs => exact .pure _ _

theorem expandWords_obeys (ctx : Context) (words : List Word) : Obeys (expandWords self ctx words) Never := by
  induction words with
  | nil => exact .pure _ _
  | cons word words ih =>
      refine .bindCalm (expandWord_obeys obey ctx word) fun (ret, strs) => .ite (.pure _ _) ?_
      exact .bindCalm ih fun (_, _) => .pure _ _

theorem mrshRunWord_obeys (word : Word) : Obeys (mrshRunWord self word) Never :=
  .leafBind fun _ => .leafBind fun _ => .bindCalm (runWord_obeys obey _ _) fun (_, _) => .leafBind fun _ => .pure _ _

/-! ## Simple commands -/

theorem expandAssignments_obeys (ctx : Context) (assigns : List Assignment) :
    Obeys (expandAssignments self ctx assigns) Never := by
  induction assigns with
  | nil => exact .pure _ _
  | cons assign assigns ih =>
      refine .leafBind fun value => .bindCalm (runWord_obeys obey ctx value) fun (ret, value) => .ite (.pure _ _) ?_
      exact .bindCalm ih fun (_, _) => .pure _ _

theorem runPlainWords_obeys (ctx : Context) (words : List Word) : Obeys (runPlainWords self ctx words) Never := by
  induction words with
  | nil => exact .pure _ _
  | cons word words ih =>
      refine .leafBind fun word => .bindCalm (runWord_obeys obey ctx word) fun (ret, word) => .ite (.pure _ _) ?_
      exact .bindCalm ih fun (_, _) => .pure _ _

theorem expandRedirects_obeys (ctx : Context) (redirs : List IoRedirect) :
    Obeys (expandRedirects self ctx redirs) Never := by
  induction redirs with
  | nil => exact .pure _ _
  | cons redir redirs ih =>
      refine .bindCalm (runPlainWords_obeys obey ctx _) fun (ret, name) => .ite (.pure _ _) ?_
      refine .bindCalm (runPlainWords_obeys obey ctx _) fun (ret, lines) => .ite (.pure _ _) ?_
      exact .bindCalm ih fun (_, _) => .pure _ _

theorem expandCommand_obeys (ctx : Context) (sc : SimpleCommand) (name : Word) :
    Obeys (expandCommand self ctx sc name) Never := by
  refine .bindCalm (expandWords_obeys obey ctx _) fun (ret, args) => .ite (.pure _ _) ?_
  refine .leafBind fun _ => .bindCalm (expandAssignments_obeys obey ctx _) fun (ret, assignments) => .ite (.pure _ _) ?_
  exact .bindCalm (expandRedirects_obeys obey ctx _) fun (_, _) => .ite (.pure _ _) (.pure _ _)

theorem traceCommand_obeys (args : List Str) : Obeys (traceCommand self args) Never := by
  have expandStr : ∀ src, Obeys (Mrsh.expandStr self src) Never := by
    intro src
    refine .leafBind fun (word, parser) => ?_
    cases word with
    | none =>
        dsimp only
        cases parser.error with
        | none => exact .leafBind fun _ => .pure _ _
        | some error => exact .leafBind fun _ => .pure _ _
    | some word =>
        exact .bindCalm (mrshRunWord_obeys obey word) fun (_, _) => .leafBind fun _ => .pure _ _
  have expandPs : ∀ name, Obeys (Mrsh.expandPs self name) Never := by
    intro name
    refine .leafBind fun ps => ?_
    cases ps with
    | none => exact .pure _ _
    | some ps => exact .bindCalm (expandStr ps) fun _ => .ite (.leafBind fun _ => .pure _ _) (.pure _ _)
  refine .leafBind fun trace => .ite ?_ (.pure _ _)
  exact .bindCalm (.bindCalm (expandPs _) fun _ => .pure _ _) fun _ => .leaf _ _

theorem runOnlyAssignments_obeys (ctx : Context) (sc : SimpleCommand) :
    Obeys (runOnlyAssignments self ctx sc) (· < 0) := by
  refine .leafBind fun _ => .leafBind fun assigns => .bindCalm (expandAssignments_obeys obey ctx assigns)
    fun (ret, assignments) => ?_
  exact .ite (.pure _ _) (.leaf _ _)

theorem runBuiltin_obeys (sc : SimpleCommand) (argv : List Str) : Obeys (runBuiltin self sc argv) (· < 0) := by
  refine .leafBind fun fds => ?_
  cases fds with
  | none => exact .pure _ _
  | some fds =>
      have restores :
        ∀ ret, Obeys (do if ← leaf (restoreFds fds) then pure ret else pure taskStatusError : Exec World Int)
          (· < 0) := fun ret => .leafBind fun _ => .ite (.pure _ _) (.pure _ _)
      refine .bindStatus (obey.mrshRunBuiltin argv) restores fun ret negative => ?_
      apply (Passes.leaf _).bind
      intro restored
      cases restored with
      | true => exact .pure negative
      | false => exact .pure (by decide)

omit [System World] obey in
theorem popFrame_still : Still (popFrame : Exec World Unit) := by
  have pops : Still (control .pop : Exec World Unit) := by
    apply Still.control
    · intro state
      simp only [handleControl]
      split <;> rfl
    · intro state
      simp only [handleControl]
      split <;> rfl
  exact (Still.leaf _).bind fun _ => pops.bind fun _ => .leaf _

omit [System World] in
theorem runFunction_obeys (ctx : Context) (body : Command) (args : List Str) :
    Obeys (runFunction self ctx body args) (· < 0) := by
  have pushes : Still (pushFrame args : Exec World Unit) := .control (fun _ => rfl) fun _ => rfl
  refine pushes.obeys.bindCalm fun _ => .leafBind fun _ => .leafBind fun body => ?_
  refine .bindStatus (obey.runCommand ctx body) (fun ret => popFrame_still.obeys.bindCalm fun _ => .pure _ _) ?_
  exact fun _ negative => popFrame_still.passes.bind fun _ => .pure negative

omit [System World] obey in
/-- Outside of traps an event other than the call of `exit` leaves the calm mode as it is. -/
theorem record_obeys {event : Event} (other : event ≠ .exitBuiltin) : Obeys (record event : Exec World Unit) Never := by
  intro state mode admits calm
  have next : mode.scan [⟨event, 0 < state.runningActions⟩] = mode := by
    by_cases trap : 0 < state.runningActions
    · simp [Mode.scan, Mode.next, trap]
    · rw [calm (by omega)]
      cases event with
      | exitBuiltin => exact absurd rfl other
      | _ => simp [Mode.scan, Mode.next, trap]
  refine ⟨[⟨event, 0 < state.runningActions⟩], rfl, ?_, ?_⟩
  · rw [next]
    exact admits.intact
  · intro value after ended
    obtain ⟨rfl, rfl⟩ := Outcome.done.inj ended
    rw [next]
    exact ⟨rfl, fun _ => rfl, fun exiting => ⟨admits.exitSet exiting, fun outside => not_exiting calm exiting outside⟩⟩

theorem runSimpleCommand_obeys (ctx : Context) (sc : SimpleCommand) :
    Obeys (runSimpleCommand self ctx sc) (· < 0) := by
  apply (record_obeys (by decide)).bindCalm
  intro _
  cases sc.name with
  | none => exact runOnlyAssignments_obeys obey ctx sc
  | some name =>
      refine .leafBind fun _ => .leafBind fun sc => .bindCalm (expandCommand_obeys obey ctx sc name) fun expanded => ?_
      rcases expanded with ret | ⟨sc, args⟩
      · exact .pure _ _
      · refine .bindCalm (traceCommand_obeys obey args) fun _ => .leafBind fun body => ?_
        cases body with
        | none => exact .ite (runBuiltin_obeys obey sc args) (.leaf _ _)
        | some body => exact runFunction_obeys obey ctx body args

/-! ## Pipelines and lists -/

theorem runPipelineChild_obeys (ctx : Context) (fds : PipelineFds) (cmd : Command) :
    Obeys (runPipelineChild self ctx fds cmd) Never := by
  refine .leafBind fun _ => .ite ?_ (.pure _ _)
  exact (obey.runCommand ctx cmd).bind (fun _ => .leaf _ _) fun _ _ => (Passes.stop _ _).quiet

theorem startCommands_obeys (ctx : Context) (cmds : List Command) (curStdin : Option Int) :
    Obeys (startCommands self ctx curStdin cmds) Never := by
  induction cmds generalizing curStdin with
  | nil => exact .pure _ _
  | cons cmd cmds ih =>
      refine .leafBind fun pipe => ?_
      rcases pipe with _ | ⟨nextStdin, curStdout⟩
      · exact .pure _ _
      · refine .leafBind fun forked => ?_
        cases forked with
        | error errno => exact .pure _ _
        | ok pid =>
            refine .ite (.bindCalm (runPipelineChild_obeys obey ctx _ cmd) fun _ => .pure _ _) ?_
            refine .leafBind fun _ => .leafBind fun _ => .leafBind fun _ => .bindCalm (ih nextStdin) fun procs => ?_
            cases procs with
            | error ret => exact .pure _ _
            | ok procs => exact .pure _ _

omit [System World] obey in
theorem negate_negative {ret : Int} (bang : Bool) (negative : ret < 0) : negate bang ret < 0 := by
  have below : ¬0 ≤ ret := by omega
  simpa [negate, below] using negative

theorem runPipeline_obeys (ctx : Context) (pl : Pipeline) : Obeys (runPipeline self ctx pl) (· < 0) := by
  refine .leafBind fun ctx => ?_
  rcases pl.commands with _ | ⟨cmd, _ | ⟨second, cmds⟩⟩
  · exact .leaf _ _
  · exact .bindStatus (obey.runCommand ctx cmd) (fun _ => .pure _ _) fun _ negative =>
      .pure (negate_negative _ negative)
  · refine .bindCalm (startCommands_obeys obey ctx _ none) fun procs => ?_
    cases procs with
    | error ret => exact .pure _ _
    | ok procs => exact .leafBind fun _ => .pure _ _

omit [System World] obey in
/-- After a loop or `||` has passed over an interruption, nothing is on its way. -/
theorem passesOver_passes {event : Event} (passesOver : event = .loopInterrupted ∨ event = .orInterrupted) :
    Passes (record event : Exec World Unit) Never := by
  intro state mode admits
  have next : mode.next ⟨event, 0 < state.runningActions⟩ = if 0 < state.runningActions then mode else .calm := by
    by_cases trap : 0 < state.runningActions
    · simp [Mode.next, trap]
    · rcases passesOver with rfl | rfl <;> cases mode with
      | broken => exact absurd rfl admits.intact
      | _ => simp [Mode.next, trap]
  refine ⟨[⟨event, 0 < state.runningActions⟩], rfl, ?_, ?_⟩
  · change mode.next _ ≠ _
    rw [next]
    split
    · exact admits.intact
    · decide
  · intro value after ended
    obtain ⟨rfl, rfl⟩ := Outcome.done.inj ended
    change _ ∧ (_ → mode.next _ = mode) ∧ (mode.next _ = _ → _)
    rw [next]
    refine ⟨rfl, fun trap => if_pos trap, ?_⟩
    split
    · intro exiting
      exact ⟨admits.exitSet exiting, fun outside => by omega⟩
    · intro exiting
      cases exiting

theorem runAndOrList_obeys (ctx : Context) :
    ∀ list, Obeys (runAndOrList (runPipeline self ctx) (record .orInterrupted) list) (· < 0)
  | .pipeline pl => runPipeline_obeys obey ctx pl
  | .binop .and left right _ => by
      refine .bindStatus (runAndOrList_obeys ctx left) (fun ret => .ite (.pure _ _) (runAndOrList_obeys ctx right))
        fun ret negative => ?_
      have failed : (ret != 0) = true := by
        have nonzero : ret ≠ 0 := by omega
        simpa using nonzero
      rw [if_pos failed]
      exact .pure negative
  | .binop .or left right _ => by
      have notes : Passes (record .orInterrupted : Exec World Unit) Never := passesOver_passes (.inr rfl)
      have rightObeys := runAndOrList_obeys ctx right
      refine (runAndOrList_obeys ctx left).bind
        (fun ret => .ite (.pure _ _) (.ite (notes.obeys.bindCalm fun _ => rightObeys) rightObeys))
          fun ret negative => ?_
      have failed : ¬(ret == 0) = true := by
        have nonzero : ret ≠ 0 := by omega
        simpa using nonzero
      rw [if_neg failed]
      change Quiet (if ret < 0 then _ else _) _
      rw [if_pos negative]
      exact notes.quiet.bind (fun _ => rightObeys) fun _ never => never.elim

theorem runAsync_obeys (ctx : Context) (list : CommandList) : Obeys (runAsync self ctx list) (· < 0) := by
  refine .leafBind fun ctx => .leafBind fun forked => ?_
  cases forked with
  | error errno => exact .leafBind fun _ => .pure _ _
  | ok pid =>
      refine .ite ?_ (.leafBind fun _ => .pure _ _)
      refine .leafBind fun _ => .leafBind fun _ => .leafBind fun _ => .leafBind fun _ => .leafBind fun _ => ?_
      exact (runAndOrList_obeys obey ctx list.andOrList).bind (fun _ => .leaf _ _) fun _ _ => (Passes.stop _ _).quiet

theorem runList_obeys (ctx : Context) (list : CommandList) : Obeys (runList self ctx list) (· < 0) :=
  .ite (runAsync_obeys obey ctx list) (runAndOrList_obeys obey ctx list.andOrList)

theorem runLists_obeys (ctx : Context) (lists : List CommandList) (ret : Int) :
    Obeys (runLists self ctx lists ret) (· < 0) := by
  induction lists generalizing ret with
  | nil => exact .pure _ _
  | cons list lists ih =>
      refine .bindStatus (runList_obeys obey ctx list) (fun ret => .ite (.pure _ _) (.leafBind fun _ => ih ret)) ?_
      intro ret negative
      rw [if_pos negative]
      exact .pure negative

theorem runCommandListArray_obeys (ctx : Context) (array : List CommandList) :
    Obeys (runCommandListArray self ctx array) (· < 0) := runLists_obeys obey ctx array 0

/-! ## Compound commands -/

theorem runSubshell_obeys (ctx : Context) (body : List CommandList) : Obeys (runSubshell self ctx body) (· < 0) := by
  refine .leafBind fun forked => ?_
  cases forked with
  | error errno => exact .leafBind fun _ => .pure _ _
  | ok pid =>
      refine .ite ?_ (.leaf _ _)
      refine .leafBind fun _ => .leafBind fun _ => .leafBind fun _ => ?_
      have ends : ∀ ret, Passes (do
          let exit ← leaf (gets (·.exit))
          leaf (exitProcess (if ret < 0 then 127 else if 0 ≤ exit then exit else ret)) : Exec World Int) (· < 0) :=
        fun _ => (Passes.leaf _).bind fun _ => .stop _ _
      exact (runCommandListArray_obeys obey ctx body).bind (fun ret => (ends ret).obeys) fun ret _ => (ends ret).quiet

theorem runIfClause_obeys (ctx : Context) (ic : IfClause) : Obeys (runIfClause self ctx ic) (· < 0) := by
  refine .bindStatus (runCommandListArray_obeys obey ctx ic.condition) (fun ret => .ite (.pure _ _) (.ite ?_ ?_)) ?_
  · exact runCommandListArray_obeys obey ctx ic.body
  · cases ic.elsePart with
    | none => exact .pure _ _
    | some elsePart => exact obey.runCommand ctx elsePart
  · intro ret negative
    rw [if_pos negative]
    exact .pure negative

/-- A loop that goes on may be interrupted, a loop that is left only with a negative status. -/
def Round.Interrupts : Round → Prop
  | .again _ => True
  | .leave loopRet => loopRet < 0
  | .fail ret => ret < 0

omit [System World] obey in
theorem interruptLoop_passes (loopNum loopRet : Int) :
    Passes (interruptLoop loopNum loopRet : Exec World Round) Round.Interrupts := by
  have leaves : Passes (do record .loopInterrupted; pure (.leave 0) : Exec World Round) Round.Interrupts := by
    intro state mode admits
    apply (passesOver_passes (.inl rfl) state mode admits).bind
    intro _ last after admitsLast actions inTrap may
    apply @leaf_carries World Round (pure (.leave 0)) last after _ admitsLast
    intro _ exiting outside
    exact (may exiting (actions ▸ outside)).elim
  apply (Passes.leaf _).bind
  intro nloops
  by_cases below : nloops < loopNum
  · rw [if_pos below]
    exact .pure (show taskStatusInterrupted < 0 by decide)
  · rw [if_neg below]
    apply (Passes.leaf _).bind
    intro branch
    cases branch with
    | «continue» => exact .pure trivial
    | _ => exact leaves

omit [System World] obey in
theorem setLoops_still (nloops : Int) : Still (control (.setLoops nloops) : Exec World Unit) :=
  .control (fun _ => rfl) fun _ => rfl

omit [System World] obey in
theorem leaveLoop_obeys (ret : Int) : Obeys (leaveLoop ret : Exec World Int) (· < 0) :=
  .leafBind fun _ => (setLoops_still _).obeys.bindCalm fun _ => .pure _ _

omit [System World] obey in
theorem leaveLoop_passes {ret : Int} (negative : ret < 0) : Passes (leaveLoop ret : Exec World Int) (· < 0) :=
  (Passes.leaf _).bind fun _ => (setLoops_still _).passes.bind fun _ => .pure negative

omit [System World] obey in
theorem stopLoop_passes (loopRet : Int) : Passes (stopLoop loopRet : Exec World Int) (· < 0) := by
  unfold stopLoop
  by_cases succeeded : 0 ≤ loopRet
  · rw [if_pos succeeded]
    intro state mode admits
    apply (passesOver_passes (.inl rfl) state mode admits).bind
    intro _ last after admitsLast actions _ may
    apply leaveLoop_obeys loopRet after last admitsLast
    intro outside
    cases last with
    | calm => rfl
    | exiting => exact (may rfl (actions ▸ outside)).elim
    | broken => exact absurd rfl admitsLast.intact
  · rw [if_neg succeeded]
    exact leaveLoop_passes (by omega)

theorem runLoopBody_obeys (ctx : Context) (loopNum : Int) (body : List CommandList) :
    Obeys (runLoopBody self ctx loopNum body) Round.Interrupts := by
  refine (runCommandListArray_obeys obey ctx body).bind
    (fun ret => .ite (interruptLoop_passes _ _).obeys (.ite (.pure _ _) (.pure _ _))) fun ret negative => ?_
  by_cases interrupted : (ret == taskStatusInterrupted) = true
  · rw [if_pos interrupted]
    exact (interruptLoop_passes _ _).quiet
  · rw [if_neg interrupted, if_pos negative]
    exact (Passes.pure (show Round.Interrupts (.fail ret) from negative)).quiet

theorem loopRound_obeys (ctx : Context) (lc : LoopClause) (loopNum loopRet : Int) :
    Obeys (loopRound self ctx lc loopNum loopRet) Round.Interrupts := by
  refine (runCommandListArray_obeys obey ctx lc.condition).bind (fun ret => .ite (interruptLoop_passes _ _).obeys
    (.ite (.pure _ _) (.ite (.pure _ _) (runLoopBody_obeys obey ctx loopNum lc.body)))) fun ret negative => ?_
  by_cases interrupted : (ret == taskStatusInterrupted) = true
  · rw [if_pos interrupted]
    exact (interruptLoop_passes _ _).quiet
  · rw [if_neg interrupted, if_pos negative]
    exact (Passes.pure (show Round.Interrupts (.fail ret) from negative)).quiet

omit [System World] obey in
/-- A loop that has looked at the exit status and goes on is not interrupted by `exit`. -/
theorem checkExit_passes {stops goesOn : Exec World Int} (stopsPasses : Passes stops (· < 0))
    (goesOnObeys : Obeys goesOn (· < 0)) :
    Passes (do
      let exit ← leaf (gets (·.exit))
      if exit != -1 then stops else goesOn) (· < 0) := by
  intro state mode admits
  have checked : Exec.run (do
      let exit ← leaf (gets (·.exit))
      if exit != -1 then stops else goesOn) state = Exec.run (if state.exit != -1 then stops else goesOn) state := rfl
  have passes : Carries (if state.exit != -1 then stops else goesOn) mode state (· < 0) := by
    by_cases set : (state.exit != -1) = true
    · rw [if_pos set]
      exact stopsPasses state mode admits
    · rw [if_neg set]
      apply goesOnObeys state mode admits
      intro _
      cases mode with
      | calm => rfl
      | exiting => exact absurd (by simpa using admits.exitSet rfl) set
      | broken => exact absurd rfl admits.intact
  unfold Carries at passes ⊢
  rw [checked]
  exact passes

omit [System World] obey in
theorem afterRound_obeys {prog : Exec World Round} {next : Int → Exec World Int} (obeys : Obeys prog Round.Interrupts)
    (nextPasses : ∀ loopRet, Passes (next loopRet) (· < 0)) :
    Obeys (do
      match ← prog with
      | .again loopRet => next loopRet
      | .leave loopRet => leaveLoop loopRet
      | .fail ret => pure ret) (· < 0) := by
  refine obeys.bind (fun round => ?_) fun round interrupts => ?_
  · cases round with
    | again loopRet => exact (nextPasses loopRet).obeys
    | leave loopRet => exact leaveLoop_obeys loopRet
    | fail ret => exact .pure _ _
  · cases round with
    | again loopRet => exact (nextPasses loopRet).quiet
    | leave loopRet => exact (leaveLoop_passes interrupts).quiet
    | fail ret =>
        have handsOn : Passes (pure ret : Exec World Int) (· < 0) := .pure interrupts
        exact handsOn.quiet

theorem loopRounds_passes (ctx : Context) (lc : LoopClause) (loopNum : Int) (fuel : Nat) (loopRet : Int) :
    Passes (loopRounds self ctx lc loopNum fuel loopRet) (· < 0) := by
  induction fuel generalizing loopRet with
  | zero => exact .stop _ _
  | succ fuel ih =>
      exact checkExit_passes (stopLoop_passes loopRet)
        (afterRound_obeys (loopRound_obeys obey ctx lc loopNum loopRet) ih)

omit [System World] obey in
theorem enterLoop_obeys : Obeys (enterLoop : Exec World Int) Never :=
  .leafBind fun _ => (setLoops_still _).obeys.bindCalm fun _ => .pure _ _

theorem runLoopClause_obeys (ctx : Context) (lc : LoopClause) : Obeys (runLoopClause self ctx lc) (· < 0) :=
  enterLoop_obeys.bindCalm fun loopNum => (loopRounds_passes obey ctx lc loopNum self.fuel 0).obeys

theorem forRounds_passes (ctx : Context) (fc : ForClause) (loopNum : Int) (fields : List Str) (loopRet : Int) :
    Passes (forRounds self ctx fc loopNum fields loopRet) (· < 0) := by
  induction fields generalizing loopRet with
  | nil =>
      rw [forRounds]
      exact checkExit_passes (stopLoop_passes loopRet) (leaveLoop_obeys loopRet)
  | cons field fields ih =>
      rw [forRounds]
      exact checkExit_passes (stopLoop_passes loopRet)
        (.leafBind fun _ => afterRound_obeys (runLoopBody_obeys obey ctx loopNum fc.body) ih)

theorem runForClause_obeys (ctx : Context) (fc : ForClause) : Obeys (runForClause self ctx fc) (· < 0) := by
  refine enterLoop_obeys.bindCalm fun loopNum => .bindCalm (expandWords_obeys obey ctx _) fun (ret, fields) => ?_
  exact .ite (.pure _ _) (forRounds_passes obey ctx fc loopNum fields 0).obeys

theorem matchPatterns_obeys (ctx : Context) (addr : Address) (wordStr : Str) (before patterns : List Word) :
    Obeys (matchPatterns self ctx addr wordStr before patterns) Never := by
  induction patterns generalizing before with
  | nil => exact .pure _ _
  | cons pattern patterns ih =>
      refine .leafBind fun word => .bindCalm (runWord_obeys obey ctx word) fun (ret, word) => ?_
      have sets : Still (control (.setPatterns addr before pattern word patterns) : Exec World Unit) :=
        .control (fun _ => rfl) fun _ => rfl
      exact sets.obeys.bindCalm fun _ => .ite (.pure _ _) (.leafBind fun _ => .ite (.pure _ _) (ih _))

theorem runCaseItems_obeys (ctx : Context) (wordStr : Str) (items : List CaseItem) :
    Obeys (runCaseItems self ctx wordStr items) (· < 0) := by
  induction items with
  | nil => exact .pure _ _
  | cons ci items ih =>
      refine .leafBind fun patterns => .bindCalm (matchPatterns_obeys obey ctx _ wordStr [] patterns) fun matched => ?_
      rcases matched with ret | _ | _
      · exact .pure _ _
      · exact ih
      · exact runCommandListArray_obeys obey ctx ci.body

theorem runCaseClause_obeys (ctx : Context) (cc : CaseClause) : Obeys (runCaseClause self ctx cc) (· < 0) := by
  refine .leafBind fun word => .leafBind fun word => .bindCalm (runWord_obeys obey ctx word) fun (ret, word) => ?_
  exact .ite (.pure _ _) (.leafBind fun wordStr => runCaseItems_obeys obey ctx wordStr cc.items)

theorem runCommand_obeys (ctx : Context) (cmd : Command) : Obeys (runCommand self ctx cmd) (· < 0) := by
  cases cmd with
  | simpleCommand sc => exact runSimpleCommand_obeys obey ctx sc
  | braceGroup bg => exact runCommandListArray_obeys obey ctx bg.body
  | subshell s => exact runSubshell_obeys obey ctx s.body
  | ifClause ic => exact runIfClause_obeys obey ctx ic
  | loopClause lc => exact runLoopClause_obeys obey ctx lc
  | forClause fc => exact runForClause_obeys obey ctx fc
  | caseClause cc => exact runCaseClause_obeys obey ctx cc
  | functionDefinition fnd => exact .leaf _ _

/-! ## Builtins -/

omit [System World] obey in
theorem breakLoops_obeys (argv0 : Str) (n : Int) : Obeys (breakLoops argv0 n : Exec World Int) (· < 0) := by
  have sets : Still (control (.setBranch (branchOf argv0)) : Exec World Unit) := .control (fun _ => rfl) fun _ => rfl
  exact .leafBind fun _ => (setLoops_still _).obeys.bindCalm fun _ => sets.obeys.bindCalm fun _ => .pure _ _

omit obey in
theorem builtinBreak_obeys (args : List Str) : Obeys (builtinBreak args : Exec World Int) (· < 0) := by
  unfold builtinBreak
  split
  · exact breakLoops_obeys _ _
  · exact .ite (.leaf _ _) (breakLoops_obeys _ _)
  · exact .leaf _ _

omit [System World] obey in
theorem returnWith_obeys (n : Int) : Obeys (returnWith n : Exec World Int) (· < 0) := by
  have sets : Still (control (.setBranch .return) : Exec World Unit) := .control (fun _ => rfl) fun _ => rfl
  exact (setLoops_still _).obeys.bindCalm fun _ => sets.obeys.bindCalm fun _ => .leafBind fun _ => .pure _ _

omit obey in
theorem builtinReturn_obeys (args : List Str) : Obeys (builtinReturn args : Exec World Int) (· < 0) := by
  unfold builtinReturn
  split
  · exact returnWith_obeys _
  · exact .ite (.leaf _ _) (returnWith_obeys _)
  · exact .leaf _ _

omit [System World] obey in
/-- The builtin `exit` sets the exit status before it interrupts the shell. -/
theorem exitWith_obeys (status : Nat) : Obeys (exitWith status : Exec World Int) (· < 0) := by
  intro state mode admits calm
  have run : Exec.run (exitWith status) state = .done taskStatusInterrupted { state with
      exit := status
      branchControl := .exit
      history := state.history ++ [⟨.exitBuiltin, 0 < state.runningActions⟩] } := rfl
  have next :
    mode.scan [⟨.exitBuiltin, 0 < state.runningActions⟩] = if 0 < state.runningActions then mode else .exiting := by
    by_cases trap : 0 < state.runningActions
    · simp [Mode.scan, Mode.next, trap]
    · rw [calm (by omega)]
      simp [Mode.scan, Mode.next, trap]
  refine ⟨[⟨.exitBuiltin, 0 < state.runningActions⟩], by rw [run]; rfl, ?_, ?_⟩
  · rw [next]
    split
    · exact admits.intact
    · decide
  · intro value after ended
    rw [run] at ended
    obtain ⟨rfl, rfl⟩ := Outcome.done.inj ended
    refine ⟨rfl, fun trap => ?_, fun _ => ⟨?_, fun _ => by decide⟩⟩
    · rw [next, if_pos trap]
    · change ((status : Nat) : Int) ≠ -1
      omega

omit obey in
theorem builtinExit_obeys (args : List Str) : Obeys (builtinExit args : Exec World Int) (· < 0) := by
  unfold builtinExit
  split
  · exact exitWith_obeys _
  · exact .ite (.leaf _ _) (exitWith_obeys _)
  · exact .leaf _ _

theorem runParsed_obeys (name : Str) (program : Option Program) (error : Option (Str × Position)) :
    Obeys (runParsed self name program error) (· < 0) := by
  rcases error with _ | ⟨msg, pos⟩
  · cases program with
    | none => exact .pure _ _
    | some program => exact obey.mrshRunProgram program
  · exact .leaf _ _

theorem builtinEval_obeys (args : List Str) : Obeys (builtinEval self args) (· < 0) := by
  unfold builtinEval
  split
  · exact .leaf _ _
  · exact .leafBind fun (program, parser) => runParsed_obeys obey _ program parser.error

theorem builtinDot_obeys (args : List Str) : Obeys (builtinDot self args) (· < 0) := by
  unfold builtinDot
  split
  · refine .leafBind fun path => ?_
    cases path with
    | none => exact .leaf _ _
    | some path =>
        refine .leafBind fun opened => ?_
        cases opened with
        | error errno => exact .leafBind fun _ => .leaf _ _
        | ok fd =>
            refine .leafBind fun (program, error) => ?_
            exact .bindStatus (runParsed_obeys obey _ program error) (fun _ => .leafBind fun _ => .pure _ _)
              fun _ negative => (Passes.leaf _).bind fun _ => .pure negative
  · exact .leaf _ _

theorem builtinCommand_obeys (args : List Str) : Obeys (builtinCommand self args) (· < 0) := by
  refine .leafBind fun options => ?_
  cases options with
  | error status => exact .pure _ _
  | ok options =>
      refine .leafBind fun operands => ?_
      cases operands with
      | nil => exact .leaf _ _
      | cons name rest =>
          refine .ite (.ite (.leaf _ _) (.leaf _ _)) (.ite ?_ (.leaf _ _))
          exact .leafBind fun operands => obey.mrshRunBuiltin operands

theorem mrshRunBuiltin_obeys (args : List Str) : Obeys (mrshRunBuiltin self args) (· < 0) := by
  cases args with
  | nil => exact .leaf _ _
  | cons name rest =>
      rw [mrshRunBuiltin]
      split
      · exact .pure _ _
      · rename_i builtin _
        cases builtin.func with
        | dot => exact builtinDot_obeys obey _
        | «break» => exact builtinBreak_obeys _
        | command => exact builtinCommand_obeys obey _
        | eval => exact builtinEval_obeys obey _
        | exit => exact builtinExit_obeys _
        | «return» => exact builtinReturn_obeys _
        | _ => exact .leaf _ _

/-! ## Programs and traps -/

omit [System World] obey in
/-- Whatever the action of a trap runs, it leaves the mode as it is. -/
theorem runAction_still {α : Type} {action : Exec World α} {interrupts : α → Prop} (obeys : Obeys action interrupts) :
    Still (runAction action) := by
  intro state mode admits
  let entered : Shell World := { state with runningActions := state.runningActions + 1 }
  obtain ⟨new, history, intact, ends⟩ := obeys entered mode ⟨admits.exitSet, admits.intact⟩ fun outside => by
    exact absurd outside (Nat.succ_ne_zero _)
  have run : Exec.run (runAction action) state = (Exec.run action entered).andThen fun value after =>
      .done value { after with runningActions := after.runningActions - 1 } := by
    change Exec.run (action >>= _) entered = _
    rw [Exec.run_bind]
    rfl
  unfold Carries
  rw [run]
  cases ended : Exec.run action entered with
  | stopped reason after =>
      rw [ended] at history
      refine ⟨new, history, intact, ?_⟩
      intro value last stopped
      cases stopped
  | done value after =>
      rw [ended] at history
      obtain ⟨actions, inTrap, exits⟩ := ends value after ended
      have same := inTrap (Nat.succ_pos _)
      refine ⟨new, history, intact, ?_⟩
      intro result last finished
      obtain ⟨rfl, rfl⟩ := Outcome.done.inj finished
      refine ⟨?_, fun _ => same, fun exiting => ⟨(exits exiting).1, fun _ => ?_⟩⟩
      · change after.runningActions - 1 = state.runningActions
        rw [actions]
        rfl
      · rw [← same]
        exact exiting

omit [System World] obey in
theorem outOfFuel_still {α : Type} : Still (leaf outOfFuel : Exec World α) := .leaf _

theorem runPendingTrap_still (lastStatus : Int) (index fuel : Nat) :
    Still (runPendingTrap self.mrshRunProgram lastStatus index fuel) := by
  induction fuel with
  | zero => exact outOfFuel_still
  | succ fuel ih =>
      refine (Still.leaf _).bind fun _ => (Still.leaf _).bind fun count => (Still.leaf _).bind fun trap => ?_
      by_cases done : count ≤ 0
      · rw [if_pos done]
        exact .pure true
      · rw [if_neg done]
        cases if trap.set && trap.action == .catch then trap.program else none with
        | none => exact .pure true
        | some program =>
            refine (Still.leaf _).bind fun _ => (Still.leaf _).bind fun _ =>
              (runAction_still (obey.mrshRunProgram program.program)).bind fun ret => ?_
            by_cases failed : ret < 0
            · rw [if_pos failed]
              exact .pure false
            · rw [if_neg failed]
              exact (Still.leaf _).bind fun _ => (Still.leaf _).bind fun _ => (Still.leaf _).bind fun _ => ih

theorem runPendingTraps_still (fuel : Nat) : Still (runPendingTraps fuel self.mrshRunProgram) := by
  have loops : ∀ lastStatus indices, Still (runPendingTrapsLoop self.mrshRunProgram lastStatus fuel indices) := by
    intro lastStatus indices
    induction indices with
    | nil => exact (Still.leaf _).bind fun _ => .pure true
    | cons index indices ih =>
        apply (runPendingTrap_still obey lastStatus index fuel).bind
        intro completed
        cases completed with
        | true => exact (Still.leaf _).bind fun _ => ih
        | false => exact .pure false
  apply (Still.leaf _).bind
  intro inTrap
  cases inTrap with
  | true => exact .pure true
  | false => exact (Still.leaf _).bind fun _ => (Still.leaf _).bind fun lastStatus => loops lastStatus _

/-- The interruption of a program is handed on before anything else of it is run. -/
theorem runProgram_obeys (prog : Program) : Obeys (runProgram self prog) (· < 0) := by
  have traps := runPendingTraps_still obey self.fuel
  refine .bindStatus (runCommandListArray_obeys obey .initial prog.body) (fun ret => ?_) fun ret negative => ?_
  · refine traps.obeys.bindCalm fun _ => .ite ?_ (.pure _ _)
    exact (record_obeys (by decide)).bindCalm fun _ => .pure _ _
  · apply traps.passes.bind
    intro _
    have failed : ¬0 ≤ ret := by omega
    rw [if_neg failed]
    exact .pure negative

omit obey in
theorem tasks_obey (fuel : Nat) : TasksObey (tasks fuel : Tasks World) := by
  induction fuel with
  | zero => exact ⟨fun _ _ => .leaf _ _, fun _ _ => .leaf _ _, fun _ => .leaf _ _, fun _ => .leaf _ _⟩
  | succ fuel ih =>
      exact ⟨runWord_obeys ih, runCommand_obeys ih, runProgram_obeys ih, mrshRunBuiltin_obeys ih⟩

omit obey in
/-- In every run of a program, whether it ends or not, no simple command is run after the `exit` builtin, unless
a loop ends with a status that is not negative, or an operator `||` goes on, in between. Traps do not count. -/
theorem mrshRunProgram_nothingAfterExit (fuel : Nat) (prog : Program) (state : Shell World) :
    ∃ new, (Exec.run (mrshRunProgram fuel prog) state).state.history = state.history ++ new ∧
      NothingAfterExit new := by
  have admits : Admits .calm state := ⟨by simp, by simp⟩
  obtain ⟨new, history, intact, _⟩ := runProgram_obeys (tasks_obey fuel) prog state .calm admits fun _ => rfl
  exact ⟨new, history, nothingAfterExit_of_scan intact⟩

end

def exitCommandAlone : Command := .simpleCommand (literalCommand "exit".toList [])

def colonCommand : Command := .simpleCommand (literalCommand [':'] [])

/-- `exit || :`. -/
def exitOrColon : CommandList :=
  commandListOf (.binop .or (listOf exitCommandAlone).andOrList (listOf colonCommand).andOrList .invalid) none .invalid

/-- `exit || :` and `for x in a; do exit; done; :` run a command after `exit`. -/
theorem command_after_exit :
    (Exec.run (mrshRunProgram 8 ⟨[exitOrColon]⟩) newShell).state.history =
      [⟨.simpleCommand, false⟩, ⟨.exitBuiltin, false⟩, ⟨.orInterrupted, false⟩, ⟨.simpleCommand, false⟩,
        ⟨.programCompleted, false⟩] ∧
    (Exec.run (mrshRunProgram 8 ⟨[listOf (.forClause (forWord ['x'] ['a'] exitCommandAlone)), listOf colonCommand]⟩)
        newShell).state.history =
      [⟨.simpleCommand, false⟩, ⟨.exitBuiltin, false⟩, ⟨.loopInterrupted, false⟩, ⟨.simpleCommand, false⟩,
        ⟨.programCompleted, false⟩] := by
  decide +kernel

end Mrsh

import Mrsh.Shell.Task.Task

namespace Mrsh

open Mrsh.Data

/-! # The constructs around a running command

While a command runs, each construct around it waits for the status of one of its
parts. A frame is what the construct does with that status. The run of a program
that has reached a command in it is the run of that command, followed by the frames.
-/

section

variable {World : Type} [System World]

/-! ## Frames -/

/-- A loop that waits for its condition or its body, in the call `loopNum` levels deep.
Of a `while` or `until` loop so many `rounds` are left as there is fuel. -/
inductive LoopFrame where
  | condition (fuel : Nat) (ctx : Context) (lc : LoopClause) (loopNum : Int) (rounds : Nat) (loopRet : Int)
  | body (fuel : Nat) (ctx : Context) (lc : LoopClause) (loopNum : Int) (rounds : Nat)
  | forBody (fuel : Nat) (ctx : Context) (fc : ForClause) (loopNum : Int) (fields : List Str)

inductive Frame where
  | lists (fuel : Nat) (ctx : Context) (rest : List CommandList)
  | andLeft (fuel : Nat) (ctx : Context) (right : AndOrList)
  | orLeft (fuel : Nat) (ctx : Context) (right : AndOrList)
  | pipeline (bang : Bool)
  | redirected (fds : List SavedFd)
  | ifCondition (fuel : Nat) (ctx : Context) (ic : IfClause)
  | loop (frame : LoopFrame)

def runAndOr (fuel : Nat) (ctx : Context) (list : AndOrList) : Exec World Int :=
  runAndOrList (runPipeline (tasks fuel) ctx) (record .orInterrupted) list

def endOfBody (loopNum loopRet : Int) : Exec World Round :=
  if loopRet == taskStatusInterrupted then interruptLoop loopNum loopRet
  else if loopRet < 0 then pure (.fail loopRet)
  else pure (.again loopRet)

namespace LoopFrame

def level : LoopFrame → Int
  | condition _ _ _ loopNum _ _ => loopNum
  | body _ _ _ loopNum _ => loopNum
  | forBody _ _ _ loopNum _ => loopNum

/-- How the round ends in which the part has the given status. -/
def round : LoopFrame → Int → Exec World Round
  | condition fuel ctx lc loopNum _ loopRet, ret =>
      if ret == taskStatusInterrupted then interruptLoop loopNum loopRet
      else if ret < 0 then pure (.fail ret)
      else if breaksLoop lc.type ret then pure (.leave loopRet)
      else runLoopBody (tasks fuel) ctx loopNum lc.body
  | body _ _ _ loopNum _, ret => endOfBody loopNum ret
  | forBody _ _ _ loopNum _, ret => endOfBody loopNum ret

/-- The rounds that are left after this one. -/
def nextRounds : LoopFrame → Int → Exec World Int
  | condition fuel ctx lc loopNum rounds _, loopRet => loopRounds (tasks fuel) ctx lc loopNum rounds loopRet
  | body fuel ctx lc loopNum rounds, loopRet => loopRounds (tasks fuel) ctx lc loopNum rounds loopRet
  | forBody fuel ctx fc loopNum fields, loopRet => forRounds (tasks fuel) ctx fc loopNum fields loopRet

def afterRound (frame : LoopFrame) : Round → Exec World Int
  | .again loopRet => frame.nextRounds loopRet
  | .leave loopRet => leaveLoop loopRet
  | .fail ret => pure ret

end LoopFrame

/-- What is left of a construct once the part has the given status. -/
def Frame.resume : Frame → Int → Exec World Int
  | lists fuel ctx rest, ret =>
      if ret < 0 then pure ret
      else do
        leaf (setLastStatus ret)
        runLists (tasks fuel) ctx rest ret
  | andLeft fuel ctx right, ret => if ret != 0 then pure ret else runAndOr fuel ctx right
  | orLeft fuel ctx right, ret =>
      if ret == 0 then pure 0
      else do
        if ret < 0 then
          record .orInterrupted
        runAndOr fuel ctx right
  | pipeline bang, ret => pure (negate bang ret)
  | redirected fds, ret => do
      if ← leaf (restoreFds fds) then pure ret else pure taskStatusError
  | ifCondition fuel ctx ic, ret =>
      if ret < 0 then pure ret
      else if ret = 0 then runCommandListArray (tasks fuel) ctx ic.body
      else
        match ic.elsePart with
        | some elsePart => (tasks fuel).runCommand ctx elsePart
        | none => pure 0
  | loop frame, ret => do
      let round ← frame.round ret
      frame.afterRound round

/-- Resumes the frames from the innermost to the outermost. -/
def resumeAll : List Frame → Int → Exec World Int
  | [], ret => pure ret
  | frame :: frames, ret => do
      let ret ← frame.resume ret
      resumeAll frames ret

theorem resumeAll_append (inner outer : List Frame) (ret : Int) (state : Shell World) :
    Exec.run (resumeAll (inner ++ outer) ret) state =
      (Exec.run (resumeAll inner ret) state).andThen fun ret after => Exec.run (resumeAll outer ret) after := by
  induction inner generalizing ret state with
  | nil => rfl
  | cons frame inner ih =>
      rw [List.cons_append, resumeAll, resumeAll, Exec.run_bind, Exec.run_bind, Outcome.andThen_assoc]
      cases Exec.run (frame.resume ret) state with
      | done value after => exact ih value after
      | stopped reason after => rfl

/-- The levels of the loops among the frames, from the innermost. -/
def loopLevels : List Frame → List Int
  | [] => []
  | .loop frame :: frames => frame.level :: loopLevels frames
  | _ :: frames => loopLevels frames

theorem loopLevels_append (inner outer : List Frame) :
    loopLevels (inner ++ outer) = loopLevels inner ++ loopLevels outer := by
  induction inner with
  | nil => rfl
  | cons frame inner ih => cases frame <;> simp [loopLevels, ih]

/-! ## Entering a construct -/

/-- A run that begins with one construct goes on with a part of it, below the frame
that is left of the construct. There is none where the part is the last one. -/
inductive Enters : Exec World Int → Shell World → List Frame → Exec World Int → Shell World → Prop where
  | firstList {fuel ctx} {list : CommandList} {lists : List CommandList} {ret : Int} {state : Shell World}
      (synchronous : list.ampersand = false) :
      Enters (runLists (tasks fuel) ctx (list :: lists) ret) state [.lists fuel ctx lists]
        (runAndOr fuel ctx list.andOrList) state
  | nextList {fuel ctx} {list : CommandList} {lists : List CommandList} {ret status : Int} {state after : Shell World}
      (ended : Exec.run (runList (tasks fuel) ctx list) state = .done status after) (succeeded : 0 ≤ status) :
      Enters (runLists (tasks fuel) ctx (list :: lists) ret) state []
        (runLists (tasks fuel) ctx lists status) { after with lastStatus := status }
  | andLeft {fuel ctx} {left right : AndOrList} {range : Range} {state : Shell World} :
      Enters (runAndOr fuel ctx (.binop .and left right range)) state [.andLeft fuel ctx right]
        (runAndOr fuel ctx left) state
  | andRight {fuel ctx} {left right : AndOrList} {range : Range} {state after : Shell World}
      (ended : Exec.run (runAndOr fuel ctx left) state = .done 0 after) :
      Enters (runAndOr fuel ctx (.binop .and left right range)) state [] (runAndOr fuel ctx right) after
  | orLeft {fuel ctx} {left right : AndOrList} {range : Range} {state : Shell World} :
      Enters (runAndOr fuel ctx (.binop .or left right range)) state [.orLeft fuel ctx right]
        (runAndOr fuel ctx left) state
  | orRight {fuel ctx} {left right : AndOrList} {range : Range} {status : Int} {state after : Shell World}
      (ended : Exec.run (runAndOr fuel ctx left) state = .done status after) (failed : 0 < status) :
      Enters (runAndOr fuel ctx (.binop .or left right range)) state [] (runAndOr fuel ctx right) after
  | pipeline {fuel ctx inner} {pl : Pipeline} {cmd : Command} {state after : Shell World}
      (single : pl.commands = [cmd])
      (job : Leaf.run (withJob ctx (.andOrList (.pipeline pl))) state = .done inner after) :
      Enters (runAndOr fuel ctx (.pipeline pl)) state [.pipeline pl.bang] ((tasks fuel).runCommand inner cmd) after
  | braceGroup {fuel ctx} {bg : BraceGroup} {state : Shell World} :
      Enters ((tasks (fuel + 1)).runCommand ctx (.braceGroup bg)) state [] (runLists (tasks fuel) ctx bg.body 0) state
  | ifCondition {fuel ctx} {ic : IfClause} {state : Shell World} :
      Enters ((tasks (fuel + 1)).runCommand ctx (.ifClause ic)) state [.ifCondition fuel ctx ic]
        (runLists (tasks fuel) ctx ic.condition 0) state
  | ifBody {fuel ctx} {ic : IfClause} {state after : Shell World}
      (ended : Exec.run (runLists (tasks fuel) ctx ic.condition 0) state = .done 0 after) :
      Enters ((tasks (fuel + 1)).runCommand ctx (.ifClause ic)) state [] (runLists (tasks fuel) ctx ic.body 0) after
  | ifElse {fuel ctx} {ic : IfClause} {elsePart : Command} {status : Int} {state after : Shell World}
      (ended : Exec.run (runLists (tasks fuel) ctx ic.condition 0) state = .done status after) (failed : 0 < status)
      (present : ic.elsePart = some elsePart) :
      Enters ((tasks (fuel + 1)).runCommand ctx (.ifClause ic)) state [] ((tasks fuel).runCommand ctx elsePart) after
  | loopClause {fuel ctx} {lc : LoopClause} {state : Shell World} :
      Enters ((tasks (fuel + 1)).runCommand ctx (.loopClause lc)) state []
        (loopRounds (tasks fuel) ctx lc (state.nloops + 1) (tasks fuel : Tasks World).fuel 0)
        { state with nloops := state.nloops + 1 }
  | loopCondition {fuel ctx} {lc : LoopClause} {loopNum loopRet : Int} {rounds : Nat} {state : Shell World}
      (running : state.exit = -1) :
      Enters (loopRounds (tasks fuel) ctx lc loopNum (rounds + 1) loopRet) state
        [.loop (.condition fuel ctx lc loopNum rounds loopRet)] (runLists (tasks fuel) ctx lc.condition 0) state
  | loopBody {fuel ctx} {lc : LoopClause} {loopNum loopRet status : Int} {rounds : Nat} {state after : Shell World}
      (running : state.exit = -1)
      (ended : Exec.run (runLists (tasks fuel) ctx lc.condition 0) state = .done status after) (succeeded : 0 ≤ status)
      (goesOn : breaksLoop lc.type status = false) :
      Enters (loopRounds (tasks fuel) ctx lc loopNum (rounds + 1) loopRet) state
        [.loop (.body fuel ctx lc loopNum rounds)] (runLists (tasks fuel) ctx lc.body 0) after
  | loopAgain {fuel ctx} {lc : LoopClause} {loopNum loopRet next : Int} {rounds : Nat} {state after : Shell World}
      (running : state.exit = -1)
      (ended : Exec.run (loopRound (tasks fuel) ctx lc loopNum loopRet) state = .done (.again next) after) :
      Enters (loopRounds (tasks fuel) ctx lc loopNum (rounds + 1) loopRet) state []
        (loopRounds (tasks fuel) ctx lc loopNum rounds next) after
  | forClause {fuel ctx fields} {fc : ForClause} {status : Int} {state after : Shell World}
      (expanded : Exec.run (expandWords (tasks fuel) ctx fc.wordList) { state with nloops := state.nloops + 1 } =
        .done (status, fields) after) (succeeded : 0 ≤ status) :
      Enters ((tasks (fuel + 1)).runCommand ctx (.forClause fc)) state []
        (forRounds (tasks fuel) ctx fc (state.nloops + 1) fields 0) after
  | forBody {fuel ctx field fields} {fc : ForClause} {loopNum loopRet : Int} {state : Shell World}
      (running : state.exit = -1) :
      Enters (forRounds (tasks fuel) ctx fc loopNum (field :: fields) loopRet) state
        [.loop (.forBody fuel ctx fc loopNum fields)] (runLists (tasks fuel) ctx fc.body 0)
        (writeVar state fc.name (some ⟨field, .none⟩))
  | forAgain {fuel ctx field fields} {fc : ForClause} {loopNum loopRet next : Int} {state after : Shell World}
      (running : state.exit = -1)
      (ended : Exec.run (runLoopBody (tasks fuel) ctx loopNum fc.body) (writeVar state fc.name (some ⟨field, .none⟩)) =
        .done (.again next) after) :
      Enters (forRounds (tasks fuel) ctx fc loopNum (field :: fields) loopRet) state []
        (forRounds (tasks fuel) ctx fc loopNum fields next) after
  | caseClause {fuel ctx word wordStr} {cc : CaseClause} {status : Int} {state between after : Shell World}
      (copied : Leaf.run (do let word ← copyWord cc.word; expandTildeWord word false) state = .done word between)
      {expanded : Word} (ended : Exec.run (runWord (tasks fuel) ctx word) between = .done (status, expanded) after)
      (succeeded : 0 ≤ status) (str : mrshWordStr expanded = some wordStr) :
      Enters ((tasks (fuel + 1)).runCommand ctx (.caseClause cc)) state []
        (runCaseItems (tasks fuel) ctx wordStr cc.items) after
  | caseItem {fuel ctx wordStr} {ci : CaseItem} {items : List CaseItem} {state after : Shell World}
      (ended : Exec.run
        (matchPatterns (tasks fuel) ctx ci.addr wordStr [] ((state.casePatterns ci.addr).getD ci.patterns))
        state = .done (.ok true) after) :
      Enters (runCaseItems (tasks fuel) ctx wordStr (ci :: items)) state [] (runLists (tasks fuel) ctx ci.body 0) after
  | nextCaseItem {fuel ctx wordStr} {ci : CaseItem} {items : List CaseItem} {state after : Shell World}
      (ended : Exec.run
        (matchPatterns (tasks fuel) ctx ci.addr wordStr [] ((state.casePatterns ci.addr).getD ci.patterns))
        state = .done (.ok false) after) :
      Enters (runCaseItems (tasks fuel) ctx wordStr (ci :: items)) state []
        (runCaseItems (tasks fuel) ctx wordStr items) after
  | builtin {fuel ctx generation name copy args fds} {sc expanded : SimpleCommand}
      {state numbered prepared traced after : Shell World} (named : sc.name = some name)
      (serial : Leaf.run newSerial
        { state with history := state.history ++ [⟨.simpleCommand, 0 < state.runningActions⟩] } =
          .done generation numbered)
      (copied : simpleCommandCopy generation sc = some copy)
      (ended : Exec.run (expandCommand (tasks fuel) ctx copy name) numbered = .done (.ok (expanded, args)) prepared)
      (trace : Exec.run (traceCommand (tasks fuel) args) prepared = .done () traced)
      (noFunction : traced.functions.get (args.headD []) = none) (isBuiltin : mrshHasBuiltin (args.headD []) = true)
      (redirected : Leaf.run (redirectBuiltin expanded.ioRedirects) traced = .done (some fds) after) :
      Enters ((tasks (fuel + 1)).runCommand ctx (.simpleCommand sc)) state [.redirected fds]
        ((tasks fuel).mrshRunBuiltin args) after

/-- A run from the first state reaches the second program in the second state, below the frames. -/
inductive Reaches (prog : Exec World Int) (state : Shell World) : List Frame → Exec World Int → Shell World → Prop where
  | start : Reaches prog state [] prog state
  | enter {frames entered : List Frame} {middle inner : Exec World Int} {between after : Shell World}
      (reached : Reaches prog state frames middle between) (enters : Enters middle between entered inner after) :
      Reaches prog state (entered ++ frames) inner after

/-! ## The run of what is reached -/

theorem resumeAll_nil {outcome : Outcome Ending (Shell World) Int} :
    (outcome.andThen fun ret after => Exec.run (resumeAll [] ret) after) = outcome := outcome.andThen_pure

theorem resumeAll_single {frame : Frame} {outcome : Outcome Ending (Shell World) Int} :
    (outcome.andThen fun ret after => Exec.run (resumeAll [frame] ret) after) =
      outcome.andThen fun ret after => Exec.run (frame.resume ret) after := by
  have resumed : (fun ret (after : Shell World) => Exec.run (resumeAll [frame] ret) after) =
      fun ret after => Exec.run (frame.resume ret) after := by
    funext ret after
    rw [resumeAll, Exec.run_bind]
    exact resumeAll_nil
  rw [resumed]

theorem resume_loop (frame : LoopFrame) (ret : Int) (state : Shell World) :
    Exec.run ((Frame.loop frame).resume ret) state =
      (Exec.run (frame.round ret) state).andThen fun round after => Exec.run (frame.afterRound round) after :=
  Exec.run_bind state _ _

/-- A round ends in the same way whichever part of the loop was the last. -/
theorem afterRound_condition {fuel rounds : Nat} {ctx : Context} {lc : LoopClause} {loopNum loopRet : Int} :
    ((LoopFrame.condition fuel ctx lc loopNum rounds loopRet).afterRound : Round → Exec World Int) =
      (LoopFrame.body fuel ctx lc loopNum rounds).afterRound := by
  funext round
  cases round <;> rfl

theorem loopRounds_run {fuel rounds : Nat} {ctx : Context} {lc : LoopClause} {loopNum loopRet : Int}
    {state : Shell World} (running : state.exit = -1) :
    Exec.run (loopRounds (tasks fuel) ctx lc loopNum (rounds + 1) loopRet) state =
      (Exec.run (loopRound (tasks fuel) ctx lc loopNum loopRet) state).andThen fun round after =>
        Exec.run ((LoopFrame.body fuel ctx lc loopNum rounds).afterRound round) after := by
  rw [loopRounds, Exec.run_gets_bind, running, Exec.run_ite, if_neg (by decide), Exec.run_bind]
  rfl

theorem forRounds_run {fuel : Nat} {ctx : Context} {fc : ForClause} {loopNum loopRet : Int} {field : Str}
    {fields : List Str} {state : Shell World} (running : state.exit = -1) :
    Exec.run (forRounds (tasks fuel) ctx fc loopNum (field :: fields) loopRet) state =
      (Exec.run (runLoopBody (tasks fuel) ctx loopNum fc.body) (writeVar state fc.name (some ⟨field, .none⟩))).andThen
        fun round after => Exec.run ((LoopFrame.forBody fuel ctx fc loopNum fields).afterRound round) after := by
  rw [forRounds, Exec.run_gets_bind, running, Exec.run_ite, if_neg (by decide), Exec.run_bind, Exec.run_leaf]
  change (Exec.run (runLoopBody (tasks fuel) ctx loopNum fc.body >>= _) _) = _
  rw [Exec.run_bind]
  rfl

theorem runLoopBody_run {fuel : Nat} {ctx : Context} {loopNum : Int} {body : List CommandList} {state : Shell World} :
    Exec.run (runLoopBody (tasks fuel) ctx loopNum body) state =
      (Exec.run (runLists (tasks fuel) ctx body 0) state).andThen fun ret after =>
        Exec.run (endOfBody loopNum ret) after := by
  rw [runLoopBody, Exec.run_bind]
  rfl

theorem runSimpleCommand_builtin {self : Tasks World} {ctx : Context} {generation : Nat} {name : Word}
    {copy sc expanded : SimpleCommand} {args : List Str} {fds : List SavedFd}
    {state numbered prepared traced after : Shell World} (named : sc.name = some name)
    (serial : Leaf.run newSerial
      { state with history := state.history ++ [⟨.simpleCommand, 0 < state.runningActions⟩] } =
        .done generation numbered)
    (copied : simpleCommandCopy generation sc = some copy)
    (ended : Exec.run (expandCommand self ctx copy name) numbered = .done (.ok (expanded, args)) prepared)
    (trace : Exec.run (traceCommand self args) prepared = .done () traced)
    (noFunction : traced.functions.get (args.headD []) = none) (isBuiltin : mrshHasBuiltin (args.headD []) = true)
    (redirected : Leaf.run (redirectBuiltin expanded.ioRedirects) traced = .done (some fds) after) :
    Exec.run (runSimpleCommand self ctx sc) state =
      (Exec.run (self.mrshRunBuiltin args) after).andThen fun ret last =>
        Exec.run ((Frame.redirected fds).resume ret) last := by
  have recorded : Exec.run (record .simpleCommand) state =
      .done () { state with history := state.history ++ [⟨.simpleCommand, 0 < state.runningActions⟩] } := rfl
  rw [runSimpleCommand, Exec.run_bind_of_done recorded, named]
  simp only [Exec.run_bind, Exec.run_leaf, serial, Outcome.andThen_done, copied, orCrash_some, Leaf.run_pure, ended]
  rw [runExpanded, Exec.run_bind_of_done trace, Exec.run_gets_bind, noFunction]
  simp only [isBuiltin, if_true]
  rw [runBuiltin, Exec.run_leaf_bind_of_done redirected, Exec.run_bind]
  rfl

variable {prog inner : Exec World Int} {state after : Shell World} {frames : List Frame}

/-- The run of a construct is the run of the part, and what is left of the construct. -/
theorem Enters.run (enters : Enters prog state frames inner after) :
    Exec.run prog state =
      (Exec.run inner after).andThen fun ret last => Exec.run (resumeAll frames ret) last := by
  cases enters with
  | firstList synchronous =>
      rw [resumeAll_single, runLists, Exec.run_bind, runList, synchronous]
      rfl
  | nextList ended succeeded =>
      have notFailed : ¬_ < (0 : Int) := Int.not_lt.mpr succeeded
      rw [resumeAll_nil, runLists, Exec.run_bind_of_done ended, Exec.run_ite, if_neg notFailed]
      rfl
  | andLeft =>
      rw [resumeAll_single, runAndOr, runAndOrList, Exec.run_bind]
      rfl
  | andRight ended =>
      rw [runAndOr] at ended
      rw [resumeAll_nil, runAndOr, runAndOrList, Exec.run_bind_of_done ended, Exec.run_ite,
        if_neg (by decide)]
      rfl
  | orLeft =>
      rw [resumeAll_single, runAndOr, runAndOrList, Exec.run_bind]
      rfl
  | @orRight _ _ _ _ _ status _ _ ended failed =>
      have nonzero : ¬(status == 0) = true := by
        have different : status ≠ 0 := by omega
        simpa using different
      have succeeded : ¬status < 0 := by omega
      rw [runAndOr] at ended
      rw [resumeAll_nil, runAndOr, runAndOrList, Exec.run_bind_of_done ended, Exec.run_ite, if_neg nonzero]
      change Exec.run (if _ < (0 : Int) then _ else runAndOr _ _ _) _ = _
      rw [if_neg succeeded]
  | pipeline single job =>
      rw [resumeAll_single]
      change Exec.run (runPipeline _ _ _) state = _
      rw [runPipeline, Exec.run_leaf_bind_of_done job, single, Exec.run_bind]
      rfl
  | braceGroup =>
      rw [resumeAll_nil]
      rfl
  | ifCondition =>
      rw [resumeAll_single]
      change Exec.run (runIfClause _ _ _) state = _
      rw [runIfClause, Exec.run_bind]
      rfl
  | ifBody ended =>
      rw [resumeAll_nil]
      change Exec.run (runIfClause _ _ _) state = _
      rw [runIfClause, Exec.run_bind]
      change (Exec.run (runLists _ _ _ 0) state).andThen _ = _
      rw [ended, Outcome.andThen_done, Exec.run_ite, if_neg (by decide), Exec.run_ite, if_pos rfl]
      rfl
  | ifElse ended failed present =>
      rw [resumeAll_nil]
      change Exec.run (runIfClause _ _ _) state = _
      rw [runIfClause, Exec.run_bind]
      change (Exec.run (runLists _ _ _ 0) state).andThen _ = _
      rw [ended, Outcome.andThen_done, Exec.run_ite, if_neg (by omega), Exec.run_ite, if_neg (by omega), present]
  | loopClause =>
      rw [resumeAll_nil]
      rfl
  | @loopCondition fuel ctx lc loopNum loopRet rounds _ running =>
      rw [resumeAll_single, loopRounds_run running, loopRound, Exec.run_bind, Outcome.andThen_assoc,
        ← @afterRound_condition _ _ fuel rounds ctx lc loopNum loopRet]
      simp only [resume_loop]
      rfl
  | @loopBody _ _ _ _ _ status _ _ _ running ended succeeded goesOn =>
      rw [resumeAll_single, loopRounds_run running, loopRound, Exec.run_bind]
      change ((Exec.run (runLists _ _ _ 0) state).andThen _).andThen _ = _
      have notFailed : ¬status < 0 := Int.not_lt.mpr succeeded
      have notInterrupted : ¬(status == taskStatusInterrupted) = true := by
        intro same
        rw [beq_iff_eq.mp same] at notFailed
        exact notFailed (by decide)
      rw [ended, Outcome.andThen_done, Exec.run_ite, if_neg notInterrupted, Exec.run_ite, if_neg notFailed, goesOn,
        Exec.run_ite, if_neg (by decide), runLoopBody_run, Outcome.andThen_assoc]
      simp only [resume_loop]
      rfl
  | loopAgain running ended =>
      rw [resumeAll_nil, loopRounds_run running, ended]
      rfl
  | forClause expanded succeeded =>
      have notFailed : ¬_ < (0 : Int) := Int.not_lt.mpr succeeded
      have entered : Exec.run enterLoop state = .done (state.nloops + 1) { state with nloops := state.nloops + 1 } :=
        rfl
      rw [resumeAll_nil]
      change Exec.run (runForClause _ _ _) state = _
      rw [runForClause, Exec.run_bind_of_done entered, Exec.run_bind_of_done expanded]
      change Exec.run (if _ < (0 : Int) then _ else _) _ = _
      rw [Exec.run_ite, if_neg notFailed]
  | forBody running =>
      rw [resumeAll_single, forRounds_run running, runLoopBody_run, Outcome.andThen_assoc]
      simp only [resume_loop]
      rfl
  | forAgain running ended =>
      rw [resumeAll_nil, forRounds_run running, ended]
      rfl
  | caseClause copied ended succeeded str =>
      have notFailed : ¬_ < (0 : Int) := Int.not_lt.mpr succeeded
      obtain ⟨word, between, copied, expanded⟩ := Leaf.run_bind_done.mp copied
      rw [resumeAll_nil]
      change Exec.run (runCaseClause _ _ _) state = _
      rw [runCaseClause, Exec.run_leaf_bind_of_done copied, Exec.run_leaf_bind_of_done expanded,
        Exec.run_bind_of_done ended]
      change Exec.run (if _ < (0 : Int) then _ else _) _ = _
      rw [Exec.run_ite, if_neg notFailed, str]
      rfl
  | caseItem ended =>
      rw [resumeAll_nil, runCaseItems, Exec.run_gets_bind, Exec.run_bind, ended]
      rfl
  | nextCaseItem ended =>
      rw [resumeAll_nil, runCaseItems, Exec.run_gets_bind, Exec.run_bind, ended]
      rfl
  | builtin named serial copied ended trace noFunction isBuiltin redirected =>
      rw [resumeAll_single]
      exact runSimpleCommand_builtin named serial copied ended trace noFunction isBuiltin redirected

/-- The run of a program that has reached a part goes on with that part and its frames. -/
theorem Reaches.run (reached : Reaches prog state frames inner after) :
    Exec.run prog state =
      (Exec.run inner after).andThen fun ret last => Exec.run (resumeAll frames ret) last := by
  induction reached with
  | start => exact resumeAll_nil.symm
  | enter reached enters ih =>
      rw [ih, enters.run, Outcome.andThen_assoc]
      congr 1
      funext ret last
      exact (resumeAll_append _ _ ret last).symm

end

end Mrsh

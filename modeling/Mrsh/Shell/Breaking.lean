import Mrsh.Numerals
import Mrsh.Shell.Frames

namespace Mrsh

open Mrsh.Data

/-! # Leaving loops

`break n` and `continue n` set the level of the loops back by `n - 1`, and each loop
that is interrupted compares its own level to it. A loop that is above the level
interrupts the loop around it, and sets the level back once more.
-/

section

variable {World : Type} [System World]

/-! ## Loops that are left -/

/-- The interruption ends at this loop: `break` leaves it with status 0, `continue` goes on
with the next round. The level is then the number of the loops that are running. -/
def StopsAt (branch : BranchControl) (loop : LoopFrame) (outer : List Frame) (state : Shell World) : Prop :=
  match branch with
  | .continue =>
      ∃ loopRet, Exec.run (loop.round taskStatusInterrupted) state = .done (.again loopRet) state ∧
        state.nloops = (loopLevels outer).length + 1
  | _ =>
      ∃ after, Exec.run (loop.round taskStatusInterrupted) state = .done (.leave 0) after ∧
        after.nloops - 1 = (loopLevels outer).length

/-- An interruption passes through the frames and ends at the loop with the given number,
counted from the innermost. Nothing else is run before. -/
inductive LoopsLeft (branch : BranchControl) : List Frame → Nat → Shell World → Prop where
  | pass {frame frames left state} (noLoop : loopLevels [frame] = [])
      (passes : Exec.run (frame.resume taskStatusInterrupted) state = .done taskStatusInterrupted state)
      (rest : LoopsLeft branch frames left state) : LoopsLeft branch (frame :: frames) left state
  | leave {loop frames left state}
      (leaves : Exec.run (loop.round taskStatusInterrupted) state = .done (.leave taskStatusInterrupted) state)
      (rest : LoopsLeft branch frames left { state with nloops := state.nloops - 1 }) :
      LoopsLeft branch (.loop loop :: frames) (left + 1) state
  | stop {loop frames state} (stops : StopsAt branch loop frames state) :
      LoopsLeft branch (.loop loop :: frames) 1 state

/-- The number that the builtin reads: `strtol` clamps it, the conversion to `int` cuts it off. -/
def loopNumber (n : Nat) : Int := toInt32 (clampLong n)

/-- `argv0 n`, with the frames around it, leaves the innermost loops as it should: `n` of them
or all, the last of which goes on after `continue`. -/
def LeavesLoops (argv0 : Str) (n fuel : Nat) (prog : Exec World Int) (start : Shell World) (frames : List Frame)
    (state : Shell World) : Prop :=
  ∃ after, Exec.run (mrshRunBuiltin (tasks fuel) [argv0, decimal n]) state = .done taskStatusInterrupted after ∧
    Exec.run prog start = Exec.run (resumeAll frames taskStatusInterrupted) after ∧
    LoopsLeft (branchOf argv0) frames (min n (loopLevels frames).length) after

/-! ## What the levels decide -/

/-- Starting with the counter after the builtin, it is below the level of each loop that is to
be left on the way, and not below the level of the last one, where it is the number of loops.
No command between is the left operand of `||`, which would pass over the interruption. -/
def StopsAfter : List Frame → Nat → Int → Prop
  | [], _, _ => False
  | .orLeft _ _ _ :: _, _, _ => False
  | .loop loop :: frames, 0, counter => loop.level ≤ counter ∧ counter = (loopLevels frames).length + 1
  | .loop loop :: frames, left + 1, counter => counter < loop.level ∧ StopsAfter frames left (counter - 1)
  | _ :: frames, left, counter => StopsAfter frames left counter

theorem stopsAfter_noLoop {frame : Frame} {frames : List Frame} (noLoop : loopLevels [frame] = [])
    (noOr : ∀ fuel ctx right, frame ≠ .orLeft fuel ctx right) (left : Nat) (counter : Int) :
    StopsAfter (frame :: frames) left counter = StopsAfter frames left counter := by
  cases frame with
  | orLeft fuel ctx right => exact absurd rfl (noOr fuel ctx right)
  | loop loop => exact absurd noLoop (List.cons_ne_nil _ _)
  | _ => cases left <;> rfl

theorem round_interrupted (loop : LoopFrame) :
    ∃ loopRet, (loop.round taskStatusInterrupted : Exec World Round) = interruptLoop loop.level loopRet := by
  cases loop with
  | condition fuel ctx lc loopNum rounds loopRet => exact ⟨loopRet, rfl⟩
  | body fuel ctx lc loopNum rounds => exact ⟨taskStatusInterrupted, rfl⟩
  | forBody fuel ctx fc loopNum fields => exact ⟨taskStatusInterrupted, rfl⟩

omit [System World] in
theorem interruptLoop_run (loopNum loopRet : Int) (state : Shell World) :
    Exec.run (interruptLoop loopNum loopRet) state =
      if state.nloops < loopNum then .done (.leave taskStatusInterrupted) state
      else if state.branchControl = .continue then .done (.again loopRet) state
      else .done (.leave 0)
        { state with history := state.history ++ [⟨.loopInterrupted, 0 < state.runningActions⟩] } := by
  rw [interruptLoop, Exec.run_gets_bind, Exec.run_ite]
  split
  · rfl
  · obtain ⟨noted, same⟩ : ∃ noted : Shell World, noted =
        { state with history := state.history ++ [⟨.loopInterrupted, 0 < state.runningActions⟩] } := ⟨_, rfl⟩
    rw [← same, Exec.run_gets_bind]
    cases state.branchControl with
    | «continue» => rfl
    | «break» | «return» | «exit» =>
        rw [same]
        rfl

/-- A loop above the counter leaves the interruption to the loop around it. -/
theorem round_leaves_iff (loop : LoopFrame) (state : Shell World) :
    Exec.run (loop.round taskStatusInterrupted) state = .done (.leave taskStatusInterrupted) state ↔
      state.nloops < loop.level := by
  obtain ⟨loopRet, round⟩ := @round_interrupted World _ loop
  rw [round, interruptLoop_run]
  split
  · simp [*]
  · split <;> simp [*, taskStatusInterrupted]

theorem stopsAt_iff {branch : BranchControl} (loop : LoopFrame) (outer : List Frame) {state : Shell World}
    (same : state.branchControl = branch) :
    StopsAt branch loop outer state ↔ loop.level ≤ state.nloops ∧ state.nloops = (loopLevels outer).length + 1 := by
  obtain ⟨loopRet, round⟩ := @round_interrupted World _ loop
  unfold StopsAt
  rw [round, interruptLoop_run, same]
  by_cases below : state.nloops < loop.level
  · have notAbove : ¬loop.level ≤ state.nloops := by omega
    cases branch <;> simp [below, notAbove, taskStatusInterrupted]
  · have above : loop.level ≤ state.nloops := by omega
    cases branch <;> simp [below, above] <;> omega

/-! ## The history grows -/

def HistoryGrows (before after : Shell World) : Prop := before.history.length ≤ after.history.length

instance : Std.Refl (HistoryGrows : Shell World → Shell World → Prop) := ⟨fun _ => Nat.le_refl _⟩

instance : IsTrans (Shell World) HistoryGrows := ⟨fun _ _ _ first second => Nat.le_trans first second⟩

omit [System World] in
theorem exec_historyGrows (prog : Exec World Int) : Run.Respects HistoryGrows (Exec.run prog) := by
  apply Prog.run_respects
  rintro (action | action) before
  · cases action with
    | assign key var =>
        simp only [Prog.Handler.sum, handleLeaf]
        split <;> exact Nat.le_refl _
    | _ => exact Nat.le_refl _
  · cases action with
    | record event => simp [HistoryGrows, Prog.Handler.sum, handleControl]
    | pop =>
        simp only [Prog.Handler.sum, handleControl]
        split <;> exact Nat.le_refl _
    | _ => exact Nat.le_refl _

theorem orLeft_resume_ne {fuel : Nat} {ctx : Context} {right : AndOrList} (state : Shell World) :
    Exec.run ((Frame.orLeft fuel ctx right).resume taskStatusInterrupted) state ≠
      .done taskStatusInterrupted state := by
  intro passes
  have noted : Exec.run (runAndOr fuel ctx right)
      { state with history := state.history ++ [⟨.orInterrupted, 0 < state.runningActions⟩] } =
      .done taskStatusInterrupted state := passes
  have grown := (exec_historyGrows (runAndOr fuel ctx right)).done noted
  simp only [HistoryGrows, List.length_append, List.length_singleton] at grown
  omega

/-! ## All frames -/

/-- Redirections that were not changed are restored without a call. -/
def Frame.Plain : Frame → Prop
  | redirected fds => fds = []
  | _ => True

/-- Of the constructs that are no loops, only `||` does not pass an interruption on. -/
theorem resume_passes {frame : Frame} (noLoop : loopLevels [frame] = []) (plain : frame.Plain)
    (noOr : ∀ fuel ctx right, frame ≠ .orLeft fuel ctx right) (state : Shell World) :
    Exec.run (frame.resume taskStatusInterrupted) state = .done taskStatusInterrupted state := by
  cases frame with
  | lists fuel ctx rest => rfl
  | andLeft fuel ctx right => rfl
  | orLeft fuel ctx right => exact absurd rfl (noOr fuel ctx right)
  | pipeline bang => cases bang <;> rfl
  | redirected fds =>
      obtain rfl : fds = [] := plain
      rfl
  | ifCondition fuel ctx ic => rfl
  | loop loop => exact absurd noLoop (List.cons_ne_nil _ _)

theorem loopsLeft_noLoop {branch : BranchControl} {frame : Frame} {frames : List Frame} {left : Nat}
    {state : Shell World} (noLoop : loopLevels [frame] = []) :
    LoopsLeft branch (frame :: frames) left state ↔
      Exec.run (frame.resume taskStatusInterrupted) state = .done taskStatusInterrupted state ∧
        LoopsLeft branch frames left state := by
  constructor
  · rintro (⟨_, passes, rest⟩ | _ | _)
    · exact ⟨passes, rest⟩
    · exact absurd noLoop (List.cons_ne_nil _ _)
    · exact absurd noLoop (List.cons_ne_nil _ _)
  · rintro ⟨passes, rest⟩
    exact .pass noLoop passes rest

theorem LoopsLeft.positive {branch : BranchControl} {frames : List Frame} {left : Nat} {state : Shell World}
    (leaves : LoopsLeft branch frames left state) : 0 < left := by
  induction leaves with
  | pass noLoop passes rest ih => exact ih
  | leave leaves rest ih => exact Nat.succ_pos _
  | stop stops => exact Nat.one_pos

theorem loopsLeft_iff {branch : BranchControl} {frames : List Frame} (plain : ∀ frame ∈ frames, frame.Plain)
    (left : Nat) {state : Shell World} (same : state.branchControl = branch) :
    LoopsLeft branch frames (left + 1) state ↔ StopsAfter frames left state.nloops := by
  induction frames generalizing left state with
  | nil =>
      simp only [StopsAfter, iff_false]
      intro leaves
      cases leaves
  | cons frame frames ih =>
      rw [List.forall_mem_cons] at plain
      cases frame with
      | orLeft fuel ctx right =>
          rw [loopsLeft_noLoop rfl]
          simp [orLeft_resume_ne, StopsAfter]
      | loop loop =>
          cases left with
          | zero =>
              rw [StopsAfter, ← stopsAt_iff loop frames same]
              constructor
              · rintro (_ | ⟨_, rest⟩ | stops)
                · exact absurd ‹_› (List.cons_ne_nil _ _)
                · exact absurd rest.positive (Nat.lt_irrefl 0)
                · exact stops
              · exact .stop
          | succ left =>
              have outer := @ih plain.2 left { state with nloops := state.nloops - 1 } same
              rw [StopsAfter, ← round_leaves_iff, ← outer]
              constructor
              · rintro (_ | ⟨leaves, rest⟩ | _)
                · exact absurd ‹_› (List.cons_ne_nil _ _)
                · exact ⟨leaves, rest⟩
              · rintro ⟨leaves, rest⟩
                exact .leave leaves rest
      | lists _ _ _ | andLeft _ _ _ | pipeline _ | redirected _ | ifCondition _ _ _ =>
          rw [loopsLeft_noLoop rfl, stopsAfter_noLoop rfl (by simp), ← ih plain.2 left same]
          simp only [resume_passes rfl plain.1 (by simp) state, true_and]

/-! ## The builtin -/

theorem breakBuiltin_run {argv0 : Str} (isBreak : argv0 = "break".toList ∨ argv0 = "continue".toList) (n fuel : Nat)
    (state : Shell World) :
    if 0 ≤ loopNumber n then
      Exec.run (mrshRunBuiltin (tasks fuel) [argv0, decimal n]) state =
        .done taskStatusInterrupted { state with
          nloops := state.nloops - (min (loopNumber n) state.nloops - 1)
          branchControl := branchOf argv0 }
    else ∃ after, Exec.run (mrshRunBuiltin (tasks fuel) [argv0, decimal n]) state = .done 1 after := by
  have called : mrshRunBuiltin (tasks fuel : Tasks World) [argv0, decimal n] = builtinBreak [argv0, decimal n] := by
    rcases isBreak with rfl | rfl <;> rfl
  have named : argv0.isEmpty = false := by
    rcases isBreak with rfl | rfl <;> rfl
  have scanned := strtol_decimal_clamped n 10 (.inr rfl)
  rw [called, builtinBreak]
  simp only [List.headD_cons, scanned, List.isEmpty_nil, Bool.not_true, Bool.false_or, named, decide_eq_true_eq]
  by_cases readable : 0 ≤ loopNumber n
  · have notNegative : ¬toInt32 (clampLong n) < 0 := Int.not_lt.mpr readable
    rw [if_pos readable, if_neg notNegative]
    rfl
  · have negative : toInt32 (clampLong n) < 0 := Int.not_le.mp readable
    rw [if_neg readable, if_pos negative]
    exact ⟨_, rfl⟩

theorem leavesLoops_iff {argv0 : Str} {n fuel : Nat} {prog : Exec World Int} {start state : Shell World}
    {frames : List Frame} (isBreak : argv0 = "break".toList ∨ argv0 = "continue".toList) (positive : 1 ≤ n)
    (inLoop : loopLevels frames ≠ []) (plain : ∀ frame ∈ frames, frame.Plain)
    (reached : Reaches prog start frames (mrshRunBuiltin (tasks fuel) [argv0, decimal n]) state) :
    LeavesLoops argv0 n fuel prog start frames state ↔
      0 ≤ loopNumber n ∧ StopsAfter frames (min n (loopLevels frames).length - 1)
        (state.nloops - (min (loopNumber n) state.nloops - 1)) := by
  have loops : 1 ≤ (loopLevels frames).length := List.length_pos_of_ne_nil inLoop
  have ran := breakBuiltin_run isBreak n fuel state
  have number : min n (loopLevels frames).length = (min n (loopLevels frames).length - 1) + 1 := by omega
  unfold LeavesLoops
  rw [reached.run]
  by_cases readable : 0 ≤ loopNumber n
  · rw [if_pos readable] at ran
    simp only [ran, readable, true_and, Outcome.done.injEq, exists_eq_left', Outcome.andThen_done]
    rw [number]
    exact loopsLeft_iff plain _ rfl
  · rw [if_neg readable] at ran
    obtain ⟨after, ran⟩ := ran
    simp [ran, readable, taskStatusInterrupted]

/-- Where `break` leaves the loops, the run goes on after the last of them, with status 0. -/
theorem LoopsLeft.goesBehind {frames : List Frame} {left : Nat} {state : Shell World}
    (leaves : LoopsLeft .break frames left state) :
    ∃ inner outer last, frames = inner ++ outer ∧ (loopLevels inner).length = left ∧
      Exec.run (resumeAll frames taskStatusInterrupted) state = Exec.run (resumeAll outer 0) last ∧
      last.nloops = (loopLevels outer).length := by
  induction leaves with
  | @pass frame frames left state noLoop passes rest ih =>
      obtain ⟨inner, outer, last, split, count, run, level⟩ := ih
      refine ⟨frame :: inner, outer, last, by rw [split]; rfl, ?_, ?_, level⟩
      · rw [← count, ← List.singleton_append, loopLevels_append, noLoop, List.nil_append]
      · rw [resumeAll, Exec.run_bind, passes]
        exact run
  | @leave loop frames left state leaves rest ih =>
      obtain ⟨inner, outer, last, split, count, run, level⟩ := ih
      refine ⟨.loop loop :: inner, outer, last, by rw [split]; rfl, by rw [loopLevels, List.length_cons, count], ?_,
        level⟩
      rw [resumeAll, Exec.run_bind, resume_loop, leaves]
      exact run
  | @stop loop frames state stops =>
      obtain ⟨after, round, level⟩ := stops
      refine ⟨[.loop loop], frames, { after with nloops := after.nloops - 1 }, rfl, rfl, ?_, level⟩
      rw [resumeAll, Exec.run_bind, resume_loop, round]
      rfl

/-- Where `continue` leaves the loops, the run goes on with the next round of the last one. -/
theorem LoopsLeft.goesOn {frames : List Frame} {left : Nat} {state : Shell World}
    (leaves : LoopsLeft .continue frames left state) :
    ∃ inner loop outer loopRet last, frames = inner ++ .loop loop :: outer ∧ (loopLevels inner).length + 1 = left ∧
      Exec.run (resumeAll frames taskStatusInterrupted) state =
        Exec.run (do let ret ← loop.nextRounds loopRet; resumeAll outer ret) last ∧
      last.nloops = (loopLevels outer).length + 1 := by
  induction leaves with
  | @pass frame frames left state noLoop passes rest ih =>
      obtain ⟨inner, loop, outer, loopRet, last, split, count, run, level⟩ := ih
      refine ⟨frame :: inner, loop, outer, loopRet, last, by rw [split]; rfl, ?_, ?_, level⟩
      · rw [← count, ← List.singleton_append, loopLevels_append, noLoop, List.nil_append]
      · rw [resumeAll, Exec.run_bind, passes]
        exact run
  | @leave loop frames left state leaves rest ih =>
      obtain ⟨inner, stopped, outer, loopRet, last, split, count, run, level⟩ := ih
      refine ⟨.loop loop :: inner, stopped, outer, loopRet, last, by rw [split]; rfl,
        by rw [loopLevels, List.length_cons, count], ?_, level⟩
      rw [resumeAll, Exec.run_bind, resume_loop, leaves]
      exact run
  | @stop loop frames state stops =>
      obtain ⟨loopRet, round, level⟩ := stops
      refine ⟨[], loop, frames, loopRet, state, rfl, rfl, ?_, level⟩
      rw [resumeAll, Exec.run_bind, resume_loop, round, Exec.run_bind]
      rfl

section

variable {n fuel : Nat} {prog : Exec World Int} {start state : Shell World} {frames : List Frame} (positive : 1 ≤ n)
  (inLoop : loopLevels frames ≠ []) (plain : ∀ frame ∈ frames, frame.Plain) (readable : 0 ≤ loopNumber n)
  (stops : StopsAfter frames (min n (loopLevels frames).length - 1)
    (state.nloops - (min (loopNumber n) state.nloops - 1)))

include positive inLoop plain readable stops

/-- Where the counter agrees with the levels, a run that reaches `break n` goes on with status 0
behind the loop with the number `n`, or behind the outermost one. -/
theorem builtinBreak_goesBehind
    (reached : Reaches prog start frames (mrshRunBuiltin (tasks fuel) ["break".toList, decimal n]) state) :
    ∃ inner outer last, frames = inner ++ outer ∧ (loopLevels inner).length = min n (loopLevels frames).length ∧
      Exec.run prog start = Exec.run (resumeAll outer 0) last ∧ last.nloops = (loopLevels outer).length := by
  obtain ⟨after, -, run, leaves⟩ := (leavesLoops_iff (.inl rfl) positive inLoop plain reached).mpr ⟨readable, stops⟩
  obtain ⟨inner, outer, last, split, count, resumed, level⟩ := LoopsLeft.goesBehind leaves
  exact ⟨inner, outer, last, split, count, run.trans resumed, level⟩

end

/-! ## Loops over one word -/

def listOf (cmd : Command) : CommandList :=
  commandListOf (.pipeline { commands := [cmd], bang := false, bangPos := .invalid }) none .invalid

/-- The command of these words. -/
def literalCommand (name : Str) (arguments : List Str) : SimpleCommand where
  name := some (mrshWordStringCreate name false)
  arguments := arguments.map (mrshWordStringCreate · false)
  ioRedirects := []
  assignments := []

/-- `for name in word; do cmd; done`. -/
def forWord (name word : Str) (cmd : Command) : ForClause where
  name := name
  hasIn := true
  wordList := [mrshWordStringCreate word false]
  body := [listOf cmd]
  forRange := .invalid
  nameRange := .invalid
  inRange := .invalid
  doRange := .invalid
  doneRange := .invalid

section

variable {prog : Exec World Int} {start state : Shell World} {frames : List Frame}

theorem reaches_command {fuel : Nat} {ctx inner : Context} {cmd : Command} {ret : Int} {after : Shell World}
    (reached : Reaches prog start frames (runLists (tasks fuel) ctx [listOf cmd] ret) state)
    (job : Leaf.run (withJob ctx (.andOrList (listOf cmd).andOrList)) state = .done inner after) :
    Reaches prog start (.pipeline false :: .lists fuel ctx [] :: frames) ((tasks fuel).runCommand inner cmd) after :=
  (reached.enter (.firstList rfl)).enter (.pipeline rfl job)

theorem reaches_forBody {fuel : Nat} {ctx : Context} {name word field : Str} {cmd : Command}
    (reached : Reaches prog start frames ((tasks (fuel + 1)).runCommand ctx (.forClause (forWord name word cmd))) state)
    {after : Shell World}
    (expanded : Exec.run (expandWords (tasks fuel) ctx (forWord name word cmd).wordList)
      { state with nloops := state.nloops + 1 } = .done (0, [field]) after) (running : after.exit = -1) :
    Reaches prog start (.loop (.forBody fuel ctx (forWord name word cmd) (state.nloops + 1) []) :: frames)
      (runLists (tasks fuel) ctx [listOf cmd] 0) (writeVar after name (some ⟨field, .none⟩)) :=
  (reached.enter (.forClause expanded (Int.le_refl 0))).enter (.forBody running)

/-- Whether a command without redirections has been expanded to the given words. -/
def expandsTo (words : List Str) : Except Int (SimpleCommand × List Str) → Bool
  | .ok (sc, args) => sc.ioRedirects.isEmpty && args == words
  | .error _ => false

theorem reaches_builtin {fuel : Nat} {ctx : Context} {name : Str} {arguments : List Str} {copy : SimpleCommand}
    (reached : Reaches prog start frames
      ((tasks (fuel + 1)).runCommand ctx (.simpleCommand (literalCommand name arguments))) state)
    (copied : simpleCommandCopy state.nextSerial (literalCommand name arguments) = some copy)
    {numbered prepared : Shell World}
    (counts : numbered = { state with
      nextSerial := state.nextSerial + 1
      history := state.history ++ [⟨.simpleCommand, 0 < state.runningActions⟩] })
    (after : prepared =
      (Exec.run (expandCommand (tasks fuel) ctx copy (mrshWordStringCreate name false)) numbered).state)
    (expands : ((Exec.run (expandCommand (tasks fuel) ctx copy (mrshWordStringCreate name false)) numbered).value?.any
      (expandsTo (name :: arguments))) = true)
    (untraced : prepared.options .xtrace = false) (noFunction : prepared.functions.get name = none)
    (isBuiltin : mrshHasBuiltin name = true) :
    Reaches prog start (.redirected [] :: frames) ((tasks fuel).mrshRunBuiltin (name :: arguments)) prepared := by
  obtain ⟨result, found, expands⟩ := (Option.any_eq_true _ _).mp expands
  have ended := Outcome.eq_done_of_value? found
  rw [← after] at ended
  cases result with
  | error ret => cases expands
  | ok result =>
      obtain ⟨expanded, args⟩ := result
      rw [expandsTo, Bool.and_eq_true, List.isEmpty_iff, beq_iff_eq] at expands
      obtain ⟨noRedirects, rfl⟩ := expands
      refine reached.enter (.builtin rfl ?_ copied ended ?_ noFunction isBuiltin ?_)
      · rw [counts]
        rfl
      · rw [traceCommand, Exec.run_bind, Exec.run_leaf, optionSet, Leaf.run_gets, Outcome.andThen_done, untraced]
        rfl
      · rw [noRedirects]
        rfl

end

end

/-! ## One loop, and two -/

def newShell : Shell Machine := mrshStateCreate [] Machine.isolated

/-- The context of a command in a job. -/
def inJob : Context := ⟨some 0, false⟩

/-- The shell in the round of a `for` loop over one word. -/
def inFor (fuel : Nat) (name word : Str) (state : Shell Machine) : Shell Machine :=
  writeVar (Exec.run (expandWords (tasks fuel) inJob [mrshWordStringCreate word false])
    { state with nloops := state.nloops + 1 }).state name (some ⟨word, .none⟩)

def breakCommand (n : Nat) : Command := .simpleCommand (literalCommand "break".toList [decimal n])

/-- The shell when the words of the command have been expanded. -/
def atBreak (fuel n : Nat) (state : Shell Machine) : Shell Machine :=
  (Exec.run (expandCommand (tasks fuel) inJob (literalCommand "break".toList [decimal n])
      (mrshWordStringCreate "break".toList false))
    { state with
      nextSerial := state.nextSerial + 1
      history := state.history ++ [⟨.simpleCommand, 0 < state.runningActions⟩] }).state

/-- `for x in a; do for y in b; do break; done; done` goes on in the outer loop. -/
theorem builtinBreak_goesBehind_inner :
    ∃ frames inner outer last, frames = inner ++ outer ∧ (loopLevels inner).length = 1 ∧
      Exec.run ((tasks 6).runCommand inJob
        (.forClause (forWord ['x'] ['a'] (.forClause (forWord ['y'] ['b'] (breakCommand 1)))))) newShell =
          Exec.run (resumeAll outer 0) last ∧ last.nloops = (loopLevels outer).length := by
  have inOuter := @reaches_forBody _ _ _ newShell _ _ 5 inJob ['x'] ['a'] ['a']
    (.forClause (forWord ['y'] ['b'] (breakCommand 1))) .start _
    (Outcome.eq_done_of_value? (by decide +kernel)) (by decide +kernel)
  have inInner := @reaches_forBody _ _ _ newShell (inFor 5 ['x'] ['a'] newShell) _ 4 inJob ['y'] ['b'] ['b']
    (breakCommand 1) (reaches_command inOuter rfl) _ (Outcome.eq_done_of_value? (by decide +kernel)) (by decide +kernel)
  have reached := @reaches_builtin _ _ _ _ _ _ 3 inJob "break".toList [decimal 1] _ (reaches_command inInner rfl) rfl _
    (atBreak 3 1 (inFor 4 ['y'] ['b'] (inFor 5 ['x'] ['a'] newShell))) rfl rfl (by decide +kernel) (by decide +kernel)
    (by decide +kernel) (by decide +kernel)
  have level : (atBreak 3 1 (inFor 4 ['y'] ['b'] (inFor 5 ['x'] ['a'] newShell))).nloops = 2 := by decide +kernel
  refine ⟨_, @builtinBreak_goesBehind Machine _ 1 2 _ _ _ _ (Nat.le_refl 1) (by simp [loopLevels])
    (by simp [Frame.Plain]) (by decide) ?_ reached⟩
  rw [level]
  exact ⟨by decide, by decide⟩

end Mrsh

import Mrsh.Builtin.Shifting
import Mrsh.Shell.VariableWrites

namespace Mrsh

open Mrsh.Data

/-! # The end of an argument vector

A call frame ends its arguments with a null pointer: both allocators, `push_frame` and
`argv_dup`, leave one after the last argument, and `getopt` checks that it is there. A
shift takes arguments away without one, so that the frame ends with a string after it.
-/

/-- The entry after the last argument is a null pointer. -/
def IsTerminated (argv : List ArgSlot) (argc : Int) : Prop := 0 ≤ argc ∧ argv[argc.toNat]? = some .null

theorem isTerminated_strings (args : List Str) : IsTerminated (stringsArgv args) args.length :=
  ⟨by omega, by rw [Int.toNat_natCast, stringsArgv_null]⟩

section

variable {World : Type}

/-- The argument vectors of the call frames, from the top. -/
def Shell.frames (state : Shell World) : List (List ArgSlot × Int) :=
  (state.argv, state.argc) :: state.callers.map fun frame => (frame.argv, frame.argc)

def FramesTerminated (state : Shell World) : Prop := ∀ frame ∈ state.frames, IsTerminated frame.1 frame.2

/-- The shell has one frame, which `mrsh_process_args` has set up. -/
structure HasFirstFrame (state : Shell World) (args : List Str) : Prop where
  argv : state.argv = stringsArgv args
  argc : state.argc = args.length
  callers : state.callers = []

theorem HasFirstFrame.terminated {state : Shell World} {args : List Str} (first : HasFirstFrame state args) :
    FramesTerminated state := by
  intro frame member
  simp only [Shell.frames, first.argv, first.argc, first.callers, List.map_nil, List.mem_singleton] at member
  subst member
  exact isTerminated_strings args

/-! ## What leaves the frames alone -/

def SameFrames (before after : Shell World) : Prop := after.frames = before.frames

instance : Std.Refl (SameFrames : Shell World → Shell World → Prop) := ⟨fun _ => rfl⟩

instance : IsTrans (Shell World) SameFrames := ⟨fun _ _ _ first second => second.trans first⟩

abbrev LeavesFrames {α : Type} (prog : Leaf World α) : Prop := Within SameFrames prog

theorem update_leavesFrames {change : Core World → Core World}
    (same : ∀ core, ((change core).argv, (change core).argc) = (core.argv, core.argc)) :
    LeavesFrames (update change) :=
  fun state => congrArg (· :: state.callers.map fun frame : CallFrame => (frame.argv, frame.argc)) (same state.toCore)

theorem Talks.leavesFrames {α : Type} {prog : Leaf World α} (talks : Talks prog) : LeavesFrames prog :=
  talks.within fun _ _ _ => rfl

theorem call_leavesFrames {α : Type} (request : World → α × World) : LeavesFrames (call request) := fun _ => rfl

theorem setExit_leavesFrames (status : Nat) : LeavesFrames (setExit status : Leaf World Unit) := fun _ => rfl

/-- The frames stay terminated, also where the program stops. -/
abbrev KeepsTerminated {α : Type} (prog : Leaf World α) : Prop :=
  Prog.Meets handleLeaf FramesTerminated prog (fun _ => FramesTerminated) FramesTerminated

theorem LeavesFrames.keepsTerminated {α : Type} {prog : Leaf World α} (leaves : LeavesFrames prog) :
    KeepsTerminated prog := by
  refine .frame leaves (fun before after same terminated => ?_) fun _ terminated => terminated
  intro frame member
  rw [same] at member
  exact terminated frame member

theorem FramesTerminated.push {state : Shell World} {callers : List (List ArgSlot × Int)} (args : List Str)
    (terminated : ∀ frame ∈ callers, IsTerminated frame.1 frame.2)
    (pushed : state.frames = (stringsArgv args, (args.length : Int)) :: callers) : FramesTerminated state := by
  intro frame member
  rw [pushed] at member
  rcases List.mem_cons.mp member with rfl | below
  · exact isTerminated_strings args
  · exact terminated frame below

/-- The check at the start of `getopt`. -/
def assertTerminated (argc : Int) (argv : List ArgSlot) : Leaf World Unit := do
  let last ← slotAt argv argc
  assertThat last.isNone

theorem assertTerminated_run {argc : Int} {argv : List ArgSlot} (terminated : IsTerminated argv argc)
    (state : Shell World) : Leaf.run (assertTerminated argc argv) state = .done () state := by
  obtain ⟨nonneg, null⟩ := terminated
  have notNegative : ¬ argc < 0 := by omega
  simp [assertTerminated, slotAt, notNegative, null, assertThat]

theorem pushFrame_terminated {state after : Shell World} {args : List Str} (terminated : FramesTerminated state)
    (ended : Exec.run (pushFrame args) state = .done () after) : FramesTerminated after := by
  cases ended
  exact .push args terminated rfl

theorem popFrame_terminated {state after : Shell World} (terminated : FramesTerminated state)
    (ended : Exec.run popFrame state = .done () after) : FramesTerminated after := by
  obtain ⟨destroyable, between, read, rest⟩ := Exec.run_bind_done.mp ended
  cases read
  obtain ⟨_, last, handled, asserted⟩ := Exec.run_bind_done.mp rest
  cases handled
  rw [Exec.run_leaf] at asserted
  have asserts : ∀ condition, LeavesFrames (assertThat condition : Leaf World Unit) := .assertThat
  have same : after.frames = (handleControl .pop state).2.frames := (asserts _).done asserted
  intro frame member
  rw [same] at member
  cases callers : state.callers with
  | nil => exact terminated frame (by simpa [handleControl, callers] using member)
  | cons top callers' =>
      simp only [handleControl, callers] at member
      refine terminated frame (List.mem_cons_of_mem _ ?_)
      rw [callers]
      exact member

theorem setOption_leavesFrames (option : ShellOption) (value : Bool) :
    LeavesFrames (setOption option value : Leaf World Unit) := update_leavesFrames fun _ => rfl

variable [System World]

theorem shiftError_leavesFrames (msg : Str) : LeavesFrames (shiftError msg : Leaf World Int) := by
  refine .bind (call_leavesFrames _) fun _ => .bind (.gets _) fun _ => ?_
  exact .ite (.bind (setExit_leavesFrames _) fun _ => .pure _) (.pure _)

theorem printVars_leavesFrames (line : Str) (vars : List (Str × Str)) :
    LeavesFrames (printVars line vars : Leaf World Unit) := by
  induction vars with
  | nil => exact .pure _
  | cons var vars ih =>
      exact .bind (call_leavesFrames _) fun _ => .bind (call_leavesFrames _) fun _ => .bind (call_leavesFrames _)
        fun _ => ih

theorem printOptions_leavesFrames (options : List (Str × ShellOption)) :
    LeavesFrames (printOptions options : Leaf World Unit) := by
  induction options with
  | nil => exact .pure _
  | cons option options ih => exact .bind (.gets _) fun _ => .bind (call_leavesFrames _) fun _ => ih

theorem setShortOptions_leavesFrames (value : Bool) (chars : Str) (monitor : Bool) :
    LeavesFrames (setShortOptions value chars monitor : Leaf World (Option Bool)) := by
  induction chars generalizing monitor with
  | nil => exact .pure _
  | cons c chars ih =>
      rw [setShortOptions]
      split
      · exact .bind (call_leavesFrames _) fun _ => .pure _
      · exact .bind (setOption_leavesFrames _ _) fun _ => ih _

theorem setOptions_leavesFrames (args : List Str) (monitor : Bool) :
    LeavesFrames (setOptions args monitor : Leaf World (Option (SetArgs × Bool))) := by
  fun_induction (setOptions args monitor : Leaf World (Option (SetArgs × Bool))) with
  | case1 | case2 | case3 | case9 | case11 => exact .pure _
  | case4 => exact .bind (printOptions_leavesFrames _) fun _ => .pure _
  | case5 | case7 | case10 => exact .bind (call_leavesFrames _) fun _ => .pure _
  | case6 => exact .bind (setOption_leavesFrames _ _) fun _ => by assumption
  | case8 =>
      rename_i ih
      refine .bind (setShortOptions_leavesFrames _ _ _) fun set => ?_
      cases set with
      | none => exact .pure _
      | some monitor => exact ih monitor

theorem sameFrames_allows : AllowsJobControl (SameFrames : Shell World → Shell World → Prop) where
  jobs _ _ _ _ := rfl
  serial _ := rfl
  printErr _ _ := rfl
  setpgid _ _ _ := rfl
  tcsetpgrp _ _ := rfl
  tcgetattr _ := rfl
  tcsetattr _ _ := rfl
  kill _ _ _ := rfl
  traps _ _ _ := rfl
  control _ _ _ _ := rfl
  sigaction _ _ _ := rfl
  getpid _ := rfl
  getpgrp _ := rfl
  getsid _ := rfl
  tcgetpgrp _ := rfl

/-! ## The operations on frames -/

theorem setPositional_keepsTerminated (args : List Str) :
    KeepsTerminated (setPositional args : Leaf World Int) := by
  have leaves : ∀ {γ : Type} {prog : Leaf World γ}, LeavesFrames prog → KeepsTerminated prog :=
    LeavesFrames.keepsTerminated
  refine .bind (leaves (.gets _)) fun argv => .bind (leaves (.gets _)) fun argc => ?_
  refine .ite (fun _ => leaves (usageError_talks _).leavesFrames) fun _ => ?_
  refine .bind (leaves (argvStr_talks argv 0).leavesFrames) fun argv0 => .bind (leaves (.assertThat _)) fun _ => ?_
  refine .bind (.of_state fun state terminated => ?_) fun _ => leaves (.pure _)
  exact .push (argv0 :: args) (fun frame member => terminated frame (List.mem_cons_of_mem _ member)) rfl

theorem setWith_keepsTerminated (args : List Str) : KeepsTerminated (setWith args : Leaf World (Int × Bool)) := by
  have leaves : ∀ {γ : Type} {prog : Leaf World γ}, LeavesFrames prog → KeepsTerminated prog :=
    LeavesFrames.keepsTerminated
  cases args with
  | nil => exact leaves (.bind (.gets _) fun vars => .bind (printVars_leavesFrames _ _) fun _ => .pure _)
  | cons arg args =>
      refine .bind (leaves (setOptions_leavesFrames _ _)) fun set => ?_
      match set with
      | none => exact leaves (.pure _)
      | some (.positional args, monitor) =>
          exact .bind (setPositional_keepsTerminated args) fun _ => leaves (.pure _)
      | some (.printed, monitor) | some (.nothing, monitor) => exact leaves (.pure _)

theorem builtinSet_keepsTerminated (fuel : Nat) (args : List Str) :
    KeepsTerminated (builtinSet fuel args : Leaf World Int) := by
  have leaves : ∀ {γ : Type} {prog : Leaf World γ}, LeavesFrames prog → KeepsTerminated prog :=
    LeavesFrames.keepsTerminated
  refine .bind (setWith_keepsTerminated args.tail) fun set => ?_
  refine .ite (fun _ => leaves (.pure _)) fun _ => .ite (fun _ => leaves ?_) fun _ => leaves (.pure _)
  refine .bind (.gets _) fun enabled => .bind (sameFrames_allows.mrshSetJobControl fuel enabled) fun _ => ?_
  exact .ite (.pure _) (.pure _)

/-- `shift` takes parameters away. -/
def Shifts (args : List Str) (argc : Int) : Prop := ∃ n : Nat, AsksForShift args n ∧ 1 ≤ n ∧ n < argc

theorem shiftBy_idle {state : Shell World} {n : Int} (idle : n < 1 ∨ state.argc ≤ n) :
    (Leaf.run (shiftBy n) state).state.frames = state.frames := by
  rw [shiftBy, Leaf.run_gets_bind]
  split
  · rfl
  · split
    · exact shiftError_leavesFrames _ state
    · rw [if_pos (by omega)]
      exact shiftError_leavesFrames _ state

/-- A shift by nothing, or by more parameters than there are, leaves the frames alone. -/
theorem builtinShift_idle {state : Shell World} {args : List Str} (idle : ¬ Shifts args state.argc) :
    (Leaf.run (builtinShift args) state).state.frames = state.frames := by
  have none : ∀ n : Int, (0 ≤ n → AsksForShift args n.toNat) → n < 1 ∨ state.argc ≤ n := by
    intro n asks
    by_contra shifts
    exact idle ⟨n.toNat, asks (by omega), by omega, by omega⟩
  unfold builtinShift
  split
  · exact shiftBy_idle (none 1 fun _ => .inl ⟨_, rfl, rfl⟩)
  · dsimp only
    split
    · exact shiftError_leavesFrames _ state
    · rename_i name arg accepted
      simp only [Bool.or_eq_true, Bool.not_eq_true', not_or, List.isEmpty_eq_false_iff, not_not] at accepted
      refine shiftBy_idle (none _ fun nonneg => .inr ⟨name, arg, rfl, accepted.1, ?_, ?_⟩)
      · exact Bool.eq_false_iff.mpr accepted.2
      · omega
  · exact (usageError_talks _).leavesFrames state

/-- A shift that takes parameters away ends the frame with a string. -/
theorem builtinShift_unterminated {state after : Shell World} {args params : List Str} {status : Int}
    (held : HoldsParams state.argv state.argc params) (shifts : Shifts args state.argc)
    (ended : Leaf.run (builtinShift args) state = .done status after) : ¬ IsTerminated after.argv after.argc := by
  obtain ⟨n, asks, positive, enough⟩ := shifts
  have count := held.1
  have bounded : n - 1 < params.length := by omega
  rw [builtinShift_of_asks asks, shiftBy_pos (by omega) enough] at ended
  have present : state.argv[state.argc.toNat - n]? ≠ some .null := by
    have inside : params.length - n < params.length := by omega
    obtain ⟨number, found⟩ := held.2 _ _ (List.getElem?_eq_getElem inside)
    rw [show state.argc.toNat - n = params.length - n + 1 by omega, found]
    exact nofun
  cases shifted : shiftArgv state.argc.toNat n state.argv with
  | none =>
      rw [shifted] at ended
      cases ended
  | some argv =>
      rw [shifted] at ended
      cases ended
      rintro ⟨-, null⟩
      apply shiftArgv_notNull present shifted
      rw [← null]
      dsimp only
      rw [show (state.argc - n).toNat = state.argc.toNat - n by omega]

/-! ## Runs -/

/-- The states that calls, returns, `set` and `shift` reach, with anything else that leaves the
frames alone in between. -/
inductive FrameRun (allowed : List Str → Int → Prop) (start : Shell World) : Shell World → Prop where
  | start : FrameRun allowed start start
  | between {state after : Shell World} (reached : FrameRun allowed start state)
      (keeps : after.frames = state.frames) : FrameRun allowed start after
  | call {state after : Shell World} (reached : FrameRun allowed start state) (args : List Str)
      (ended : Exec.run (pushFrame args) state = .done () after) : FrameRun allowed start after
  | return {state after : Shell World} (reached : FrameRun allowed start state)
      (ended : Exec.run popFrame state = .done () after) : FrameRun allowed start after
  | set {state after : Shell World} (reached : FrameRun allowed start state) (fuel : Nat) (args : List Str)
      {status : Int} (ended : Leaf.run (builtinSet fuel args) state = .done status after) :
      FrameRun allowed start after
  | shift {state after : Shell World} (reached : FrameRun allowed start state) (args : List Str)
      (may : allowed args state.argc) {status : Int}
      (ended : Leaf.run (builtinShift args) state = .done status after) : FrameRun allowed start after

theorem FrameRun.terminated {start state : Shell World} (initially : FramesTerminated start)
    (reached : FrameRun (fun args argc => ¬ Shifts args argc) start state) : FramesTerminated state := by
  induction reached with
  | start => exact initially
  | between _ keeps ih =>
      intro frame member
      rw [keeps] at member
      exact ih frame member
  | call _ args ended ih => exact pushFrame_terminated ih ended
  | «return» _ ended ih => exact popFrame_terminated ih ended
  | set _ fuel args ended ih => exact (builtinSet_keepsTerminated fuel args).done ih ended
  | shift _ args idle ended ih =>
      have same := builtinShift_idle idle
      rw [ended] at same
      intro frame member
      rw [Outcome.state_done] at same
      rw [same] at member
      exact ih frame member

theorem mrshGetopt_starts (argc : Int) (argv : List ArgSlot) (optstring : Str) :
    ∃ rest : Leaf World (Option Char),
      mrshGetopt argc argv optstring = assertTerminated argc argv >>= fun _ => rest := by
  exact ⟨_, (bind_assoc _ _ _).symm⟩

/-- As long as no shift takes parameters away, every frame that a run reaches is terminated, and
the check at the start of `getopt` succeeds for the parameters. -/
theorem frames_terminated {start state : Shell World} {args : List Str} (first : HasFirstFrame start args)
    (reached : FrameRun (fun args argc => ¬ Shifts args argc) start state) :
    (∀ frame ∈ state.frames, IsTerminated frame.1 frame.2) ∧
      ∀ optstring, ∃ rest : Leaf World (Option Char), mrshGetopt state.argc state.argv optstring =
          (assertTerminated state.argc state.argv >>= fun _ => rest) ∧
        Leaf.run (assertTerminated state.argc state.argv) state = .done () state := by
  have terminated := reached.terminated first.terminated
  refine ⟨terminated, fun optstring => ?_⟩
  have starts : ∃ rest : Leaf World (Option Char), mrshGetopt state.argc state.argv optstring =
      assertTerminated state.argc state.argv >>= fun _ => rest := mrshGetopt_starts _ _ _
  obtain ⟨rest, starts⟩ := starts
  exact ⟨rest, starts, assertTerminated_run (terminated _ List.mem_cons_self) state⟩

end

/-! ## A shift by one parameter -/

def oneParameter : Shell Machine :=
  { mrshStateCreate [] Machine.isolated with argv := stringsArgv [['m'], ['a']], argc := 2 }

theorem oneParameter_first : HasFirstFrame oneParameter [['m'], ['a']] := ⟨rfl, rfl, rfl⟩

/-- The shell that has run `set`. -/
def afterSet : Shell Machine := (Leaf.run (builtinSet 1 [['s'], ['x'], ['y']]) oneParameter).state

theorem frames_terminated_set :
    (∀ frame ∈ afterSet.frames, IsTerminated frame.1 frame.2) ∧
      ∀ optstring, ∃ rest : Leaf Machine (Option Char), mrshGetopt afterSet.argc afterSet.argv optstring =
          (assertTerminated afterSet.argc afterSet.argv >>= fun _ => rest) ∧
        Leaf.run (assertTerminated afterSet.argc afterSet.argv) afterSet = .done () afterSet :=
  frames_terminated oneParameter_first
    (.set .start 1 [['s'], ['x'], ['y']] (Outcome.eq_done_of_value? rfl))

/-- The shell that has run `shift`. -/
def afterShift : Shell Machine := (Leaf.run (builtinShift [['s']]) oneParameter).state

/-- After `shift`, the check at the start of `getopt` fails for the parameters that are left. -/
theorem shift_unterminated : HasFirstFrame oneParameter [['m'], ['a']] ∧
    FrameRun (fun _ _ => True) oneParameter afterShift ∧
    ¬ IsTerminated afterShift.argv afterShift.argc ∧
    Leaf.run (mrshGetopt afterShift.argc afterShift.argv []) afterShift = .stopped .aborted afterShift := by
  refine ⟨oneParameter_first, .shift .start [['s']] trivial (Outcome.eq_done_of_value? rfl), ?_, rfl⟩
  rintro ⟨-, null⟩
  cases null

theorem builtinShift_unterminated_one : ¬ IsTerminated afterShift.argv afterShift.argc :=
  builtinShift_unterminated (holdsParams_strings ['m'] [['a']]) ⟨1, .inl ⟨_, rfl, rfl⟩, by decide, by decide⟩
    (Outcome.eq_done_of_value? rfl)

end Mrsh

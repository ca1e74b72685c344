import Mrsh.Shell.Returning

namespace Mrsh

open Mrsh.Data

/-! # After `exit`

The `exit` builtin sets the exit status of the shell and interrupts what is running.
Until something passes over the interruption, no command is run.
-/

/-! ## Reading the history -/

/-- Whether the `exit` builtin was called outside of traps and its interruption is on its way.
The mode is broken once a simple command was run then. -/
inductive Mode where
  | calm | exiting | broken
deriving Repr, DecidableEq

def Mode.next (mode : Mode) (moment : Moment) : Mode :=
  if moment.inTrap then mode
  else
    match mode, moment.event with
    | .calm, .exitBuiltin => .exiting
    | .exiting, .simpleCommand => .broken
    | .exiting, .loopInterrupted => .calm
    | .exiting, .orInterrupted => .calm
    | mode, _ => mode

def Mode.scan (mode : Mode) (moments : List Moment) : Mode := moments.foldl Mode.next mode

theorem Mode.scan_append (mode : Mode) (first second : List Moment) :
    mode.scan (first ++ second) = (mode.scan first).scan second := List.foldl_append

theorem Mode.scan_broken (moments : List Moment) : Mode.broken.scan moments = .broken := by
  induction moments with
  | nil => rfl
  | cons moment moments ih =>
      have stays : Mode.broken.next moment = .broken := by
        unfold Mode.next
        split <;> rfl
      rw [Mode.scan, List.foldl_cons, stays]
      exact ih

/-- A loop or an operator `||` has passed over an interruption, outside of traps. -/
def Moment.PassesOver (moment : Moment) : Prop :=
  moment.inTrap = false ∧ (moment.event = .loopInterrupted ∨ moment.event = .orInterrupted)

theorem Mode.scan_exiting {moments : List Moment} (none : ∀ moment ∈ moments, ¬ moment.PassesOver) :
    Mode.exiting.scan moments = .exiting ∨ Mode.exiting.scan moments = .broken := by
  induction moments with
  | nil => exact .inl rfl
  | cons moment moments ih =>
      rw [List.forall_mem_cons] at none
      obtain ⟨event, inTrap⟩ := moment
      have next : Mode.exiting.next ⟨event, inTrap⟩ = .exiting ∨ Mode.exiting.next ⟨event, inTrap⟩ = .broken := by
        cases inTrap with
        | true => exact .inl rfl
        | false =>
            cases event with
            | simpleCommand => exact .inr rfl
            | loopInterrupted => exact absurd ⟨rfl, .inl rfl⟩ none.1
            | orInterrupted => exact absurd ⟨rfl, .inr rfl⟩ none.1
            | exitBuiltin | programCompleted => exact .inl rfl
      rcases next with same | broken
      · rw [Mode.scan, List.foldl_cons, same]
        exact ih none.2
      · rw [Mode.scan, List.foldl_cons, broken]
        exact .inr (Mode.scan_broken moments)

/-- No command of the history is run after an `exit`, unless something passes over the interruption
in between. Commands and calls in traps do not count. -/
def NothingAfterExit (moments : List Moment) : Prop :=
  ∀ before between after, moments = before ++ ⟨.exitBuiltin, false⟩ :: between ++ ⟨.simpleCommand, false⟩ :: after →
    ∃ moment ∈ between, moment.PassesOver

theorem nothingAfterExit_of_scan {moments : List Moment} (intact : Mode.calm.scan moments ≠ .broken) :
    NothingAfterExit moments := by
  intro before between after split
  by_contra noneBetween
  have none : ∀ moment ∈ between, ¬ moment.PassesOver := by
    intro moment member passes
    exact noneBetween ⟨moment, member, passes⟩
  apply intact
  rw [split, List.append_assoc, Mode.scan_append, List.cons_append]
  change ((Mode.calm.scan before).next ⟨.exitBuiltin, false⟩).scan (between ++ ⟨.simpleCommand, false⟩ :: after) =
    .broken
  have exits : (Mode.calm.scan before).next ⟨.exitBuiltin, false⟩ = .exiting ∨
      (Mode.calm.scan before).next ⟨.exitBuiltin, false⟩ = .broken := by
    cases Mode.calm.scan before with
    | calm => exact .inl rfl
    | exiting => exact .inl rfl
    | broken => exact .inr rfl
  rcases exits with exiting | broken
  · rw [exiting, Mode.scan_append]
    rcases Mode.scan_exiting none with same | broken
    · rw [same]
      exact Mode.scan_broken after
    · rw [broken]
      exact Mode.scan_broken _
  · rw [broken]
    exact Mode.scan_broken _

section

variable {World : Type}

/-! ## What a run adds to the history -/

def ExitKept (before after : Shell World) : Prop := before.exit ≠ -1 → after.exit ≠ -1

instance : Std.Refl (ExitKept : Shell World → Shell World → Prop) := ⟨fun _ set => set⟩

instance : IsTrans (Shell World) ExitKept := ⟨fun _ _ _ first second set => second (first set)⟩

theorem exec_exitKept {α : Type} (prog : Exec World α) : Run.Respects ExitKept (Exec.run prog) := by
  apply Prog.run_respects
  rintro (action | action) before set
  · cases action with
    | setExit status =>
        change ((status : Nat) : Int) ≠ -1
        omega
    | assign key var =>
        simp only [Prog.Handler.sum, handleLeaf]
        split <;> exact set
    | _ => exact set
  · cases action with
    | pop =>
        simp only [Prog.Handler.sum, handleControl]
        split <;> exact set
    | _ => exact set

variable {α β : Type}

/-- In this mode the run adds moments that do not break it. When it ends, the shell exits where the
mode says so, and only with a value that may interrupt the rest. In a trap the mode stays. -/
def Carries (prog : Exec World α) (mode : Mode) (state : Shell World) (interrupts : α → Prop) : Prop :=
  ∃ new, (Exec.run prog state).state.history = state.history ++ new ∧ mode.scan new ≠ .broken ∧
    ∀ value after, Exec.run prog state = .done value after →
      after.runningActions = state.runningActions ∧ (0 < state.runningActions → mode.scan new = mode) ∧
        (mode.scan new = .exiting → after.exit ≠ -1 ∧ (state.runningActions = 0 → interrupts value))

structure Admits (mode : Mode) (state : Shell World) : Prop where
  exitSet : mode = .exiting → state.exit ≠ -1
  intact : mode ≠ .broken

theorem Carries.bind {first : Exec World α} {next : α → Exec World β} {mode : Mode} {state : Shell World}
    {interrupts : α → Prop} {interruptsNext : β → Prop} (carries : Carries first mode state interrupts)
    (nextCarries : ∀ value last after, Admits last after → after.runningActions = state.runningActions →
      (0 < state.runningActions → last = mode) → (last = .exiting → state.runningActions = 0 → interrupts value) →
      Carries (next value) last after interruptsNext) :
    Carries (first >>= next) mode state interruptsNext := by
  obtain ⟨new, history, intact, ends⟩ := carries
  unfold Carries
  rw [Exec.run_bind]
  cases ended : Exec.run first state with
  | stopped reason after =>
      rw [ended] at history
      refine ⟨new, history, intact, ?_⟩
      intro value last stopped
      cases stopped
  | done value after =>
      rw [ended] at history
      obtain ⟨actions, inTrap, exits⟩ := ends value after ended
      obtain ⟨more, historyNext, intactNext, endsNext⟩ := nextCarries value (mode.scan new) after
        ⟨fun exiting => (exits exiting).1, intact⟩ actions inTrap (fun exiting => (exits exiting).2)
      refine ⟨new ++ more, ?_, ?_, ?_⟩
      · rw [Outcome.andThen_done, historyNext, ← List.append_assoc]
        exact congrArg (· ++ more) history
      · rw [Mode.scan_append]
        exact intactNext
      · intro result final endedNext
        obtain ⟨actionsNext, inTrapNext, exitsNext⟩ := endsNext result final endedNext
        rw [Mode.scan_append]
        rw [actions] at actionsNext inTrapNext exitsNext
        refine ⟨actionsNext, ?_, exitsNext⟩
        intro trap
        rw [inTrapNext trap, inTrap trap]

/-- The program may be run in every mode. -/
def Passes (prog : Exec World α) (interrupts : α → Prop) : Prop :=
  ∀ state mode, Admits mode state → Carries prog mode state interrupts

/-- The program may be run while the `exit` builtin interrupts the shell. -/
def Quiet (prog : Exec World α) (interrupts : α → Prop) : Prop :=
  ∀ state, state.exit ≠ -1 → state.runningActions = 0 → Carries prog .exiting state interrupts

/-- The program may be run while the shell is not interrupted, and in traps. -/
def Obeys (prog : Exec World α) (interrupts : α → Prop) : Prop :=
  ∀ state mode, Admits mode state → (state.runningActions = 0 → mode = .calm) → Carries prog mode state interrupts

/-- The program may be run in every mode, and does not interrupt what follows unless it is interrupted already. -/
def Still (prog : Exec World α) : Prop :=
  ∀ state mode, Admits mode state → Carries prog mode state fun _ => mode = .exiting

theorem Passes.obeys {prog : Exec World α} {interrupts : α → Prop} (passes : Passes prog interrupts) :
    Obeys prog interrupts := fun state mode admits _ => passes state mode admits

theorem Passes.quiet {prog : Exec World α} {interrupts : α → Prop} (passes : Passes prog interrupts) :
    Quiet prog interrupts := fun state set _ => passes state .exiting ⟨fun _ => set, by decide⟩

/-! ## Rules -/

theorem carries_unchanged {prog : Exec World α} {mode : Mode} {state : Shell World} {interrupts : α → Prop}
    (history : (Exec.run prog state).state.history = state.history)
    (actions : (Exec.run prog state).state.runningActions = state.runningActions) (admits : Admits mode state)
    (may : ∀ value, mode = .exiting → state.runningActions = 0 → interrupts value) :
    Carries prog mode state interrupts := by
  refine ⟨[], by rw [history, List.append_nil], admits.intact, ?_⟩
  intro value after ended
  rw [ended] at actions
  refine ⟨actions, fun _ => rfl, fun exiting => ⟨?_, may value exiting⟩⟩
  exact (exec_exitKept prog).done ended (admits.exitSet exiting)

theorem leaf_carries {prog : Leaf World α} {mode : Mode} {state : Shell World} {interrupts : α → Prop}
    (admits : Admits mode state) (may : ∀ value, mode = .exiting → state.runningActions = 0 → interrupts value) :
    Carries (leaf prog) mode state interrupts := by
  have same : (Exec.run (leaf prog) state).state.toControl = state.toControl := by
    rw [Exec.run_leaf]
    exact leaf_sameControl prog state
  exact carries_unchanged (congrArg Control.history same) (congrArg Control.runningActions same) admits may

theorem not_exiting {mode : Mode} {state : Shell World} {property : Prop}
    (calm : state.runningActions = 0 → mode = .calm) (exiting : mode = .exiting) (outside : state.runningActions = 0) :
    property := by
  rw [calm outside] at exiting
  cases exiting

theorem Obeys.leaf (prog : Leaf World α) (interrupts : α → Prop) : Obeys (leaf prog) interrupts :=
  fun _ _ admits calm => leaf_carries admits fun _ => not_exiting calm

theorem Passes.leaf (prog : Leaf World α) : Passes (leaf prog) fun _ => True :=
  fun _ _ admits => leaf_carries admits fun _ _ _ => trivial

theorem Obeys.pure (value : α) (interrupts : α → Prop) : Obeys (pure value : Exec World α) interrupts :=
  Obeys.leaf (Pure.pure value) interrupts

theorem Passes.pure {value : α} {interrupts : α → Prop} (may : interrupts value) :
    Passes (pure value : Exec World α) interrupts := by
  intro state mode admits
  refine ⟨[], (List.append_nil _).symm, admits.intact, ?_⟩
  intro result after ended
  obtain ⟨rfl, rfl⟩ := Outcome.done.inj ended
  exact ⟨rfl, fun _ => rfl, fun exiting => ⟨admits.exitSet exiting, fun _ => may⟩⟩

theorem Passes.stop (reason : Ending) (interrupts : α → Prop) :
    Passes (Mrsh.leaf (Prog.stop reason : Leaf World α)) interrupts := by
  intro state mode admits
  refine ⟨[], (List.append_nil _).symm, admits.intact, ?_⟩
  intro result after ended
  cases ended

theorem Obeys.bind {first : Exec World α} {next : α → Exec World β} {interrupts : α → Prop}
    {interruptsNext : β → Prop} (obeys : Obeys first interrupts)
    (nextObeys : ∀ value, Obeys (next value) interruptsNext)
    (nextQuiet : ∀ value, interrupts value → Quiet (next value) interruptsNext) :
    Obeys (first >>= next) interruptsNext := by
  intro state mode admits calm
  apply (obeys state mode admits calm).bind
  intro value last after admitsLast actions inTrap may
  by_cases trap : 0 < state.runningActions
  · apply nextObeys value after last admitsLast
    intro outside
    omega
  · have outside : state.runningActions = 0 := by omega
    cases last with
    | calm => exact nextObeys value after .calm admitsLast fun _ => rfl
    | exiting => exact nextQuiet value (may rfl outside) after (admitsLast.exitSet rfl) (actions.trans outside)
    | broken => exact absurd rfl admitsLast.intact

/-- No value interrupts the rest. -/
abbrev Never (_ : α) : Prop := False

theorem Obeys.bindCalm {first : Exec World α} {next : α → Exec World β} {interruptsNext : β → Prop}
    (obeys : Obeys first Never) (nextObeys : ∀ value, Obeys (next value) interruptsNext) :
    Obeys (first >>= next) interruptsNext := obeys.bind nextObeys fun _ never => never.elim

theorem Obeys.leafBind {prog : Leaf World α} {next : α → Exec World β} {interruptsNext : β → Prop}
    (nextObeys : ∀ value, Obeys (next value) interruptsNext) : Obeys (Mrsh.leaf prog >>= next) interruptsNext :=
  (Obeys.leaf prog Never).bindCalm nextObeys

theorem Passes.bind {first : Exec World α} {next : α → Exec World β} {interrupts : α → Prop}
    {interruptsNext : β → Prop} (passes : Passes first interrupts)
    (nextPasses : ∀ value, Passes (next value) interruptsNext) : Passes (first >>= next) interruptsNext :=
  fun state mode admits => (passes state mode admits).bind fun value last after admitsLast _ _ _ =>
    nextPasses value after last admitsLast

theorem Quiet.bind {first : Exec World α} {next : α → Exec World β} {interrupts : α → Prop}
    {interruptsNext : β → Prop} (quiet : Quiet first interrupts)
    (nextObeys : ∀ value, Obeys (next value) interruptsNext)
    (nextQuiet : ∀ value, interrupts value → Quiet (next value) interruptsNext) :
    Quiet (first >>= next) interruptsNext := by
  intro state set outside
  apply (quiet state set outside).bind
  intro value last after admitsLast actions _ may
  cases last with
  | calm => exact nextObeys value after .calm admitsLast fun _ => rfl
  | exiting => exact nextQuiet value (may rfl outside) after (admitsLast.exitSet rfl) (actions.trans outside)
  | broken => exact absurd rfl admitsLast.intact

theorem Carries.mono {prog : Exec World α} {mode : Mode} {state : Shell World} {interrupts interruptsMore : α → Prop}
    (carries : Carries prog mode state interrupts) (more : ∀ value, interrupts value → interruptsMore value) :
    Carries prog mode state interruptsMore := by
  obtain ⟨new, history, intact, ends⟩ := carries
  refine ⟨new, history, intact, fun value after ended => ?_⟩
  obtain ⟨actions, inTrap, exits⟩ := ends value after ended
  exact ⟨actions, inTrap, fun exiting => ⟨(exits exiting).1, fun outside => more value ((exits exiting).2 outside)⟩⟩

theorem Still.passes {prog : Exec World α} (still : Still prog) : Passes prog fun _ => True :=
  fun state mode admits => (still state mode admits).mono fun _ _ => trivial

theorem Still.obeys {prog : Exec World α} (still : Still prog) : Obeys prog Never := by
  intro state mode admits calm
  obtain ⟨new, history, intact, ends⟩ := still state mode admits
  refine ⟨new, history, intact, fun value after ended => ?_⟩
  obtain ⟨actions, inTrap, exits⟩ := ends value after ended
  refine ⟨actions, inTrap, fun exiting => ⟨(exits exiting).1, fun outside => ?_⟩⟩
  exact not_exiting calm ((exits exiting).2 outside) outside

theorem Still.leaf (prog : Leaf World α) : Still (Mrsh.leaf prog) :=
  fun _ _ admits => leaf_carries admits fun _ exiting _ => exiting

theorem Still.pure (value : α) : Still (Pure.pure value : Exec World α) := Still.leaf (Pure.pure value)

theorem Still.bind {first : Exec World α} {next : α → Exec World β} (still : Still first)
    (nextStill : ∀ value, Still (next value)) : Still (first >>= next) := by
  intro state mode admits
  apply (still state mode admits).bind
  intro value last after admitsLast actions inTrap may
  obtain ⟨new, history, intact, ends⟩ := nextStill value after last admitsLast
  refine ⟨new, history, intact, fun result final ended => ?_⟩
  obtain ⟨actionsNext, inTrapNext, exits⟩ := ends result final ended
  refine ⟨actionsNext, inTrapNext, fun exiting => ⟨(exits exiting).1, fun outside => ?_⟩⟩
  exact may ((exits exiting).2 outside) (actions ▸ outside)

/-- An action that neither records anything nor begins or ends the action of a trap. -/
theorem Still.control {action : ControlAction}
    (history : ∀ state : Shell World, (handleControl action state).2.history = state.history)
    (actions : ∀ state : Shell World, (handleControl action state).2.runningActions = state.runningActions) :
    Still (control action : Exec World Unit) :=
  fun state _ admits => carries_unchanged (history state) (actions state) admits fun _ exiting _ => exiting

theorem Obeys.ite {condition : Prop} [Decidable condition] {yes no : Exec World α} {interrupts : α → Prop}
    (ifTrue : Obeys yes interrupts) (ifFalse : Obeys no interrupts) :
    Obeys (if condition then yes else no) interrupts := by
  split
  · exact ifTrue
  · exact ifFalse

/-- The shape of most sequences: a negative status is handed on, and interrupts the rest. -/
theorem Obeys.bindStatus {first : Exec World Int} {next : Int → Exec World Int} (obeys : Obeys first (· < 0))
    (nextObeys : ∀ ret, Obeys (next ret) (· < 0)) (handsOn : ∀ ret, ret < 0 → Passes (next ret) (· < 0)) :
    Obeys (first >>= next) (· < 0) := obeys.bind nextObeys fun ret negative => (handsOn ret negative).quiet

end

end Mrsh

import Mrsh.Builtin.Variables
import Mrsh.Shell.JobFootprint

namespace Mrsh

open Mrsh.Data

/-! # Programs that write no variable

What such a program does to the variables and to the state beside what an update can reach is
nothing, so that it stays within every relation that allows the updates.
-/

section

variable {World α β : Type}

def LeafAction.SparesVariables : LeafAction World → Prop
  | .get | .update _ => True
  | .write _ _ _ | .assign _ _ | .setExit _ => False

/-- Every action of the program reads the state or updates what is no variable. -/
abbrev SparesVariables (prog : Leaf World α) : Prop := prog.Only LeafAction.SparesVariables

namespace SparesVariables

theorem pure (value : α) : SparesVariables (pure value : Leaf World α) := Prog.Only.pure value

theorem stop (reason : Ending) : SparesVariables (Prog.stop reason : Leaf World α) := Prog.Only.stop reason

theorem gets (read : Shell World → α) : SparesVariables (gets read) := ⟨trivial, fun _ => trivial⟩

theorem update (change : Core World → Core World) : SparesVariables (update change) := ⟨trivial, fun _ => trivial⟩

theorem call (request : World → α × World) : SparesVariables (call request) :=
  ⟨trivial, fun _ => ⟨trivial, fun _ => trivial⟩⟩

theorem orCrash (value : Option α) : SparesVariables (orCrash value : Leaf World α) := by
  cases value with
  | none => exact .stop _
  | some value => exact .pure _

theorem assertThat (condition : Bool) : SparesVariables (assertThat condition : Leaf World Unit) :=
  Prog.Only.ite (.pure _) (.stop _)

theorem bind {first : Leaf World α} {next : α → Leaf World β} (spares : SparesVariables first)
    (nextSpares : ∀ value, SparesVariables (next value)) : SparesVariables (first >>= next) :=
  Prog.Only.bind spares nextSpares

theorem ite {condition : Prop} [Decidable condition] {yes no : Leaf World α} (yesSpares : SparesVariables yes)
    (noSpares : SparesVariables no) : SparesVariables (if condition then yes else no) :=
  Prog.Only.ite yesSpares noSpares

theorem within {relation : Shell World → Shell World → Prop} [Std.Refl relation] [IsTrans (Shell World) relation]
    {prog : Leaf World α} (spares : SparesVariables prog)
    (updates : ∀ (change : Core World → Core World) (state : Shell World),
      relation state { state with toCore := change state.toCore }) : Within relation prog := by
  refine Prog.Respects.only (fun action spared before => ?_) spares
  cases action with
  | get => exact Std.Refl.refl before
  | update change => exact updates change before
  | _ => exact spared.elim

end SparesVariables

/-- The variable that an action sets or unsets, with its value. -/
def LeafAction.written : LeafAction World → Shell World → Option (Str × Option Str)
  | .write _ key var, _ => some (key, var.map (·.value))
  | .assign key var, state => if isReadonly state key then none else some (key, var.map (·.value))
  | _, _ => none

/-- What a run sets and unsets, in order. -/
def writtenVariables (prog : Leaf World α) (state : Shell World) : List (Str × Option Str) :=
  (Prog.steps handleLeaf prog state).filterMap fun step => step.1.written step.2

theorem SparesVariables.writes_nothing {prog : Leaf World α} (spares : SparesVariables prog) (state : Shell World) :
    writtenVariables prog state = [] := by
  refine List.filterMap_eq_nil_iff.mpr fun (action, before) member => ?_
  have spared : action.SparesVariables := Prog.Only.mem_steps spares member
  cases action with
  | get => rfl
  | update change => rfl
  | _ => exact spared.elim

theorem writtenVariables_bind {first : Leaf World α} (next : α → Leaf World β) {state after : Shell World} {value : α}
    (ended : Leaf.run first state = .done value after) :
    writtenVariables (first >>= next) state = writtenVariables first state ++ writtenVariables (next value) after := by
  have ended : Prog.run handleLeaf first state = .done value after := ended
  rw [writtenVariables, Prog.steps_bind, ended, List.filterMap_append]
  rfl

/-- The run ends, and has written the variables. -/
structure RunWrites (prog : Leaf World α) (state : Shell World) (writes : List (Str × Option Str)) (value : α)
    (after : Shell World) : Prop where
  ended : Leaf.run prog state = .done value after
  writes : writtenVariables prog state = writes

namespace RunWrites

variable {state between after : Shell World} {value : α} {writes more : List (Str × Option Str)}

theorem pure (value : α) (state : Shell World) : RunWrites (pure value : Leaf World α) state [] value state :=
  ⟨rfl, rfl⟩

theorem spares {prog : Leaf World α} (spares : SparesVariables prog) (ended : Leaf.run prog state = .done value after) :
    RunWrites prog state [] value after := ⟨ended, spares.writes_nothing state⟩

theorem mrshEnvSet (writer : Writer) (key text : Str) (attribs : Attribs) (state : Shell World) :
    RunWrites (mrshEnvSet writer key text attribs) state [(key, some text)] ()
      (writeVar state key (some ⟨text, attribs⟩)) := ⟨rfl, rfl⟩

theorem bind {first : Leaf World α} {next : α → Leaf World β} {last : β}
    (firstWrites : RunWrites first state writes value between)
    (nextWrites : RunWrites (next value) between more last after) :
    RunWrites (first >>= next) state (writes ++ more) last after := by
  refine ⟨?_, ?_⟩
  · rw [Leaf.run_bind_of_done firstWrites.ended, nextWrites.ended]
  · rw [writtenVariables_bind next firstWrites.ended, firstWrites.writes, nextWrites.writes]

theorem thenPure {first : Leaf World α} (firstWrites : RunWrites first state writes value between) (last : β) :
    RunWrites (first >>= fun _ => Pure.pure last) state writes last between := by
  have both : RunWrites (first >>= fun _ => Pure.pure last) state (writes ++ []) last between :=
    .bind firstWrites (.pure last between)
  rwa [List.append_nil] at both

end RunWrites

/-! ## Programs that only talk -/

/-- The action reads the state, calls the system or goes on in the options. -/
def LeafAction.Talks : LeafAction World → Prop
  | .get => True
  | .update change => ∀ core, ∃ getopt world, change core = { core with getopt, world }
  | .write _ _ _ | .assign _ _ | .setExit _ => False

abbrev Talks (prog : Leaf World α) : Prop := prog.Only LeafAction.Talks

namespace Talks

theorem gets (read : Shell World → α) : Talks (gets read) := ⟨trivial, fun _ => trivial⟩

theorem call (request : World → α × World) : Talks (call request) :=
  ⟨trivial, fun _ => ⟨fun core => ⟨core.getopt, (request core.world).2, rfl⟩, fun _ => trivial⟩⟩

theorem orCrash (value : Option α) : Talks (orCrash value : Leaf World α) := by
  cases value with
  | none => exact .stop _
  | some value => exact .pure _

theorem assertThat (condition : Bool) : Talks (assertThat condition : Leaf World Unit) :=
  Prog.Only.ite (.pure _) (.stop _)

theorem bind {first : Leaf World α} {next : α → Leaf World β} (talks : Talks first)
    (nextTalks : ∀ value, Talks (next value)) : Talks (first >>= next) := Prog.Only.bind talks nextTalks

theorem ite {condition : Prop} [Decidable condition] {yes no : Leaf World α} (yesTalks : Talks yes)
    (noTalks : Talks no) : Talks (if condition then yes else no) := Prog.Only.ite yesTalks noTalks

theorem spares {prog : Leaf World α} (talks : Talks prog) : SparesVariables prog := by
  induction prog with
  | pure value => trivial
  | stop reason => trivial
  | act action next ih =>
      refine ⟨?_, fun reply => ih reply (talks.2 reply)⟩
      cases action with
      | get => trivial
      | update change => trivial
      | _ => exact talks.1

theorem within {relation : Shell World → Shell World → Prop} [Std.Refl relation] [IsTrans (Shell World) relation]
    {prog : Leaf World α} (talks : Talks prog)
    (allowed : ∀ (state : Shell World) getopt world, relation state { state with getopt, world }) :
    Within relation prog := by
  refine Prog.Respects.only (fun action talks before => ?_) talks
  cases action with
  | get => exact Std.Refl.refl before
  | update change =>
      obtain ⟨getopt, world, same⟩ := talks before.toCore
      change relation before { before with toCore := change before.toCore }
      rw [same]
      exact allowed before getopt world
  | _ => exact talks.elim

end Talks

theorem setGetopt_talks (change : Getopt → Getopt) : Talks (setGetopt change : Leaf World Unit) :=
  ⟨fun core => ⟨change core.getopt, core.world, rfl⟩, fun _ => trivial⟩

variable [System World]

omit [System World] in
theorem slotAt_talks (argv : List ArgSlot) (i : Int) : Talks (slotAt argv i : Leaf World (Option Str)) := by
  unfold slotAt
  refine .ite (.stop _) ?_
  split
  · exact .pure _
  · exact .pure _
  · exact .stop _

omit [System World] in
theorem argvStr_talks (argv : List ArgSlot) (i : Int) : Talks (argvStr argv i : Leaf World Str) :=
  .bind (slotAt_talks argv i) fun _ => .orCrash _

theorem argv0Message_talks (parts : List Str) : Talks (argv0Message parts : Leaf World Unit) := by
  have frameArg_talks : Talks (frameArg 0 : Leaf World Str) :=
    .bind (.gets _) fun argv => .bind (slotAt_talks argv 0) fun _ => .orCrash _
  exact .bind frameArg_talks fun _ => .call _

theorem getoptMessage_talks (argv : List ArgSlot) (optstring : Str) (opt : Char) (msg : Str) :
    Talks (getoptMessage argv optstring opt msg : Leaf World Unit) :=
  .ite (.pure _) (.bind (argvStr_talks argv 0) fun _ => .call _)

theorem getoptArgument_talks (argc : Int) (argv : List ArgSlot) (optstring : Str) (opt : Char) (arg : Str) :
    Talks (getoptArgument argc argv optstring opt arg : Leaf World (Option Char)) := by
  refine .bind (.gets _) fun _ => .ite (.bind (setGetopt_talks _) fun _ => .pure _) (.ite ?_ ?_)
  · exact .bind (setGetopt_talks _) fun _ => .bind (getoptMessage_talks argv optstring opt _) fun _ =>
      .pure _
  · exact .bind (slotAt_talks argv _) fun _ => .bind (setGetopt_talks _) fun _ => .pure _

theorem getoptOption_talks (argc : Int) (argv : List ArgSlot) (optstring arg : Str) :
    Talks (getoptOption argc argv optstring arg : Leaf World (Option Char)) := by
  refine .bind (setGetopt_talks _) fun _ => .bind (.gets _) fun optpos => .bind (.assertThat _) fun _ => ?_
  dsimp only
  cases findOptionChar (strChar arg optpos) (optionChars optstring) with
  | none => exact .bind (getoptMessage_talks argv optstring _ _) fun _ => .pure _
  | some hasArgument =>
      cases hasArgument with
      | false => exact .bind (setGetopt_talks _) fun _ => .pure _
      | true => exact getoptArgument_talks argc argv optstring _ arg

theorem mrshGetopt_talks (argc : Int) (argv : List ArgSlot) (optstring : Str) :
    Talks (mrshGetopt argc argv optstring : Leaf World (Option Char)) := by
  refine .bind (slotAt_talks argv argc) fun _ => .bind (.assertThat _) fun _ =>
    .bind (setGetopt_talks _) fun _ => .bind (.gets _) fun _ => .ite (.pure _) ?_
  exact .bind (argvStr_talks argv _) fun arg => .ite (.pure _) (.ite
    (.bind (setGetopt_talks _) fun _ => .pure _) (getoptOption_talks argc argv optstring arg))

theorem unknownOption_talks (text usage : Str) :
    Talks (unknownOption text usage : Leaf World (Except Int β)) :=
  .bind (.gets _) fun _ => .bind (.call _) fun _ => .bind (.call _) fun _ => .pure _

theorem failWith_talks (parts : List Str) : Talks (failWith parts : Leaf World Int) :=
  .bind (.call _) fun _ => .pure _

theorem usageError_talks (usage : Str) : Talks (usageError usage : Leaf World Int) :=
  .bind (.call _) fun _ => .pure _

theorem perror_talks (text : Str) (errno : Errno) : Talks (perror text errno : Leaf World Unit) :=
  .bind (.pure _) fun _ => .call _

theorem forOptions_spares (args : List Str) (optstring : Str) (value : β) {step : β → Char → Leaf World (Except Int β)}
    (stepSpares : ∀ value opt, SparesVariables (step value opt)) :
    SparesVariables (forOptions args optstring value step) := by
  refine .bind (.update _) fun _ => ?_
  generalize args.flatten.length + 1 = fuel
  induction fuel generalizing value with
  | zero => exact .stop _
  | succ fuel ih =>
      refine .bind (mrshGetopt_talks _ _ _).spares fun opt => ?_
      cases opt with
      | none => exact .pure _
      | some opt =>
          refine .bind (stepSpares value opt) fun result => ?_
          cases result with
          | error status => exact .pure _
          | ok value => exact ih value

theorem readLineChars_spares (raw : Bool) (fuel : Nat) (escaped : Bool) (buf : Str) :
    SparesVariables (readLineChars raw fuel escaped buf : Leaf World (Str × Bool)) := by
  induction fuel generalizing escaped buf with
  | zero => exact .stop _
  | succ fuel ih =>
      refine .bind (.call _) fun c => ?_
      cases c with
      | none => exact .pure _
      | some c =>
          refine .ite (ih _ _) (.ite (.ite (.bind (.gets _) fun _ => .bind (.call _) fun _ => ih _ _)
            (.pure _)) (ih _ _))

theorem isdir_spares (path : Str) : SparesVariables (isdir path : Leaf World Bool) := by
  refine .bind (.call _) fun replied => ?_
  cases replied with
  | ok mode => exact .pure _
  | error errno => exact .bind (.call _) fun _ => .pure _

theorem readOptind_spares : SparesVariables (readOptind : Leaf World (Option Int)) := by
  refine .bind (.gets _) fun value => ?_
  cases value with
  | none => exact .bind (.call _) fun _ => .pure _
  | some str => exact .ite (.bind (.call _) fun _ => .pure _) (.pure _)

omit [System World] in
theorem operandsOf_spares (args : List Str) : SparesVariables (operandsOf args : Leaf World (List Str)) :=
  .bind (.gets _) fun _ => .pure _

theorem runVariable_spares (name : Str) : SparesVariables (runVariable name : Leaf World _) := by
  refine .bind (.gets _) fun found => ?_
  cases found with
  | none => exact .bind (.gets _) fun _ => .ite (.bind (argv0Message_talks _).spares fun _ => .pure _) (.pure _)
  | some var => exact .ite (.bind (argv0Message_talks _).spares fun _ => .pure _) (.pure _)

omit [System World] in
theorem someOf_spares {prog : Leaf World Int} (spares : SparesVariables prog) : SparesVariables (some <$> prog) := by
  exact .bind spares fun _ => .pure _

theorem runArithmAssignOp_spares (op : ArithmAssignOp) (cur val : Int) :
    SparesVariables (runArithmAssignOp op cur val : Leaf World _) := by
  have divides (operation : Int → Int → Int) : SparesVariables (some <$> divideLong operation cur val : Leaf World _) :=
    someOf_spares (.bind (.assertThat _) fun _ => .pure _)
  have shifts (operation : Int → Nat → Int) : SparesVariables (some <$> shiftLong operation cur val : Leaf World _) :=
    someOf_spares (.bind (.assertThat _) fun _ => .pure _)
  cases op with
  | slash => exact .ite (.bind (.call _) fun _ => .pure _) (divides _)
  | percent => exact .ite (.bind (.call _) fun _ => .pure _) (divides _)
  | dless => exact shifts _
  | dgreat => exact shifts _
  | _ => exact .pure _

end

end Mrsh

import Mrsh.Data.Performing
import Mrsh.Shell.FileRedirections
import Mrsh.Shell.Frames
import Mrsh.Shell.JobFootprint

namespace Mrsh

open Mrsh.Data

/-! # The redirections of a simple command

A command is an assignment without a name, a function, a builtin or an external program, and
each of these paths has its own code. Builtins and programs perform the redirections of the
command. The other two never look at them.
-/

/-- What the calls do to the table of descriptors, to those that `execv` closes, and to the record of the calls. -/
structure PerformanceLaws (World δ : Type) [System World] (table : World → Descriptors δ) (closing : World → Int → Bool)
    (events : World → List (TableEvent Request δ)) : Prop where
  closed : ∀ (world : World) n, table world n = none → closing world n = false
  openFile : ∀ path mode fd (world : World) after, System.openFile path mode world = (.ok fd, after) →
    IsLowestFree (table world) fd ∧ closing after = Function.update (closing world) fd true ∧
      ∃ file, table after = Function.update (table world) fd (some file) ∧
        events after = events world ++ [.opened (.openFile path mode) fd file]
  pipe : ∀ fds (world : World) after, System.pipe world = (.ok fds, after) →
    IsLowestFree (table world) fds.1 ∧ table world fds.2 = none ∧ fds.1 ≠ fds.2 ∧
      closing after = Function.update (Function.update (closing world) fds.1 false) fds.2 false ∧
      ∃ input output, table after = Function.update (Function.update (table world) fds.1 (some input)) fds.2
        (some output) ∧
        events after = events world ++ [.opened .pipe fds.1 input]
  close : ∀ fd (world : World), table (System.close fd world).2 = Function.update (table world) fd none ∧
    closing (System.close fd world).2 = Function.update (closing world) fd false ∧
    events (System.close fd world).2 = events world
  dup : ∀ fd copy (world : World) after, System.dup fd world = (.ok copy, after) →
    table world copy = none ∧ table after = Function.update (table world) copy (table world fd) ∧
      events after = events world
  dup2 : ∀ source target (world : World) after, System.dup2 source target world = (.ok (), after) → source ≠ target →
    ∃ file, table world source = some file ∧ table after = Function.update (table world) target (some file) ∧
      closing after = Function.update (closing world) target false ∧
      events after = events world ++ [.moved source target file]
  write : ∀ fd text (world : World), table (System.write fd text world).2 = table world ∧
    closing (System.write fd text world).2 = closing world ∧ events (System.write fd text world).2 = events world
  fork : ∀ world : World, table (System.fork world).2 = table world ∧ closing (System.fork world).2 = closing world ∧
    events (System.fork world).2 = events world
  printErr : ∀ text (world : World), table (System.printErr text world).2 = table world ∧
    closing (System.printErr text world).2 = closing world ∧ events (System.printErr text world).2 = events world

/-- What a redirection asks for. -/
def placingOf (redir : IoRedirect) : Option (Placing Request) :=
  match mrshWordStr redir.name, redir.op with
  | none, _ => none
  | some filename, .lessand | some filename, .greatand =>
      (parseFd filename).toOption.map fun fd => .duplicates fd (redirTarget redir)
  | some _, .dless | some _, .dlessdash => some (.opens .pipe (redirTarget redir))
  | some filename, op => (openMode op).map fun mode => .opens (.openFile filename mode) (redirTarget redir)

/-- A file is opened so that `execv` closes it, a pipe is not. -/
def closedByExec : Request → Bool
  | .openFile _ _ => true
  | .pipe => false

section

variable {World δ : Type} [System World] {table : World → Descriptors δ} {closing : World → Int → Bool}
  {events : World → List (TableEvent Request δ)}

/-! ## One redirection -/

variable (table closing events) in
/-- The source of a placement is opened, or it is a number that is not looked at. -/
inductive Sourced (state opened : Shell World) (fd : Int) : Placing Request → Prop where
  | opens {request : Request} {target : Int} {file : δ} (free : IsLowestFree (table state.world) fd)
      (updated : table opened.world = Function.update (table state.world) fd (some file))
      (flagged : closing opened.world = Function.update (closing state.world) fd (closedByExec request))
      (noted : events opened.world = events state.world ++ [.opened request fd file]) :
      Sourced state opened fd (.opens request target)
  | duplicates {target : Int} (same : opened = state) : Sourced state opened fd (.duplicates fd target)

variable (table closing events) in
def UntouchedTable (before after : Shell World) : Prop :=
  table after.world = table before.world ∧ closing after.world = closing before.world ∧
    events after.world = events before.world

instance : Std.Refl (UntouchedTable table closing events) := ⟨fun _ => ⟨rfl, rfl, rfl⟩⟩

instance : IsTrans (Shell World) (UntouchedTable table closing events) :=
  ⟨fun _ _ _ first second =>
    ⟨second.1.trans first.1, second.2.1.trans first.2.1, second.2.2.trans first.2.2⟩⟩

variable (laws : PerformanceLaws World δ table closing events)

include laws

theorem writeAll_untouchedTable (fd : Int) (text : Str) :
    Within (UntouchedTable table closing events) (writeHereDocumentLine.writeAll fd text) := by
  have prints : ∀ msg : Str, Within (UntouchedTable table closing events) (eprintf msg : Leaf World Unit) :=
    fun msg => .call fun state => laws.printErr msg state.world
  refine .bind (.call fun state => laws.write fd text state.world) fun written => ?_
  cases written with
  | error errno => exact .bind (.pure _) fun _ => .bind (prints _) fun _ => .pure _
  | ok n => exact .ite (.bind (prints _) fun _ => .pure _) (.pure _)

theorem writeHereDocumentLines_untouchedTable (fd : Int) (maxSize : Option Nat) (lines : List Word) :
    Within (UntouchedTable table closing events) (writeHereDocumentLines fd maxSize lines) := by
  have line : ∀ line, Within (UntouchedTable table closing events) (writeHereDocumentLine fd line maxSize) := by
    intro line
    refine .bind (.orCrash _) fun text =>
      .ite (.pure _) (.bind (writeAll_untouchedTable laws fd text) fun written => ?_)
    cases written with
    | error errno => exact .pure _
    | ok _ =>
        refine .bind (writeAll_untouchedTable laws fd ['\n']) fun written => ?_
        cases written with
        | error errno => exact .pure _
        | ok _ => exact .pure _
  induction lines with
  | nil => exact .pure _
  | cons first lines ih =>
      refine .bind (line first) fun written => ?_
      cases written with
      | error errno => exact .pure _
      | ok n =>
          cases n with
          | zero => exact .pure _
          | succ n => exact ih

theorem closedPipe_sourced {state piped between after : Shell World} {fds : Int × Int} {target : Int}
    (pipe : Leaf.run (call System.pipe) state = .done (.ok fds) piped)
    (written : UntouchedTable table closing events piped between)
    (closes : after.world = (System.close fds.2 between.world).2) :
    Sourced table closing events state after fds.1 (.opens .pipe target) := by
  rw [Leaf.run_call] at pipe
  obtain ⟨reply, world⟩ := Outcome.done.inj pipe
  obtain ⟨free, writingFree, different, pipeClosing, input, output, pipeTable, pipeEvents⟩ :=
    laws.pipe fds state.world (System.pipe state.world).2 (Prod.ext reply rfl)
  have same : (System.pipe state.world).2 = piped.world := by rw [← world]
  rw [same] at pipeClosing pipeTable pipeEvents
  obtain ⟨sameTable, sameClosing, sameEvents⟩ := written
  obtain ⟨closeTable, closeClosing, closeEvents⟩ := laws.close fds.2 between.world
  rw [← closes] at closeTable closeClosing closeEvents
  have updated : table after.world = Function.update (table state.world) fds.1 (some input) := by
    rw [closeTable, sameTable, pipeTable, Function.update_idem]
    funext n
    by_cases writing : n = fds.2
    · rw [writing, Function.update_self, Function.update_of_ne (Ne.symm different), writingFree]
    · rw [Function.update_of_ne writing]
  have flagged : closing after.world = Function.update (closing state.world) fds.1 false := by
    rw [closeClosing, sameClosing, pipeClosing, Function.update_idem]
    funext n
    by_cases writing : n = fds.2
    · rw [writing, Function.update_self, Function.update_of_ne (Ne.symm different), laws.closed _ _ writingFree]
    · rw [Function.update_of_ne writing]
  have noted : events after.world = events state.world ++ [.opened .pipe fds.1 input] := by
    rw [closeEvents, sameEvents, pipeEvents]
  exact .opens free updated flagged noted

theorem createHereDocumentFd_sourced {lines : List Word} {state after : Shell World} {fd target : Int}
    (ended : Leaf.run (createHereDocumentFd lines) state = .done (.ok fd) after) :
    Sourced table closing events state after fd (.opens .pipe target) := by
  obtain ⟨piped, between, pipe, rest⟩ := Leaf.run_bind_done.mp ended
  cases piped with
  | error errno =>
      obtain ⟨_, _, _, rest⟩ := Leaf.run_bind_done.mp rest
      cases rest
  | ok fds =>
      obtain ⟨written, wrote, write, rest⟩ := Leaf.run_bind_done.mp rest
      have lines := (writeHereDocumentLines_untouchedTable laws fds.2 (some pipeBuf) _).done write
      cases written with
      | error errno =>
          obtain ⟨_, _, _, rest⟩ := Leaf.run_bind_done.mp rest
          cases rest
      | ok more =>
          cases more with
          | nil =>
              cases rest
              exact closedPipe_sourced laws pipe lines rfl
          | cons line more =>
              obtain ⟨forked, child, fork, rest⟩ := Leaf.run_bind_done.mp rest
              have forks : UntouchedTable table closing events wrote child :=
                (Within.call fun state => laws.fork state.world).done fork
              cases forked with
              | error errno =>
                  obtain ⟨_, _, _, rest⟩ := Leaf.run_bind_done.mp rest
                  obtain ⟨_, _, _, rest⟩ := Leaf.run_bind_done.mp rest
                  cases rest
              | ok pid =>
                  rw [Leaf.run_ite] at rest
                  split at rest
                  · obtain ⟨_, _, _, rest⟩ := Leaf.run_bind_done.mp rest
                    obtain ⟨_, _, _, rest⟩ := Leaf.run_bind_done.mp rest
                    obtain ⟨_, _, _, rest⟩ := Leaf.run_bind_done.mp rest
                    cases rest
                  · cases rest
                    exact closedPipe_sourced laws pipe (IsTrans.trans _ _ _ lines forks) rfl

theorem openFile_sourced {path : Str} {mode : OpenMode} {state after : Shell World} {fd target : Int}
    (ended : Leaf.run (call (System.openFile path mode)) state = .done (.ok fd) after) :
    Sourced table closing events state after fd (.opens (.openFile path mode) target) := by
  rw [Leaf.run_call] at ended
  obtain ⟨reply, world⟩ := Outcome.done.inj ended
  obtain ⟨free, flagged, file, updated, noted⟩ :=
    laws.openFile path mode fd state.world (System.openFile path mode state.world).2 (Prod.ext reply rfl)
  have same : (System.openFile path mode state.world).2 = after.world := by rw [← world]
  rw [same] at flagged updated noted
  exact .opens free updated flagged noted

theorem processRedir_sourced {redir : IoRedirect} {state after : Shell World} {fd redirFd : Int}
    (ended : Leaf.run (processRedir redir) state = .done (some (fd, redirFd)) after) :
    ∃ placing, placingOf redir = some placing ∧ placing.target = redirFd ∧
      Sourced table closing events state after fd placing := by
  obtain ⟨filename, between, name, rest⟩ := Leaf.run_bind_done.mp ended
  obtain ⟨named, same⟩ := orCrash_done name
  subst same
  obtain ⟨opened, last, opening, rest⟩ := Leaf.run_bind_done.mp rest
  cases opened with
  | error errno =>
      obtain ⟨_, _, _, rest⟩ := Leaf.run_bind_done.mp rest
      obtain ⟨_, _, _, rest⟩ := Leaf.run_bind_done.mp rest
      cases rest
  | ok source =>
      obtain ⟨rfl, rfl, rfl⟩ : source = fd ∧ redirTarget redir = redirFd ∧ last = after := by
        cases rest
        exact ⟨rfl, rfl, rfl⟩
      unfold openRedirect at opening
      cases operator : redir.op with
      | less | great | clobber | dgreat | lessgreat =>
          rw [operator] at opening
          exact ⟨.opens _ (redirTarget redir), by simp only [placingOf, named, operator, openMode, Option.map_some],
            rfl, openFile_sourced laws opening⟩
      | lessand | greatand =>
          rw [operator] at opening
          obtain ⟨parsed, same⟩ := Outcome.done.inj opening
          exact ⟨.duplicates source (redirTarget redir),
            by simp only [placingOf, named, operator, parsed, Except.toOption, Option.map_some], rfl,
              .duplicates same.symm⟩
      | dless | dlessdash =>
          rw [operator] at opening
          exact ⟨.opens .pipe (redirTarget redir), by simp only [placingOf, named, operator], rfl,
            createHereDocumentFd_sourced laws opening⟩

/-! ## All redirections -/

omit laws in
theorem asks_cons {redir : IoRedirect} {redirs : List IoRedirect} {placing : Placing Request}
    {placings : List (Placing Request)} (first : placingOf redir = some placing)
    (others : redirs.mapM placingOf = some placings) :
    (redir :: redirs).mapM placingOf = some (placing :: placings) := by
  rw [List.mapM_cons, first, others]
  rfl

theorem redirectProcess_performs {redirs : List IoRedirect} {state after : Shell World}
    (ended : Leaf.run (redirectProcess redirs) state = .done () after) :
    ∃ placings made entries, redirs.mapM placingOf = some placings ∧ events after.world = events state.world ++ made ∧
      PlacesForExec closedByExec (table state.world) (closing state.world) placings made entries (table after.world)
        (closing after.world) := by
  induction redirs generalizing state with
  | nil =>
      cases ended
      exact ⟨[], [], [], rfl, by simp, .nil _ _⟩
  | cons redir redirs ih =>
      obtain ⟨found, opened, processed, rest⟩ := Leaf.run_bind_done.mp ended
      rcases found with _ | ⟨fd, redirFd⟩
      · cases rest
      obtain ⟨placing, asked, rfl, sourced⟩ := processRedir_sourced laws processed
      dsimp only at rest
      rw [Leaf.run_ite] at rest
      by_cases same : fd = placing.target
      · rw [if_pos (by simpa using same)] at rest
        obtain ⟨placings, made, entries, asks, noted, places⟩ := ih rest
        cases sourced with
        | @opens request target file free updated flagged openNoted =>
            obtain rfl : fd = target := same
            rw [updated, flagged] at places
            refine ⟨_, _, _, asks_cons asked asks, ?_, .inPlace free places⟩
            rw [noted, openNoted, List.append_assoc, List.singleton_append]
        | @duplicates target unchanged =>
            obtain rfl : fd = target := same
            subst unchanged
            exact ⟨_, made, entries, asks_cons asked asks, noted, .stays fd places⟩
      · rw [if_neg (by simpa using same)] at rest
        obtain ⟨moved, between, move, rest⟩ := Leaf.run_bind_done.mp rest
        cases moved with
        | error errno =>
            obtain ⟨_, _, _, rest⟩ := Leaf.run_bind_done.mp rest
            obtain ⟨_, _, _, rest⟩ := Leaf.run_bind_done.mp rest
            cases rest
        | ok _ =>
            rw [Leaf.run_call] at move
            obtain ⟨reply, world⟩ := Outcome.done.inj move
            obtain ⟨file, isOpen, movedTable, movedClosing, movedNoted⟩ := laws.dup2 fd placing.target opened.world
              (System.dup2 fd placing.target opened.world).2 (Prod.ext reply rfl) same
            have sameWorld : (System.dup2 fd placing.target opened.world).2 = between.world := by rw [← world]
            rw [sameWorld] at movedTable movedClosing movedNoted
            obtain ⟨placings, made, entries, asks, noted, places⟩ := ih rest
            rw [movedTable, movedClosing] at places
            cases sourced with
            | @opens request target opens free updated flagged openNoted =>
                obtain rfl : file = opens := by
                  rw [updated, Function.update_self] at isOpen
                  exact (Option.some.inj isOpen).symm
                rw [updated, flagged] at places
                refine ⟨_, _, _, asks_cons asked asks, ?_, .moved free same places⟩
                rw [noted, movedNoted, openNoted]
                simp [Placing.target]
            | @duplicates target unchanged =>
                subst unchanged
                refine ⟨_, _, _, asks_cons asked asks, ?_, .duplicated same isOpen places⟩
                rw [noted, movedNoted]
                simp [Placing.target]

/-- What a builtin does with the source of a placement that is to be moved. -/
theorem dupAndSaveFd_moves {fd target : Int} {state after : Shell World} {saved : SavedFd} (different : fd ≠ target)
    (ended : Leaf.run (dupAndSaveFd fd target) state = .done (some saved) after) :
    ∃ copy file, table state.world copy = none ∧
      table after.world = Function.update (Function.update (table state.world) copy (table state.world target)) target
        (some file) ∧
      Function.update (table state.world) copy (table state.world target) fd = some file ∧
      events after.world = events state.world ++ [.moved fd target file] := by
  rw [dupAndSaveFd, Leaf.run_ite, if_neg (by simpa using different)] at ended
  obtain ⟨copied, between, copy, rest⟩ := Leaf.run_bind_done.mp ended
  cases copied with
  | error errno =>
      obtain ⟨_, _, _, rest⟩ := Leaf.run_bind_done.mp rest
      cases rest
  | ok copied =>
      rw [Leaf.run_call] at copy
      obtain ⟨reply, world⟩ := Outcome.done.inj copy
      obtain ⟨copyFree, copyTable, copyEvents⟩ :=
        laws.dup target copied state.world (System.dup target state.world).2 (Prod.ext reply rfl)
      have sameCopy : (System.dup target state.world).2 = between.world := by rw [← world]
      rw [sameCopy] at copyTable copyEvents
      obtain ⟨moved, last, move, rest⟩ := Leaf.run_bind_done.mp rest
      cases moved with
      | error errno =>
          obtain ⟨_, _, _, rest⟩ := Leaf.run_bind_done.mp rest
          cases rest
      | ok _ =>
          cases rest
          rw [Leaf.run_call] at move
          obtain ⟨reply, world⟩ := Outcome.done.inj move
          obtain ⟨file, isOpen, movedTable, _, movedEvents⟩ :=
            laws.dup2 fd target between.world (System.dup2 fd target between.world).2 (Prod.ext reply rfl) different
          have sameMove : (System.dup2 fd target between.world).2 = after.world := by rw [← world]
          rw [sameMove, copyTable] at movedTable
          rw [sameMove, copyEvents] at movedEvents
          rw [copyTable] at isOpen
          exact ⟨copied, file, copyFree, movedTable, isOpen, movedEvents⟩

theorem redirectBuiltin_performs {redirs : List IoRedirect} {state after : Shell World} {fds : List SavedFd}
    (ended : Leaf.run (redirectBuiltin redirs) state = .done (some fds) after) :
    ∃ placings made entries, redirs.mapM placingOf = some placings ∧ events after.world = events state.world ++ made ∧
      Places (table state.world) placings made entries (table after.world) := by
  induction redirs generalizing state fds with
  | nil =>
      cases ended
      exact ⟨[], [], [], rfl, by simp, .nil _⟩
  | cons redir redirs ih =>
      obtain ⟨found, opened, processed, rest⟩ := Leaf.run_bind_done.mp ended
      rcases found with _ | ⟨fd, redirFd⟩
      · cases rest
      obtain ⟨placing, asked, rfl, sourced⟩ := processRedir_sourced laws processed
      obtain ⟨saved, between, saves, rest⟩ := Leaf.run_bind_done.mp rest
      cases saved with
      | none => cases rest
      | some saved =>
          obtain ⟨others, last, later, rest⟩ := Leaf.run_bind_done.mp rest
          cases others with
          | none => cases rest
          | some others =>
              cases rest
              obtain ⟨placings, made, entries, asks, noted, places⟩ := ih later
              by_cases same : fd = placing.target
              · have unchanged : between = opened := by
                  rw [dupAndSaveFd, Leaf.run_ite, if_pos (by simpa using same)] at saves
                  exact (Outcome.done.inj saves).2.symm
                subst unchanged
                cases sourced with
                | @opens request target file free updated flagged openNoted =>
                    obtain rfl : fd = target := same
                    have placed : table between.world fd = some file := by rw [updated, Function.update_self]
                    have kept : ∀ n, n ≠ fd → table state.world n ≠ none → table between.world n =
                      table state.world n :=
                      fun n different _ => by rw [updated, Function.update_of_ne different]
                    refine ⟨_, _, _, asks_cons asked asks, ?_,
                      .place (.inPlace request fd file .nil) placed kept places⟩
                    rw [noted, openNoted, List.append_assoc]
                | @duplicates target unchanged =>
                    obtain rfl : fd = target := same
                    subst unchanged
                    exact ⟨_, made, entries, asks_cons asked asks, noted, .stays fd places⟩
              · obtain ⟨copy, file, copyFree, movedTable, sourceOpen, movedNoted⟩ := dupAndSaveFd_moves laws same saves
                have placed : table between.world placing.target = some file := by rw [movedTable, Function.update_self]
                have keptOpen : ∀ n, n ≠ placing.target → table opened.world n ≠ none →
                    table between.world n = table opened.world n := by
                  intro n different isOpen
                  have notCopy : n ≠ copy := by
                    rintro rfl
                    exact isOpen copyFree
                  rw [movedTable, Function.update_of_ne different, Function.update_of_ne notCopy]
                cases sourced with
                | @opens request target opens free updated flagged openNoted =>
                    have notCopy : fd ≠ copy := by
                      rintro rfl
                      rw [updated, Function.update_self] at copyFree
                      cases copyFree
                    obtain rfl : opens = file := by
                      rw [Function.update_of_ne notCopy, updated, Function.update_self] at sourceOpen
                      exact Option.some.inj sourceOpen
                    have kept : ∀ n, n ≠ target → table state.world n ≠ none →
                        table between.world n = table state.world n := by
                      intro n different isOpen
                      have notOpened : n ≠ fd := by
                        rintro rfl
                        exact isOpen free.2.1
                      have sameOpened : table opened.world n = table state.world n := by
                        rw [updated, Function.update_of_ne notOpened]
                      rw [keptOpen n different (by rw [sameOpened]; exact isOpen), sameOpened]
                    refine ⟨_, _, _, asks_cons asked asks, ?_,
                      .place (.moved request opens same .nil) placed kept places⟩
                    rw [noted, movedNoted, openNoted]
                    simp [Placing.target]
                | @duplicates target unchanged =>
                    subst unchanged
                    refine ⟨_, _, _, asks_cons asked asks, ?_,
                      .place (.duplicated file same .nil) placed keptOpen places⟩
                    rw [noted, movedNoted]
                    simp [Placing.target]

end

/-! ## The paths -/

inductive DispatchPath where
  | noName | function | builtin | external
deriving Repr, DecidableEq

section

variable {World δ : Type} [System World]

/-- The part of `run_simple_command` without a name before the assignments are made. -/
def beforeAssignments (self : Tasks World) (ctx : Context) (sc : SimpleCommand) :
    Exec World (Except Int (List Assignment)) := do
  record .simpleCommand
  let generation ← leaf newSerial
  let assignments ← leaf (orCrash (assignmentArrayCopy generation sc.assignments))
  let (ret, assignments) ← expandAssignments self ctx assignments
  pure (if ret < 0 then .error ret else .ok assignments)

/-- The part of `run_simple_command` before it looks the name up. -/
def beforeDispatch (self : Tasks World) (ctx : Context) (sc : SimpleCommand) (name : Word) :
    Exec World (Except Int (SimpleCommand × List Str)) := do
  record .simpleCommand
  let generation ← leaf newSerial
  let sc ← leaf (orCrash (simpleCommandCopy generation sc))
  match ← expandCommand self ctx sc name with
  | .error ret => pure (.error ret)
  | .ok (sc, args) => do
      traceCommand self args
      pure (.ok (sc, args))

/-- The copy of the body of a function, in a frame of its own. -/
def enterFunction (args : List Str) (body : Command) : Exec World Command := do
  pushFrame args
  let generation ← leaf newSerial
  leaf (orCrash (mrshCommandCopy generation body))

/-- The part of the child of `run_process` before the redirections. -/
def beforeRedirections (fuel : Nat) (ctx : Context) (sc : SimpleCommand) : Leaf World Unit := do
  let pid ← call System.getpid
  let _ ← initChild ctx pid false
  leaveJobControl fuel
  setAssignments sc.assignments
  populateEnvAll

/-- The part after them. -/
def executeProcess {α : Type} (path : Str) (argv : List Str) : Leaf World α := do
  let errno ← execv path argv
  let msg ← strerror errno
  eprintf (argv.headD [] ++ ": ".toList ++ msg ++ ['\n'])
  exitProcess 127

/-- A run of the command comes to what it runs on one of the paths: from the state in which its words are expanded
and its redirections are to be performed to the one in which that starts. -/
inductive BodyStarts (fuel : Nat) (ctx : Context) (sc : SimpleCommand) (state : Shell World) :
    DispatchPath → List IoRedirect → Shell World → Exec World Int → Shell World → Prop where
  | noName {assignments : List Assignment} {begins : Shell World} (nameless : sc.name = none)
      (expanded : Exec.run (beforeAssignments (tasks fuel) ctx sc) state = .done (.ok assignments) begins) :
      BodyStarts fuel ctx sc state .noName sc.ioRedirects begins (leaf (runAssignments assignments)) begins
  | function {name : Word} {expanded : SimpleCommand} {args : List Str} {body copy : Command}
    {begins starts : Shell World}
      (named : sc.name = some name)
      (dispatched : Exec.run (beforeDispatch (tasks fuel) ctx sc name) state = .done (.ok (expanded, args)) begins)
      (found : begins.functions.get (args.headD []) = some body)
      (entered : Exec.run (enterFunction args body) begins = .done copy starts) :
      BodyStarts fuel ctx sc state .function expanded.ioRedirects begins ((tasks fuel).runCommand ctx copy) starts
  | builtin {name : Word} {expanded : SimpleCommand} {args : List Str} {fds : List SavedFd}
    {begins starts : Shell World}
      (named : sc.name = some name)
      (dispatched : Exec.run (beforeDispatch (tasks fuel) ctx sc name) state = .done (.ok (expanded, args)) begins)
      (noFunction : begins.functions.get (args.headD []) = none) (isBuiltin : mrshHasBuiltin (args.headD []) = true)
      (redirected : Leaf.run (redirectBuiltin expanded.ioRedirects) begins = .done (some fds) starts) :
      BodyStarts fuel ctx sc state .builtin expanded.ioRedirects begins ((tasks fuel).mrshRunBuiltin args) starts
  | external {name : Word} {expanded : SimpleCommand} {args : List Str} {path : Str}
      {dispatch located child begins starts : Shell World} (named : sc.name = some name)
      (dispatched : Exec.run (beforeDispatch (tasks fuel) ctx sc name) state = .done (.ok (expanded, args)) dispatch)
      (noFunction : dispatch.functions.get (args.headD []) = none)
      (noBuiltin : mrshHasBuiltin (args.headD []) = false) (job : ctx.job.isSome = true)
      (found : Leaf.run (expandPath (args.headD []) true false) dispatch = .done (some path) located)
      (forked : Leaf.run (call System.fork) located = .done (.ok 0) child)
      (prepared : Leaf.run (beforeRedirections (tasks fuel : Tasks World).fuel ctx expanded) child = .done () begins)
      (redirected : Leaf.run (redirectProcess expanded.ioRedirects) begins = .done () starts) :
      BodyStarts fuel ctx sc state .external expanded.ioRedirects begins (leaf (executeProcess path args)) starts

theorem runProcessChild_split {α : Type} (fuel : Nat) (ctx : Context) (sc : SimpleCommand) (path : Str)
    (argv : List Str) :
    (runProcessChild fuel ctx sc path argv : Leaf World α) = (do
      beforeRedirections fuel ctx sc
      redirectProcess sc.ioRedirects
      executeProcess path argv) := by
  simp only [runProcessChild, beforeRedirections, executeProcess, bind_assoc]

theorem runOnlyAssignments_run {fuel : Nat} {ctx : Context} {sc : SimpleCommand} {state begins : Shell World}
    {assignments : List Assignment} (nameless : sc.name = none)
    (expanded : Exec.run (beforeAssignments (tasks fuel) ctx sc) state = .done (.ok assignments) begins) :
    Exec.run (runSimpleCommand (tasks fuel) ctx sc) state = Leaf.run (runAssignments assignments) begins := by
  obtain ⟨_, recorded, noted, expanded⟩ := Exec.run_bind_done.mp expanded
  obtain ⟨generation, numbered, serial, expanded⟩ := Exec.run_bind_done.mp expanded
  obtain ⟨copies, copied, copy, expanded⟩ := Exec.run_bind_done.mp expanded
  obtain ⟨⟨ret, values⟩, last, expands, returned⟩ := Exec.run_bind_done.mp expanded
  have natural : ¬ret < 0 := by
    intro failed
    simp only [if_pos failed] at returned
    cases returned
  simp only [if_neg natural] at returned
  cases returned
  rw [runSimpleCommand, Exec.run_bind_of_done noted, nameless]
  change Exec.run (runOnlyAssignments (tasks fuel) ctx sc) recorded = _
  rw [runOnlyAssignments, Exec.run_bind_of_done serial, Exec.run_bind_of_done copy,
    Exec.run_bind_of_done expands]
  change Exec.run (if ret < 0 then _ else _) _ = _
  rw [if_neg natural, Exec.run_leaf]

/-- The part after the name has been looked up, and the command has been traced. -/
theorem runSimpleCommand_dispatched {fuel : Nat} {ctx : Context} {sc expanded : SimpleCommand} {name : Word}
    {args : List Str} {state begins : Shell World} (named : sc.name = some name)
    (dispatched : Exec.run (beforeDispatch (tasks fuel) ctx sc name) state = .done (.ok (expanded, args)) begins) :
    Exec.run (runSimpleCommand (tasks fuel) ctx sc) state =
      match begins.functions.get (args.headD []) with
      | some body => Exec.run (runFunction (tasks fuel) ctx body args) begins
      | none =>
          if mrshHasBuiltin (args.headD []) then Exec.run (runBuiltin (tasks fuel) expanded args) begins
          else Leaf.run (runProcess (tasks fuel : Tasks World).fuel ctx expanded args) begins := by
  obtain ⟨_, recorded, noted, dispatched⟩ := Exec.run_bind_done.mp dispatched
  obtain ⟨generation, numbered, serial, dispatched⟩ := Exec.run_bind_done.mp dispatched
  obtain ⟨copied, between, copy, dispatched⟩ := Exec.run_bind_done.mp dispatched
  obtain ⟨result, prepared, expands, dispatched⟩ := Exec.run_bind_done.mp dispatched
  rcases result with ret | ⟨result, words⟩
  · cases dispatched
  · obtain ⟨_, last, traced, returned⟩ := Exec.run_bind_done.mp dispatched
    cases returned
    rw [runSimpleCommand, Exec.run_bind_of_done noted, named]
    simp only [Exec.run_bind, serial, Outcome.andThen_done, copy, expands]
    rw [runExpanded, Exec.run_bind_of_done traced, Exec.run_gets_bind]
    cases begins.functions.get (args.headD []) with
    | some body => rfl
    | none => rw [Exec.run_ite, Exec.run_leaf]

/-- The run of the command goes on with what it runs. -/
theorem BodyStarts.run {fuel : Nat} {ctx : Context} {sc : SimpleCommand} {state begins starts : Shell World}
    {path : DispatchPath} {redirs : List IoRedirect} {body : Exec World Int}
    (bodyStarts : BodyStarts fuel ctx sc state path redirs begins body starts) :
    ∃ rest : Int → Exec World Int, Exec.run (runSimpleCommand (tasks fuel) ctx sc) state =
      (Exec.run body starts).andThen fun ret after => Exec.run (rest ret) after := by
  cases bodyStarts with
  | noName nameless expanded =>
      refine ⟨pure, ?_⟩
      rw [runOnlyAssignments_run nameless expanded, Exec.run_leaf]
      exact (Outcome.andThen_pure _).symm
  | function named dispatched found entered =>
      refine ⟨fun ret => do popFrame; pure ret, ?_⟩
      rw [runSimpleCommand_dispatched named dispatched, found]
      obtain ⟨_, pushed, push, entered⟩ := Exec.run_bind_done.mp entered
      obtain ⟨generation, numbered, serial, copied⟩ := Exec.run_bind_done.mp entered
      dsimp only
      rw [runFunction, Exec.run_bind_of_done push, Exec.run_bind_of_done serial,
        Exec.run_bind_of_done copied, Exec.run_bind]
  | @builtin _ _ _ fds _ _ named dispatched noFunction isBuiltin redirected =>
      refine ⟨fun ret => do if ← leaf (restoreFds fds) then pure ret else pure taskStatusError, ?_⟩
      rw [runSimpleCommand_dispatched named dispatched, noFunction]
      simp only [isBuiltin, if_true]
      rw [runBuiltin, Exec.run_leaf_bind_of_done redirected, Exec.run_bind]
  | external named dispatched noFunction noBuiltin job found forked prepared redirected =>
      refine ⟨pure, ?_⟩
      rw [runSimpleCommand_dispatched named dispatched, noFunction]
      simp only [noBuiltin, Bool.false_eq_true, if_false]
      rw [runProcess, Leaf.run_bind, job]
      change Leaf.run (expandPath _ true false >>= _) _ = _
      rw [Leaf.run_bind_of_done found]
      change Leaf.run (call System.fork >>= _) _ = _
      rw [Leaf.run_bind_of_done forked]
      change Leaf.run (if (0 == 0) = true then _ else _) _ = _
      rw [if_pos (by decide), runProcessChild_split, Leaf.run_bind_of_done prepared, Leaf.run_bind_of_done redirected,
        Exec.run_leaf]
      exact (Outcome.andThen_pure _).symm

/-! ## When the redirections are performed -/

variable (table : World → Descriptors δ) (closing : World → Int → Bool) (events : World → List (TableEvent Request δ))

/-- What is seen of the table by what the command runs. -/
def seenBy : DispatchPath → World → Descriptors δ
  | .external, world => afterExec (table world) (closing world)
  | _, world => table world

/-- The redirections are performed from the first state to the second, and they are in effect. -/
def PerformsRedirections (path : DispatchPath) (redirs : List IoRedirect) (begins starts : Shell World) : Prop :=
  ∃ placings made, redirs.mapM placingOf = some placings ∧ events starts.world = events begins.world ++ made ∧
    InEffect (table begins.world) (seenBy table closing path starts.world) placings made

/-- A redirection of a number to itself. -/
def RedirectsToItself (redir : IoRedirect) : Prop := ∃ n, placingOf redir = some (.duplicates n n)

def PerformedWhen : DispatchPath → List IoRedirect → Shell World → Prop
  | .noName, redirs, _ => ∀ redir ∈ redirs, RedirectsToItself redir
  | .function, redirs, _ => ∀ redir ∈ redirs, RedirectsToItself redir
  | .builtin, _, _ => True
  | .external, redirs, begins => ∀ placings, redirs.mapM placingOf = some placings →
      KeptByExec closedByExec (openNumbers (table begins.world)) placings

variable {table closing events}

theorem mapM_placingOf_stays_iff (redirs : List IoRedirect) :
    (∃ placings, redirs.mapM placingOf = some placings ∧ ∀ placing ∈ placings, placing.Stays) ↔
      ∀ redir ∈ redirs, RedirectsToItself redir := by
  induction redirs with
  | nil => simp
  | cons redir redirs ih =>
      rw [List.forall_mem_cons, ← ih]
      constructor
      · rintro ⟨placings, asked, stay⟩
        rw [List.mapM_cons] at asked
        obtain ⟨first, firstAsked, asked⟩ := Option.bind_eq_some_iff.mp asked
        obtain ⟨others, othersAsked, same⟩ := Option.bind_eq_some_iff.mp asked
        cases same
        rw [List.forall_mem_cons] at stay
        obtain ⟨n, rfl⟩ := stay.1
        exact ⟨⟨n, firstAsked⟩, others, othersAsked, stay.2⟩
      · rintro ⟨⟨n, firstAsked⟩, others, othersAsked, stay⟩
        refine ⟨.duplicates n n :: others, ?_, ?_⟩
        · rw [List.mapM_cons, firstAsked, othersAsked]
          rfl
        · rw [List.forall_mem_cons]
          exact ⟨⟨n, rfl⟩, stay⟩

omit [System World] in
theorem performsRedirections_nothing_iff {path : DispatchPath} {redirs : List IoRedirect} {begins starts : Shell World}
    (same : starts.world = begins.world) (inShell : path ≠ .external) :
    PerformsRedirections table closing events path redirs begins starts ↔
      ∀ redir ∈ redirs, RedirectsToItself redir := by
  have seen : seenBy table closing path starts.world = table begins.world := by
    rw [same]
    cases path with
    | external => exact absurd rfl inShell
    | _ => rfl
  rw [← mapM_placingOf_stays_iff]
  unfold PerformsRedirections
  rw [seen, same]
  constructor
  · rintro ⟨placings, made, asked, noted, inEffect⟩
    obtain rfl : made = [] := by simpa using noted
    exact ⟨placings, asked, (inEffect_nothing_iff _ _).mp inEffect⟩
  · rintro ⟨placings, asked, stay⟩
    exact ⟨placings, [], asked, by simp, (inEffect_nothing_iff _ _).mpr stay⟩

omit [System World] in
theorem enterFunction_world {args : List Str} {body copy : Command} {state after : Shell World}
    (entered : Exec.run (enterFunction args body) state = .done copy after) : after.world = state.world := by
  obtain ⟨_, pushed, push, entered⟩ := Exec.run_bind_done.mp entered
  obtain ⟨generation, numbered, serial, copied⟩ := Exec.run_bind_done.mp entered
  rw [Exec.run_leaf] at copied
  obtain ⟨_, same⟩ := orCrash_done copied
  cases push
  cases serial
  rw [same]
  rfl

/-- In every run of every simple command that comes to what the command runs, the redirections are performed and in
effect exactly if it is a builtin, or a program for which nothing that `execv` closes was opened at its own target for
good. On the other paths this holds only of redirections of numbers to themselves. -/
theorem redirections_performed_iff (laws : PerformanceLaws World δ table closing events) {fuel : Nat} {ctx : Context}
    {sc : SimpleCommand} {state begins starts : Shell World} {path : DispatchPath} {redirs : List IoRedirect}
    {body : Exec World Int} (bodyStarts : BodyStarts fuel ctx sc state path redirs begins body starts) :
    (∃ rest : Int → Exec World Int, Exec.run (runSimpleCommand (tasks fuel) ctx sc) state =
      (Exec.run body starts).andThen fun ret after => Exec.run (rest ret) after) ∧
      (PerformsRedirections table closing events path redirs begins starts ↔
        PerformedWhen table path redirs begins) := by
  refine ⟨bodyStarts.run, ?_⟩
  cases bodyStarts with
  | noName nameless expanded => exact performsRedirections_nothing_iff rfl (by decide)
  | function named dispatched found entered =>
      exact performsRedirections_nothing_iff (enterFunction_world entered) (by decide)
  | builtin named dispatched noFunction isBuiltin redirected =>
      obtain ⟨placings, made, entries, asked, noted, places⟩ := redirectBuiltin_performs laws redirected
      exact iff_of_true ⟨placings, made, asked, noted, places.inEffect⟩ trivial
  | external named dispatched noFunction noBuiltin job found forked prepared redirected =>
      obtain ⟨placings, made, entries, asked, noted, places⟩ := redirectProcess_performs laws redirected
      constructor
      · rintro ⟨others, otherMade, otherAsked, otherNoted, inEffect⟩ all allAsked
        obtain rfl : made = otherMade := List.append_cancel_left (noted.symm.trans otherNoted)
        obtain rfl : placings = others := Option.some.inj (asked.symm.trans otherAsked)
        obtain rfl : placings = all := Option.some.inj (asked.symm.trans allAsked)
        exact places.inEffect_iff.mp inEffect
      · intro keeps
        exact ⟨placings, made, asked, noted, places.inEffect_iff.mpr (keeps placings asked)⟩

end

/-! ## Four commands -/

/-- The open descriptors that `execv` closes. -/
def Kernel.closes (kernel : Kernel) (n : Int) : Bool := kernel.closing n && (kernel.descriptors n).isSome

theorem Kernel.set_closes (kernel : Kernel) (fd : Int) (file : Option Str) (closing : Bool) :
    (kernel.set fd file closing).closes = Function.update kernel.closes fd (closing && file.isSome) := by
  funext n
  change (Function.update kernel.closing fd closing n && (Function.update kernel.descriptors fd file n).isSome) = _
  by_cases same : n = fd
  · rw [same, Function.update_self, Function.update_self, Function.update_self]
  · rw [Function.update_of_ne same, Function.update_of_ne same, Function.update_of_ne same, Kernel.closes]

theorem kernel_performanceLaws :
    PerformanceLaws Kernel Str Kernel.descriptors Kernel.closes Kernel.events where
  closed kernel n := by
    intro closed
    simp [Kernel.closes, closed]
  openFile path mode fd kernel after := by
    intro opened
    cases opened
    exact ⟨kernel.lowestFree_isLowestFree, Kernel.set_closes _ _ _ _, path, rfl, rfl⟩
  pipe fds kernel after := by
    intro opened
    cases opened
    let reading := (kernel.noting (.opened .pipe kernel.lowestFree "pipe".toList)).set kernel.lowestFree
      (some "pipe".toList) false
    have writingFree : Function.update kernel.descriptors kernel.lowestFree (some "pipe".toList) reading.lowestFree =
      none :=
      reading.lowestFree_isLowestFree.2.1
    have different : (kernel.lowestFree : Int) ≠ reading.lowestFree := by
      intro same
      rw [← same, Function.update_self] at writingFree
      cases writingFree
    rw [Function.update_of_ne different.symm] at writingFree
    refine ⟨kernel.lowestFree_isLowestFree, writingFree, different, ?_, _, _, rfl, rfl⟩
    exact (Kernel.set_closes _ _ _ _).trans (congrArg (Function.update · _ _) (Kernel.set_closes _ _ _ _))
  close fd kernel := ⟨rfl, Kernel.set_closes _ _ _ _, rfl⟩
  dup fd copy kernel after := by
    intro copied
    simp only [System.dup, Kernel.dup] at copied
    cases file : kernel.descriptors fd with
    | none =>
        rw [file] at copied
        cases copied
    | some name =>
        rw [file] at copied
        cases copied
        exact ⟨kernel.lowestFree_isLowestFree.2.1, rfl, rfl⟩
  dup2 source target kernel after := by
    intro moved different
    simp only [System.dup2, Kernel.dup2] at moved
    cases file : kernel.descriptors source with
    | none =>
        rw [file] at moved
        cases moved
    | some name =>
        simp only [file] at moved
        split at moved
        · cases moved
        · cases moved
          exact ⟨name, rfl, rfl, Kernel.set_closes _ _ _ _, rfl⟩
  write _ _ _ := ⟨rfl, rfl, rfl⟩
  fork _ := ⟨rfl, rfl, rfl⟩
  printErr _ _ := ⟨rfl, rfl, rfl⟩

/-- `name >log`, or only `>log`. -/
def loggedCommand (name : Option Str) : SimpleCommand where
  name := name.map fun name => .string name false false .invalid
  arguments := []
  ioRedirects := [fileRedirect 1]
  assignments := []

/-- What `>log` asks for. -/
def opensLog : Placing Request := .opens (.openFile "log".toList .truncate) 1

/-- `: >log` performs its redirection. -/
theorem redirections_performed_builtin : ∃ redirs begins body starts,
    BodyStarts 1 .initial (loggedCommand (some [':'])) (kernelShell false) .builtin redirs begins body starts ∧
      redirs.map placingOf = [some opensLog] ∧
        PerformsRedirections Kernel.descriptors Kernel.closes Kernel.events .builtin redirs begins starts := by
  have bodyStarts := @BodyStarts.builtin Kernel _ 1 .initial (loggedCommand (some [':']))
    (kernelShell false) _ _ _ _ _ _ rfl
    rfl rfl rfl rfl
  exact ⟨_, _, _, _, bodyStarts, rfl, (redirections_performed_iff kernel_performanceLaws bodyStarts).2.mpr trivial⟩

/-- A shell that has a function `f`, whose body is `:`. -/
def functionShell : Shell Kernel :=
  { kernelShell false with functions := .set .empty ['f'] (.simpleCommand (loggedCommand (some [':']))) }

theorem opensLog_notToItself {redirs : List IoRedirect} (asks : redirs.map placingOf = [some opensLog]) :
    ¬ ∀ redir ∈ redirs, RedirectsToItself redir := by
  intro stay
  obtain ⟨redir, rfl, asked⟩ := List.map_eq_singleton_iff.mp asks
  obtain ⟨n, same⟩ := stay redir (List.mem_singleton_self redir)
  rw [asked] at same
  cases same

/-- Without a command `>log` does not even open the file, nor does `f >log` for a function. -/
theorem redirection_unperformed :
    (∃ redirs begins body starts,
      BodyStarts 1 .initial (loggedCommand none) (kernelShell false) .noName redirs begins body starts ∧
        redirs.map placingOf = [some opensLog] ∧
          ¬ PerformsRedirections Kernel.descriptors Kernel.closes Kernel.events .noName redirs begins starts) ∧
    ∃ redirs begins body starts,
      BodyStarts 1 .initial (loggedCommand (some ['f'])) functionShell .function redirs begins body starts ∧
        redirs.map placingOf = [some opensLog] ∧
          ¬ PerformsRedirections Kernel.descriptors Kernel.closes Kernel.events .function redirs begins starts := by
  constructor
  · refine ⟨_, _, _, _, .noName rfl rfl, rfl, fun performed => ?_⟩
    exact opensLog_notToItself rfl ((performsRedirections_nothing_iff rfl (by decide)).mp performed)
  · have bodyStarts := @BodyStarts.function Kernel _ 1 .initial
      (loggedCommand (some ['f'])) functionShell _ _ _ _ _ _ _ rfl
      rfl rfl rfl
    refine ⟨_, _, _, _, bodyStarts, rfl, fun performed => ?_⟩
    refine opensLog_notToItself rfl ((performsRedirections_nothing_iff ?_ (by decide)).mp performed)
    rfl

end Mrsh

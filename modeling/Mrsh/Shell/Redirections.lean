import Mrsh.Data.Pipes
import Mrsh.Shell.SystemPart
import Mrsh.Shell.Task.Task

namespace Mrsh

open Mrsh.Data

/-! # The descriptors of a builtin

What `run_builtin` does to the descriptors of the shell, in a system whose calls
treat its table of descriptors as documented. Its redirections save and restore
descriptors as `Data/Descriptors.lean` has it.
-/

/-- What the calls do to the table of descriptors. -/
structure DescriptorLaws (World δ : Type) [System World] (table : World → Descriptors δ) : Prop where
  dup : ∀ fd copy world after, System.dup fd world = (.ok copy, after) →
    0 ≤ copy ∧ table world copy = none ∧ (∀ lower, 0 ≤ lower → lower < copy → table world lower ≠ none) ∧
      table world fd ≠ none ∧ table after = Function.update (table world) copy (table world fd)
  dup2 : ∀ source target world reply after, System.dup2 source target world = (.ok reply, after) →
    table world source ≠ none ∧ table after = Function.update (table world) target (table world source)
  close : ∀ fd (world : World), table (System.close fd world).2 = Function.update (table world) fd none
  openFile : ∀ path mode fd world after, System.openFile path mode world = (.ok fd, after) →
    table world fd = none ∧ ∃ file, table after = Function.update (table world) fd (some file)
  pipe : ∀ input output world after, System.pipe world = (.ok (input, output), after) →
    table world input = none ∧ table world output = none ∧ input ≠ output ∧
      ∃ source sink,
        table after = Function.update (Function.update (table world) input (some source)) output (some sink)
  write : ∀ fd text (world : World), table (System.write fd text world).2 = table world
  printErr : ∀ text (world : World), table (System.printErr text world).2 = table world
  fork : ∀ world : World, table (System.fork world).2 = table world

section

variable {World δ α β : Type} [System World] {table : World → Descriptors δ} {state after : Shell World}

/-- The program leaves the descriptors as they are. -/
def KeepsTable (table : World → Descriptors δ) (prog : Leaf World α) : Prop :=
  ∀ state, table (Leaf.run prog state).state.world = table state.world

omit [System World] in
theorem KeepsTable.pure (value : α) : KeepsTable table (pure value : Leaf World α) := fun _ => rfl

omit [System World] in
theorem KeepsTable.bind {prog : Leaf World α} {next : α → Leaf World β} (keeps : KeepsTable table prog)
    (nextKeeps : ∀ value, KeepsTable table (next value)) : KeepsTable table (prog >>= next) := by
  intro state
  rw [Leaf.run_bind]
  have first := keeps state
  cases ended : Leaf.run prog state with
  | done value between =>
      rw [ended] at first
      exact (nextKeeps value between).trans first
  | stopped reason between =>
      rw [ended] at first
      exact first

omit [System World] in
theorem KeepsTable.done {prog : Leaf World α} {value : α} (keeps : KeepsTable table prog)
    (ended : Leaf.run prog state = .done value after) : table after.world = table state.world := by
  have kept := keeps state
  rw [ended] at kept
  exact kept

omit [System World] in
theorem KeepsTable.orCrash (value : Option α) : KeepsTable table (orCrash value : Leaf World α) := by
  cases value <;> exact fun _ => rfl

section

variable (laws : DescriptorLaws World δ table)

include laws

theorem eprintf_keepsTable (text : Str) : KeepsTable table (eprintf text) := fun state => laws.printErr text state.world

theorem writeAll_keepsTable (fd : Int) (text : Str) :
    KeepsTable table (writeHereDocumentLine.writeAll fd text) := by
  refine KeepsTable.bind (fun state => laws.write fd text state.world) fun written => ?_
  cases written with
  | error errno => exact (eprintf_keepsTable laws _).bind fun _ => .pure _
  | ok n =>
      intro state
      rw [Leaf.run_ite]
      split
      · exact (eprintf_keepsTable laws _).bind (fun _ => .pure _) state
      · rfl

theorem writeHereDocumentLine_keepsTable (fd : Int) (line : Word) (maxSize : Option Nat) :
    KeepsTable table (writeHereDocumentLine fd line maxSize) := by
  apply KeepsTable.bind (.orCrash _)
  intro lineStr state
  rw [Leaf.run_ite]
  split
  · rfl
  · refine (writeAll_keepsTable laws fd lineStr).bind (fun written => ?_) state
    cases written with
    | error errno => exact .pure _
    | ok _ =>
        apply (writeAll_keepsTable laws fd ['\n']).bind
        intro written
        cases written with
        | error errno => exact .pure _
        | ok _ => exact .pure _

theorem writeHereDocumentLines_keepsTable (fd : Int) (maxSize : Option Nat) (lines : List Word) :
    KeepsTable table (writeHereDocumentLines fd maxSize lines) := by
  induction lines with
  | nil => exact .pure _
  | cons line lines ih =>
      apply (writeHereDocumentLine_keepsTable laws fd line maxSize).bind
      intro written
      cases written with
      | error errno => exact .pure _
      | ok n =>
          cases n with
          | zero => exact .pure _
          | succ n => exact ih

/-- The source of a redirection is the only number that is opened. -/
def OpensOnly (fd : Int) (before after : Descriptors δ) : Prop :=
  ∀ n, after n ≠ before n → before n = none ∧ n = fd

omit laws [System World] in
theorem OpensOnly.of_update {fd : Int} {value : Option δ} {before : Descriptors δ} (closed : before fd = none) :
    OpensOnly fd before (Function.update before fd value) := by
  intro n changed
  by_cases same : n = fd
  · subst same
    exact ⟨closed, rfl⟩
  · rw [Function.update_of_ne same] at changed
    exact absurd rfl changed

omit laws [System World] in
theorem OpensOnly.pipe {input output : Int} {source sink : δ} {before between after : Descriptors δ}
    (inputClosed : before input = none) (outputClosed : before output = none)
    (opened : between = Function.update (Function.update before input (some source)) output (some sink))
    (closed : after = Function.update between output none) : OpensOnly input before after := by
  intro n changed
  rw [closed, opened, Function.update_idem] at changed
  by_cases isOutput : n = output
  · rw [isOutput, Function.update_self, outputClosed] at changed
    exact absurd rfl changed
  · rw [Function.update_of_ne isOutput] at changed
    exact OpensOnly.of_update inputClosed n changed

theorem createHereDocumentFd_opens {lines : List Word} {fd : Int}
    (ended : Leaf.run (createHereDocumentFd lines) state = .done (.ok fd) after) :
    OpensOnly fd (table state.world) (table after.world) := by
  obtain ⟨piped, between, pipe, ended⟩ := Leaf.run_bind_done.mp ended
  rw [Leaf.run_call] at pipe
  cases piped with
  | error errno =>
      obtain ⟨_, _, _, ended⟩ := Leaf.run_bind_done.mp ended
      cases ended
  | ok fds =>
      obtain ⟨input, output⟩ := fds
      obtain ⟨reply, world⟩ := Outcome.done.inj pipe
      obtain ⟨inputClosed, outputClosed, _, source, sink, opened⟩ :=
        laws.pipe input output state.world between.world (by rw [← reply, ← world])
      obtain ⟨written, wrote, write, ended⟩ := Leaf.run_bind_done.mp ended
      rw [← (writeHereDocumentLines_keepsTable laws output (some pipeBuf) lines).done write] at opened
      have closing : ∀ {before : Shell World}, table before.world = table wrote.world →
          Leaf.run (do call (System.close output); pure (Except.ok input) : Leaf World (Except Errno Int)) before =
            .done (.ok fd) after →
          OpensOnly fd (table state.world) (table after.world) := by
        intro before same closed
        rw [Leaf.run_call_bind] at closed
        cases closed
        exact .pipe inputClosed outputClosed opened (by rw [← same]; exact laws.close output before.world)
      match written with
      | .error errno =>
          obtain ⟨_, _, _, ended⟩ := Leaf.run_bind_done.mp ended
          cases ended
      | .ok [] => exact closing rfl ended
      | .ok (line :: more) =>
          obtain ⟨forked, split, fork, ended⟩ := Leaf.run_bind_done.mp ended
          have same : table split.world = table wrote.world := by
            rw [Leaf.run_call] at fork
            cases fork
            exact laws.fork wrote.world
          cases forked with
          | error errno =>
              obtain ⟨_, _, _, ended⟩ := Leaf.run_bind_done.mp ended
              obtain ⟨_, _, _, ended⟩ := Leaf.run_bind_done.mp ended
              cases ended
          | ok pid =>
              rw [Leaf.run_ite] at ended
              split at ended
              · obtain ⟨_, _, _, ended⟩ := Leaf.run_bind_done.mp ended
                obtain ⟨_, _, _, ended⟩ := Leaf.run_bind_done.mp ended
                obtain ⟨_, _, _, ended⟩ := Leaf.run_bind_done.mp ended
                cases ended
              · exact closing same ended

theorem openRedirect_opens {redir : IoRedirect} {filename : Str} {fd : Int}
    (ended : Leaf.run (openRedirect redir filename) state = .done (.ok fd) after) :
    OpensOnly fd (table state.world) (table after.world) := by
  have opening : ∀ mode, Leaf.run (call (System.openFile filename mode)) state = .done (.ok fd) after →
      OpensOnly fd (table state.world) (table after.world) := by
    intro mode opened
    rw [Leaf.run_call] at opened
    obtain ⟨reply, world⟩ := Outcome.done.inj opened
    obtain ⟨closed, file, update⟩ := laws.openFile filename mode fd state.world after.world (by rw [← reply, ← world])
    rw [update]
    exact .of_update closed
  have parsing : Leaf.run (pure (parseFd filename)) state = .done (.ok fd) after →
      OpensOnly fd (table state.world) (table after.world) := by
    intro parsed n changed
    obtain ⟨_, same⟩ := Outcome.done.inj parsed
    rw [same] at changed
    exact absurd rfl changed
  unfold openRedirect at ended
  split at ended
  · exact opening _ ended
  · exact opening _ ended
  · exact opening _ ended
  · exact opening _ ended
  · exact parsing ended
  · exact parsing ended
  · exact opening _ ended
  · exact createHereDocumentFd_opens laws ended
  · exact createHereDocumentFd_opens laws ended

theorem processRedir_opens {redir : IoRedirect} {fd redirFd : Int}
    (processed : Leaf.run (processRedir redir) state = .done (some (fd, redirFd)) after) :
    OpensOnly fd (table state.world) (table after.world) := by
  obtain ⟨filename, between, written, ended⟩ := Leaf.run_bind_done.mp processed
  have same : table between.world = table state.world := (KeepsTable.orCrash _).done written
  rw [← same]
  obtain ⟨opened, opening, open_, ended⟩ := Leaf.run_bind_done.mp ended
  cases opened with
  | error errno =>
      obtain ⟨_, _, _, ended⟩ := Leaf.run_bind_done.mp ended
      obtain ⟨_, _, _, ended⟩ := Leaf.run_bind_done.mp ended
      cases ended
  | ok fd =>
      cases ended
      exact openRedirect_opens laws open_

end

/-! ## The run of a builtin -/

/-- The redirection that the run makes, with the tables it finds. -/
def redirections (table : World → Descriptors δ) : List IoRedirect → Shell World → List (Redirection δ)
  | [], _ => []
  | redir :: rest, state =>
      match Leaf.run (processRedir redir) state with
      | .done (some (fd, redirFd)) opened =>
          match Leaf.run (dupAndSaveFd fd redirFd) opened with
          | .done (some saved) after =>
              ⟨table state.world, table opened.world, fd, redirFd, saved.dupFd⟩ :: redirections table rest after
          | _ => []
      | _ => []

/-- What is saved for a redirection. -/
def IsSaved (saved : SavedFd) (step : Redirection δ) : Prop :=
  saved.redirFd = step.target ∧ saved.dupFd = step.copy ∧ (0 ≤ saved.dupFd ↔ step.Moves)

omit [System World] in
theorem forall_isSaved_iff {saved : List SavedFd} {steps : List (Redirection δ)}
    (isSaved : List.Forall₂ IsSaved saved steps) (property : Int → Int → Prop) :
    (∀ fd ∈ saved, property fd.redirFd fd.dupFd) ↔ ∀ step ∈ steps, property step.target step.copy := by
  induction isSaved with
  | nil => simp
  | cons first _ ih =>
      rw [List.forall_mem_cons, List.forall_mem_cons, ih, first.1, first.2.1]

section

variable (laws : DescriptorLaws World δ table)

include laws

theorem dupAndSaveFd_done {fd redirFd : Int} {saved : SavedFd} {before : Descriptors δ}
    (opens : OpensOnly fd before (table state.world))
    (ended : Leaf.run (dupAndSaveFd fd redirFd) state = .done (some saved) after) :
    let step : Redirection δ := ⟨before, table state.world, fd, redirFd, saved.dupFd⟩
    step.Valid ∧ step.after = table after.world ∧ IsSaved saved step := by
  intro step
  unfold dupAndSaveFd at ended
  rw [Leaf.run_ite] at ended
  split at ended
  · rename_i same
    have stays : ¬ step.Moves := fun moves => moves (by simpa using same)
    cases ended
    refine ⟨⟨opens, fun moves => absurd moves stays, fun moves => absurd moves stays, fun moves => absurd moves stays⟩,
      if_neg stays, rfl, rfl, ?_⟩
    simp [stays]
  · rename_i different
    have moves : step.Moves := by
      have notEqual : fd ≠ redirFd := by simpa using different
      exact notEqual
    obtain ⟨copied, between, dup, ended⟩ := Leaf.run_bind_done.mp ended
    rw [Leaf.run_call] at dup
    cases copied with
    | error errno =>
        obtain ⟨_, _, _, ended⟩ := Leaf.run_bind_done.mp ended
        cases ended
    | ok copy =>
        obtain ⟨dupReply, dupWorld⟩ := Outcome.done.inj dup
        obtain ⟨natural, free, _, targetOpen, copiedTable⟩ :=
          laws.dup redirFd copy state.world between.world (by rw [← dupReply, ← dupWorld])
        obtain ⟨moved, done, dup2, ended⟩ := Leaf.run_bind_done.mp ended
        rw [Leaf.run_call] at dup2
        cases moved with
        | error errno =>
            obtain ⟨_, _, _, ended⟩ := Leaf.run_bind_done.mp ended
            cases ended
        | ok reply =>
            obtain ⟨dup2Reply, dup2World⟩ := Outcome.done.inj dup2
            obtain ⟨sourceOpen, movedTable⟩ :=
              laws.dup2 fd redirFd between.world reply done.world (by rw [← dup2Reply, ← dup2World])
            cases ended
            have saved_ : step.saved = table between.world := copiedTable.symm
            refine ⟨⟨opens, fun _ => free, fun _ => targetOpen, fun _ => ?_⟩, ?_, rfl, rfl, ?_⟩
            · rw [saved_]
              exact sourceOpen
            · rw [Redirection.after, if_pos moves, saved_]
              exact movedTable.symm
            · simp [natural, moves]

theorem redirectBuiltin_done {redirs : List IoRedirect} {saved : List SavedFd}
    (ended : Leaf.run (redirectBuiltin redirs) state = .done (some saved) after) :
    Redirected (table state.world) (redirections table redirs state) (table after.world) ∧
      List.Forall₂ IsSaved saved (redirections table redirs state) := by
  induction redirs generalizing state saved with
  | nil =>
      cases ended
      exact ⟨.nil _, .nil⟩
  | cons redir redirs ih =>
      obtain ⟨processed, opened, process, ended⟩ := Leaf.run_bind_done.mp ended
      cases processed with
      | none => cases ended
      | some fds =>
          obtain ⟨fd, redirFd⟩ := fds
          obtain ⟨first, moved, dup, ended⟩ := Leaf.run_bind_done.mp ended
          cases first with
          | none => cases ended
          | some first =>
              obtain ⟨others, rest, redirectRest, ended⟩ := Leaf.run_bind_done.mp ended
              cases others with
              | none => cases ended
              | some others =>
                  cases ended
                  obtain ⟨redirectedRest, savedRest⟩ := ih redirectRest
                  obtain ⟨valid, stepAfter, isSaved⟩ :=
                    dupAndSaveFd_done laws (processRedir_opens laws process) dup
                  simp only [redirections, process, dup]
                  rw [← stepAfter] at redirectedRest
                  exact ⟨.cons valid redirectedRest, .cons isSaved savedRest⟩

theorem restoreFds_done {saved : List SavedFd} {steps : List (Redirection δ)}
    (isSaved : List.Forall₂ IsSaved saved steps)
    (ended : Leaf.run (restoreFds saved) state = .done true after) :
    restore steps (table state.world) = table after.world ∧ Restorable steps (table state.world) := by
  induction isSaved generalizing state with
  | nil =>
      cases ended
      exact ⟨rfl, trivial⟩
  | @cons first step saved steps isSaved _ ih =>
      obtain ⟨target, copy, moves⟩ := isSaved
      rw [restoreFds, Leaf.run_ite] at ended
      split at ended
      · rename_i negative
        have stays : ¬ step.Moves := fun moved => absurd (moves.mpr moved) (by omega)
        rw [restore, if_neg stays, Restorable, if_neg stays]
        exact ih ended
      · rename_i natural
        have moved : step.Moves := moves.mp (by omega)
        obtain ⟨reply, between, dup2, ended⟩ := Leaf.run_bind_done.mp ended
        rw [Leaf.run_call] at dup2
        cases reply with
        | error errno =>
            obtain ⟨_, _, _, ended⟩ := Leaf.run_bind_done.mp ended
            cases ended
        | ok reply =>
            obtain ⟨dup2Reply, dup2World⟩ := Outcome.done.inj dup2
            obtain ⟨sourceOpen, movedTable⟩ := laws.dup2 first.dupFd first.redirFd state.world reply between.world
              (by rw [← dup2Reply, ← dup2World])
            obtain ⟨_, closed, close, ended⟩ := Leaf.run_bind_done.mp ended
            rw [Leaf.run_call] at close
            cases close
            obtain ⟨same, restorable⟩ := ih ended
            have closedTable : table (System.close first.dupFd between.world).2 =
                Function.update (Function.update (table state.world) step.target (table state.world step.copy))
                  step.copy none := by
              rw [laws.close, movedTable, target, copy]
            change restore steps (table (System.close first.dupFd between.world).2) = _ at same
            change Restorable steps (table (System.close first.dupFd between.world).2) at restorable
            rw [closedTable] at same restorable
            rw [restore, if_pos moved, Restorable, if_pos moved]
            rw [copy] at sourceOpen
            exact ⟨same, sourceOpen, restorable⟩

/-- Where the redirections of a builtin succeed and the builtin leaves the descriptors alone that they use, it restores
the targets of all redirections exactly if the redirections keep their targets. -/
theorem runBuiltin_restores_iff (self : Tasks World) (sc : SimpleCommand) (argv : List Str) {saved : List SavedFd}
    {ret : Int} {redirected ran : Shell World}
    (redirects : Leaf.run (redirectBuiltin sc.ioRedirects) state = .done (some saved) redirected)
    (runs : Exec.run (self.mrshRunBuiltin argv) redirected = .done ret ran)
    (keeps : ∀ fd ∈ saved, table ran.world fd.redirFd = table redirected.world fd.redirFd ∧
      table ran.world fd.dupFd = table redirected.world fd.dupFd)
    (restores : Leaf.run (restoreFds saved) ran = .done true after) :
    Exec.run (runBuiltin self sc argv) state = .done ret after ∧
      ((∀ fd ∈ saved, table after.world fd.redirFd = table state.world fd.redirFd) ↔
        KeepsTargets (table state.world) (redirections table sc.ioRedirects state)) := by
  obtain ⟨made, isSaved⟩ := redirectBuiltin_done laws redirects
  obtain ⟨restored, restorable⟩ := restoreFds_done laws isSaved restores
  have same : SameDescriptors (redirections table sc.ioRedirects state) (table redirected.world) (table ran.world) := by
    have kept := (forall_isSaved_iff isSaved fun target copy =>
      table ran.world target = table redirected.world target ∧
        table ran.world copy = table redirected.world copy).mp keeps
    exact fun step member => ⟨(kept step member).1, fun _ => (kept step member).2⟩
  constructor
  · rw [runBuiltin, Exec.run_leaf_bind_of_done redirects]
    change Exec.run (self.mrshRunBuiltin argv >>= _) redirected = _
    rw [Exec.run_bind_of_done runs, Exec.run_bind, Exec.run_leaf, restores]
    rfl
  · rw [← restore_targets_iff made same restorable, restored]
    exact forall_isSaved_iff isSaved fun target _ => table after.world target = table state.world target

end

end

/-! ## A system with descriptors -/

/-- A system that has nothing but a table of descriptors, which name the files they are for. -/
structure Files where
  descriptors : Descriptors Str

def Files.lowestFree (files : Files) : Option Int :=
  ((List.range 64).find? fun number : Nat => (files.descriptors number).isNone).map Int.ofNat

def Files.set (files : Files) (fd : Int) (file : Option Str) : Files := ⟨Function.update files.descriptors fd file⟩

instance : System Files :=
  { isolatedSystem Files with
    openFile := fun path _ files =>
      match files.lowestFree with
      | some fd => (.ok fd, files.set fd (some path))
      | none => (.error noEntry, files)
    close := fun fd files => ((), files.set fd none)
    dup := fun fd files =>
      match files.descriptors fd, files.lowestFree with
      | some file, some copy => (.ok copy, files.set copy (some file))
      | _, _ => (.error .einval, files)
    dup2 := fun source target files =>
      match files.descriptors source with
      | some file => (.ok (), files.set target (some file))
      | none => (.error .einval, files) }

theorem Files.lowestFree_some {files : Files} {fd : Int} (found : files.lowestFree = some fd) :
    0 ≤ fd ∧ files.descriptors fd = none ∧ ∀ lower, 0 ≤ lower → lower < fd → files.descriptors lower ≠ none :=
  Data.lowestFree_some found

theorem files_descriptorLaws : DescriptorLaws Files Str Files.descriptors where
  dup fd copy files after := by
    intro duplicated
    cases file : files.descriptors fd with
    | none => simp [System.dup, file] at duplicated
    | some name =>
        cases found : files.lowestFree with
        | none => simp [System.dup, file, found] at duplicated
        | some number =>
            simp only [System.dup, file, found, Prod.mk.injEq, Except.ok.injEq] at duplicated
            obtain ⟨rfl, rfl⟩ := duplicated
            obtain ⟨natural, free, lowest⟩ := Files.lowestFree_some found
            exact ⟨natural, free, lowest, by simp, rfl⟩
  dup2 source target files reply after := by
    intro duplicated
    cases file : files.descriptors source with
    | none => simp [System.dup2, file] at duplicated
    | some name =>
        simp only [System.dup2, file, Prod.mk.injEq, true_and] at duplicated
        obtain rfl := duplicated
        exact ⟨by simp, rfl⟩
  close fd files := rfl
  openFile path mode fd files after := by
    intro opened
    cases found : files.lowestFree with
    | none => simp [System.openFile, found] at opened
    | some number =>
        simp only [System.openFile, found, Prod.mk.injEq, Except.ok.injEq] at opened
        obtain ⟨rfl, rfl⟩ := opened
        exact ⟨(Files.lowestFree_some found).2.1, path, rfl⟩
  pipe input output files after := by
    intro piped
    cases piped
  write _ _ _ := rfl
  printErr _ _ := rfl
  fork _ := rfl

/-- The three standard descriptors are open. -/
def standardFiles : Files :=
  ⟨fun fd => if fd = 0 then some "in".toList else if fd = 1 then some "out".toList
    else if fd = 2 then some "err".toList else none⟩

def redirectTo (file : Str) : IoRedirect :=
  { addr := .parsed 0, ioNumber := -1, op := .great, name := .string file false false .invalid, hereDocument := [],
    ioNumberPos := .invalid, opRange := .invalid }

def colonTo (files : List Str) : SimpleCommand :=
  { name := some (.string [':'] false false .invalid), arguments := [], ioRedirects := files.map redirectTo,
    assignments := [] }

theorem keepsTargets_single {δ : Type} {start : Descriptors δ} {step : Redirection δ} (same : step.before = start)
    (isOpen : start step.target ≠ none) : KeepsTargets start [step] := by
  constructor
  · intro earlier other later single _ _
    cases earlier with
    | nil =>
        cases single
        rw [same]
    | cons first earlier => simp at single
  · intro other member _ closed
    rw [List.mem_singleton.mp member] at closed
    exact absurd closed isOpen

theorem runBuiltin_restores_colon : ∃ after,
    Exec.run (runBuiltin (tasks 2) (colonTo ["log".toList]) [[':']]) (mrshStateCreate [] standardFiles) =
      .done 0 after ∧ after.world.descriptors 1 = some "out".toList := by
  obtain ⟨run, exactly⟩ := @runBuiltin_restores_iff _ _ _ _ (mrshStateCreate [] standardFiles) _ files_descriptorLaws
    (tasks 2) (colonTo ["log".toList]) [[':']] [⟨4, 1⟩] 0 _ _ rfl rfl (by simp) rfl
  have outOpen : standardFiles.descriptors 1 ≠ none := by decide
  have keeps : KeepsTargets standardFiles.descriptors
      (redirections Files.descriptors (colonTo ["log".toList]).ioRedirects (mrshStateCreate [] standardFiles)) :=
    keepsTargets_single rfl outOpen
  exact ⟨_, run, exactly.mpr keeps ⟨4, 1⟩ List.mem_cons_self⟩

/-- After two redirections of the standard output it is the file of the first one. -/
theorem runBuiltin_leaves_redirected :
    (Exec.run (runBuiltin (tasks 2) (colonTo ["first".toList, "second".toList]) [[':']])
      (mrshStateCreate [] standardFiles)).state.world.descriptors 1 = some "first".toList := by
  decide +kernel

end Mrsh

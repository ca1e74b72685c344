import Mrsh.Shell.Redirections

namespace Mrsh

open Mrsh.Data

/-! # Failed redirections of a builtin

The redirections of a builtin are made in the shell itself, one after another. When one of them
fails, `run_builtin` returns without putting back what the earlier ones have moved.
-/

/-- A call that fails leaves the descriptors alone. -/
structure FailureLaws (World δ : Type) [System World] (table : World → Descriptors δ) : Prop where
  dup : ∀ fd (world : World) errno after, System.dup fd world = (.error errno, after) → table after = table world
  dup2 : ∀ source target (world : World) errno after, System.dup2 source target world = (.error errno, after) →
    table after = table world
  openFile : ∀ path mode (world : World) errno after, System.openFile path mode world = (.error errno, after) →
    table after = table world
  pipe : ∀ (world : World) errno after, System.pipe world = (.error errno, after) → table after = table world

section

variable {World δ α : Type} [System World] {table : World → Descriptors δ} {state after : Shell World}

/-- The redirection that fails has opened the number. -/
def FailedTakes (table : World → Descriptors δ) : List IoRedirect → Shell World → Int → Prop
  | [], _, _ => False
  | redir :: rest, state, n =>
      match Leaf.run (processRedir redir) state with
      | .done (some (fd, redirFd)) opened =>
          match Leaf.run (dupAndSaveFd fd redirFd) opened with
          | .done (some _) after => FailedTakes table rest after n
          | .done none after => table after.world n ≠ table state.world n
          | .stopped _ _ => False
      | _ => False

/-- A redirection, the failed one included, has opened the number. -/
def Taken (table : World → Descriptors δ) (redirs : List IoRedirect) (state : Shell World) (n : Int) : Prop :=
  (∃ step ∈ redirections table redirs state, step.Takes n) ∨ FailedTakes table redirs state n

section

variable (laws : DescriptorLaws World δ table) (failures : FailureLaws World δ table)

include laws

theorem closeBoth_reverts {input output : Int} {source sink : δ} {start : Descriptors δ}
    (inputClosed : start input = none)
    (outputClosed : start output = none)
    (opened : table state.world = Function.update (Function.update start input (some source)) output (some sink)) :
    table (Leaf.run (closeBoth (input, output)) state).state.world = start := by
  have closed : table (Leaf.run (closeBoth (input, output)) state).state.world =
      Function.update (Function.update (table state.world) input none) output none := by
    rw [closeBoth, Leaf.run_call_bind, Leaf.run_call, Outcome.state_done]
    rw [laws.close, laws.close]
  rw [closed, opened]
  funext n
  by_cases isOutput : n = output
  · rw [isOutput, Function.update_self, outputClosed]
  · rw [Function.update_of_ne isOutput]
    by_cases isInput : n = input
    · rw [isInput, Function.update_self, inputClosed]
    · rw [Function.update_of_ne isInput, Function.update_of_ne isOutput, Function.update_of_ne isInput]

include failures

theorem createHereDocumentFd_fails {lines : List Word} {errno : Errno}
    (ended : Leaf.run (createHereDocumentFd lines) state = .done (.error errno) after) :
    table after.world = table state.world := by
  obtain ⟨piped, between, pipe, ended⟩ := Leaf.run_bind_done.mp ended
  rw [Leaf.run_call] at pipe
  obtain ⟨reply, world⟩ := Outcome.done.inj pipe
  cases piped with
  | error errno =>
      have same := failures.pipe state.world errno between.world (by rw [← reply, ← world])
      obtain ⟨_, _, printed, ended⟩ := Leaf.run_bind_done.mp ended
      cases ended
      have kept : KeepsTable table (perror "pipe".toList errno : Leaf World Unit) :=
        .bind (.pure _) fun _ => eprintf_keepsTable laws _
      exact (kept.done printed).trans same
  | ok fds =>
      obtain ⟨input, output⟩ := fds
      obtain ⟨inputClosed, outputClosed, _, source, sink, opened⟩ :=
        laws.pipe input output state.world between.world (by rw [← reply, ← world])
      obtain ⟨written, wrote, write, ended⟩ := Leaf.run_bind_done.mp ended
      rw [← (writeHereDocumentLines_keepsTable laws output (some pipeBuf) lines).done write] at opened
      have closing {before : Shell World} (same : table before.world = table wrote.world)
          (closed : Leaf.run (do closeBoth (input, output); pure (Except.error errno) : Leaf World (Except Errno Int))
            before = .done (.error errno) after) : table after.world = table state.world := by
        obtain ⟨_, _, both, closed⟩ := Leaf.run_bind_done.mp closed
        cases closed
        rw [← same] at opened
        have reverts := closeBoth_reverts laws inputClosed outputClosed opened
        rw [both] at reverts
        exact reverts
      match written with
      | .error failed =>
          obtain ⟨_, _, both, rest⟩ := Leaf.run_bind_done.mp ended
          cases rest
          exact closing rfl ended
      | .ok [] =>
          obtain ⟨_, _, _, ended⟩ := Leaf.run_bind_done.mp ended
          cases ended
      | .ok (line :: more) =>
          obtain ⟨forked, split, fork, ended⟩ := Leaf.run_bind_done.mp ended
          have same : table split.world = table wrote.world := by
            rw [Leaf.run_call] at fork
            cases fork
            exact laws.fork wrote.world
          cases forked with
          | error failed =>
              have kept : KeepsTable table (perror "fork".toList failed : Leaf World Unit) :=
                .bind (.pure _) fun _ => eprintf_keepsTable laws _
              obtain ⟨_, _, printed, ended⟩ := Leaf.run_bind_done.mp ended
              obtain ⟨_, _, both, rest⟩ := Leaf.run_bind_done.mp ended
              cases rest
              exact closing ((kept.done printed).trans same) ended
          | ok pid =>
              rw [Leaf.run_ite] at ended
              split at ended
              · obtain ⟨_, _, _, ended⟩ := Leaf.run_bind_done.mp ended
                obtain ⟨_, _, _, ended⟩ := Leaf.run_bind_done.mp ended
                obtain ⟨_, _, _, ended⟩ := Leaf.run_bind_done.mp ended
                cases ended
              · obtain ⟨_, _, _, ended⟩ := Leaf.run_bind_done.mp ended
                cases ended

theorem openRedirect_fails {redir : IoRedirect} {filename : Str} {errno : Errno}
    (ended : Leaf.run (openRedirect redir filename) state = .done (.error errno) after) :
    table after.world = table state.world := by
  have opening (mode : OpenMode) (failed : Leaf.run (call (System.openFile filename mode)) state =
      .done (.error errno) after) : table after.world = table state.world := by
    rw [Leaf.run_call] at failed
    obtain ⟨reply, world⟩ := Outcome.done.inj failed
    exact failures.openFile filename mode state.world errno after.world (by rw [← reply, ← world])
  unfold openRedirect at ended
  cases operator : redir.op <;> rw [operator] at ended
  case less => exact opening _ ended
  case great => exact opening _ ended
  case clobber => exact opening _ ended
  case dgreat => exact opening _ ended
  case lessgreat => exact opening _ ended
  case dless => exact createHereDocumentFd_fails laws failures ended
  case dlessdash => exact createHereDocumentFd_fails laws failures ended
  case lessand => exact congrArg (table ·.world) (Outcome.done.inj ended).2.symm
  case greatand => exact congrArg (table ·.world) (Outcome.done.inj ended).2.symm

theorem processRedir_fails {redir : IoRedirect} (ended : Leaf.run (processRedir redir) state = .done none after) :
    table after.world = table state.world := by
  obtain ⟨filename, between, written, ended⟩ := Leaf.run_bind_done.mp ended
  have same : table between.world = table state.world := (KeepsTable.orCrash _).done written
  obtain ⟨opened, opening, open_, ended⟩ := Leaf.run_bind_done.mp ended
  cases opened with
  | error errno =>
      obtain ⟨_, _, told, ended⟩ := Leaf.run_bind_done.mp ended
      cases told
      obtain ⟨_, _, printed, ended⟩ := Leaf.run_bind_done.mp ended
      cases ended
      rw [(eprintf_keepsTable laws _).done printed, openRedirect_fails laws failures open_, same]
  | ok fd => cases ended

/-- After a failure the target refers to what it did, and at most a copy of it is open. -/
theorem dupAndSaveFd_fails {fd redirFd : Int} (ended : Leaf.run (dupAndSaveFd fd redirFd) state = .done none after) :
    ∀ n, table state.world n ≠ none → table after.world n = table state.world n := by
  unfold dupAndSaveFd at ended
  rw [Leaf.run_ite] at ended
  have message {errno : Errno} {before : Shell World} (failed : Leaf.run (do
      dupFailed errno
      pure none : Leaf World (Option SavedFd)) before = .done none after) : table after.world = table before.world := by
    obtain ⟨_, _, printed, failed⟩ := Leaf.run_bind_done.mp failed
    cases failed
    have kept : KeepsTable table (dupFailed errno : Leaf World Unit) :=
      .bind (.pure _) fun _ => eprintf_keepsTable laws _
    exact kept.done printed
  split at ended
  · cases ended
  · obtain ⟨copied, between, dup, ended⟩ := Leaf.run_bind_done.mp ended
    rw [Leaf.run_call] at dup
    obtain ⟨dupReply, dupWorld⟩ := Outcome.done.inj dup
    cases copied with
    | error errno =>
        have same := failures.dup redirFd state.world errno between.world (by rw [← dupReply, ← dupWorld])
        intro n _
        rw [message ended, same]
    | ok copy =>
        obtain ⟨_, free, _, _, copiedTable⟩ :=
          laws.dup redirFd copy state.world between.world (by rw [← dupReply, ← dupWorld])
        obtain ⟨moved, done, dup2, ended⟩ := Leaf.run_bind_done.mp ended
        rw [Leaf.run_call] at dup2
        obtain ⟨dup2Reply, dup2World⟩ := Outcome.done.inj dup2
        cases moved with
        | error errno =>
            have same := failures.dup2 fd redirFd between.world errno done.world (by rw [← dup2Reply, ← dup2World])
            intro n isOpen
            have notCopy : n ≠ copy := by
              rintro rfl
              exact isOpen free
            rw [message ended, same, copiedTable, Function.update_of_ne notCopy]
        | ok _ => cases ended

theorem redirectBuiltin_fails {redirs : List IoRedirect}
    (ended : Leaf.run (redirectBuiltin redirs) state = .done none after) :
    ∃ reached, Redirected (table state.world) (redirections table redirs state) reached ∧
      (∀ n, reached n ≠ none → table after.world n = reached n) ∧
      ∀ n, table state.world n = none → Unmoved n (redirections table redirs state) →
        (table after.world n = none ↔ ¬ Taken table redirs state n) := by
  induction redirs generalizing state with
  | nil => cases ended
  | cons redir redirs ih =>
      obtain ⟨processed, opened, process, ended⟩ := Leaf.run_bind_done.mp ended
      cases processed with
      | none =>
          cases ended
          have same := processRedir_fails laws failures process
          refine ⟨table state.world, ?_, ?_, ?_⟩
          · rw [redirections, process]
            exact .nil _
          · intro n _
            rw [same]
          · intro n closed _
            simp [same, closed, Taken, redirections, FailedTakes, process]
      | some fds =>
          obtain ⟨fd, redirFd⟩ := fds
          have opens := processRedir_opens laws process
          obtain ⟨first, moved, dup, ended⟩ := Leaf.run_bind_done.mp ended
          cases first with
          | none =>
              cases ended
              have kept := dupAndSaveFd_fails laws failures dup
              refine ⟨table state.world, ?_, ?_, ?_⟩
              · simp only [redirections, process, dup]
                exact .nil _
              · intro n isOpen
                have same : table opened.world n = table state.world n := by
                  by_contra changed
                  exact isOpen (opens n changed).1
                rw [kept n (by rw [same]; exact isOpen), same]
              · intro n closed _
                simp [closed, Taken, redirections, FailedTakes, process, dup]
          | some first =>
              obtain ⟨others, rest, redirectRest, ended⟩ := Leaf.run_bind_done.mp ended
              cases others with
              | some others => cases ended
              | none =>
                  cases ended
                  obtain ⟨valid, stepAfter, isSaved⟩ := dupAndSaveFd_done laws opens dup
                  obtain ⟨reached, redirectedRest, stays, closedRest⟩ := ih redirectRest
                  let step : Redirection δ := ⟨table state.world, table opened.world, fd, redirFd, first.dupFd⟩
                  have steps :
                      redirections table (redir :: redirs) state = step :: redirections table redirs moved := by
                    simp only [redirections, process, dup, step]
                  have taken (n : Int) : Taken table (redir :: redirs) state n ↔
                      step.Takes n ∨ Taken table redirs moved n := by
                    simp only [Taken, steps, FailedTakes, process, dup, List.exists_mem_cons_iff, or_assoc]
                  rw [← stepAfter] at redirectedRest closedRest
                  rw [steps]
                  refine ⟨reached, .cons valid redirectedRest, stays, fun n closed unmoved => ?_⟩
                  have notTarget : step.Moves → n ≠ step.target := fun moves => Ne.symm (unmoved step (by simp) moves)
                  have after_closed := valid.after_closed closed notTarget
                  rw [taken]
                  by_cases takes : step.Takes n
                  · have isOpen : reached n ≠ none :=
                      redirectedRest.stays_open fun closed => absurd takes (after_closed.mp closed)
                    refine iff_of_false ?_ (not_not_intro (.inl takes))
                    rw [stays n isOpen]
                    exact isOpen
                  · have unmovedRest : Unmoved n (redirections table redirs moved) := fun other member =>
                      unmoved other (List.mem_cons_of_mem step member)
                    rw [closedRest n (after_closed.mpr takes) unmovedRest]
                    simp [takes]

/-- A builtin of which a redirection fails returns an error, and the numbers of the earlier redirections refer to
what they did before exactly if these redirections keep them. -/
theorem runBuiltin_fails_iff (self : Tasks World) (sc : SimpleCommand) (argv : List Str)
    (fails : Leaf.run (redirectBuiltin sc.ioRedirects) state = .done none after) :
    Exec.run (runBuiltin self sc argv) state = .done taskStatusError after ∧
      ((∀ step ∈ redirections table sc.ioRedirects state,
        table after.world step.target = table state.world step.target) ↔
        KeepsUnrestored (table state.world) (redirections table sc.ioRedirects state)
          (Taken table sc.ioRedirects state)) := by
  obtain ⟨reached, redirected, stays, closed⟩ := redirectBuiltin_fails laws failures fails
  constructor
  · rw [runBuiltin, Exec.run_bind, Exec.run_leaf, fails]
    rfl
  · exact redirected.unrestored_iff stays closed

end

end

/-! ## A redirection from no descriptor -/

theorem files_failureLaws : FailureLaws Files Str Files.descriptors where
  dup fd files errno after := by
    intro failed
    cases file : files.descriptors fd with
    | none =>
        simp only [System.dup, file, Prod.mk.injEq] at failed
        rw [failed.2]
    | some name =>
        cases found : files.lowestFree with
        | none =>
            simp only [System.dup, file, found, Prod.mk.injEq] at failed
            rw [failed.2]
        | some copy => simp [System.dup, file, found] at failed
  dup2 source target files errno after := by
    intro failed
    cases file : files.descriptors source with
    | none =>
        simp only [System.dup2, file, Prod.mk.injEq] at failed
        rw [failed.2]
    | some name => simp [System.dup2, file] at failed
  openFile path mode files errno after := by
    intro failed
    cases found : files.lowestFree with
    | none =>
        simp only [System.openFile, found, Prod.mk.injEq] at failed
        rw [failed.2]
    | some fd => simp [System.openFile, found] at failed
  pipe files errno after := by
    rintro ⟨⟩
    rfl

/-- `<&x` or `>&1`, as the text says. -/
def redirectDup (op : IoRedirectOp) (text : Str) : IoRedirect :=
  { redirectTo text with op }

def colonWith (redirs : List IoRedirect) : SimpleCommand := { colonTo [] with ioRedirects := redirs }

/-- `: >&1 <&x` fails, and moves nothing before. -/
theorem runBuiltin_fails_unmoved :
    ∃ after, Exec.run
      (runBuiltin (tasks 2) (colonWith [redirectDup .greatand ['1'], redirectDup .lessand ['x']]) [[':']])
      (mrshStateCreate [] standardFiles) = .done taskStatusError after ∧
        after.world.descriptors 1 = some "out".toList := by
  let redirs : List IoRedirect := [redirectDup .greatand ['1'], redirectDup .lessand ['x']]
  obtain ⟨run, exactly⟩ := @runBuiltin_fails_iff _ _ _ _ (mrshStateCreate [] standardFiles) _ files_descriptorLaws
    files_failureLaws (tasks 2) (colonWith redirs) [[':']] rfl
  let step : Redirection Str := ⟨standardFiles.descriptors, standardFiles.descriptors, 1, 1, -1⟩
  have steps : redirections Files.descriptors redirs (mrshStateCreate [] standardFiles) = [step] := rfl
  have keeps : KeepsUnrestored standardFiles.descriptors
      (redirections Files.descriptors redirs (mrshStateCreate [] standardFiles))
      (Taken Files.descriptors redirs (mrshStateCreate [] standardFiles)) := by
    rw [steps]
    constructor
    · intro earlier other later split moves _
      have member : other ∈ [step] := by simp [split]
      rw [List.mem_singleton.mp member] at moves
      exact absurd rfl moves
    · intro other member _ closed
      rw [List.mem_singleton.mp member] at closed
      cases closed
  have kept := exactly.mpr keeps step
  exact ⟨_, run, kept (by simp [colonWith, steps])⟩

/-- `: >log <&x` leaves the standard output of the shell redirected. -/
theorem runBuiltin_fails_redirected : ¬ ∀ (sc : SimpleCommand) (state after : Shell Files),
    Leaf.run (redirectBuiltin sc.ioRedirects) state = .done none after →
      ∀ step ∈ redirections Files.descriptors sc.ioRedirects state,
        after.world.descriptors step.target = state.world.descriptors step.target := by
  intro always
  let sc := colonWith [redirectTo "log".toList, redirectDup .lessand ['x']]
  let step : Redirection Str :=
    ⟨standardFiles.descriptors, Function.update standardFiles.descriptors 3 (some "log".toList), 3, 1, 4⟩
  have steps : redirections Files.descriptors sc.ioRedirects (mrshStateCreate [] standardFiles) = [step] := rfl
  have kept := always sc (mrshStateCreate [] standardFiles) _ rfl step (by rw [steps]; simp)
  cases kept

end Mrsh

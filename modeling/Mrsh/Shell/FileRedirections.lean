import Mrsh.Data.Placement
import Mrsh.Shell.HereDocumentPipes
import Mrsh.Shell.Task.SimpleCommand

namespace Mrsh

open Mrsh.Data

/-! # Files for builtins and for programs

The redirections of a builtin and those of an external program are two loops over the same list.
The builtin saves each target first, which fails if it is closed, and the program loses on
`execv` a file that was opened at its target, since nothing clears the flag of the descriptor.
-/

/-- What the calls do to the table of descriptors, and to the flags of those that `execv` closes. There are enough
numbers for all of them. -/
structure PlacementLaws (World δ : Type) [System World] (table : World → Descriptors δ)
    (closing : World → Int → Bool) : Prop where
  openFile : ∀ path mode fd (world : World) after, System.openFile path mode world = (.ok fd, after) →
    IsLowestFree (table world) fd ∧ closing after = Function.update (closing world) fd true ∧
      ∃ file, table after = Function.update (table world) fd (some file)
  dup : ∀ fd (world : World), table world fd ≠ none → ∃ copy after, System.dup fd world = (.ok copy, after) ∧
    IsLowestFree (table world) copy ∧ table after = Function.update (table world) copy (table world fd)
  dupClosed : ∀ fd (world : World), table world fd = none → ∃ errno after, System.dup fd world = (.error errno, after)
  dup2 : ∀ source target (world : World), table world source ≠ none → 0 ≤ target → ∃ after,
    System.dup2 source target world = (.ok (), after) ∧
      table after = Function.update (table world) target (table world source) ∧
      (source ≠ target → closing after = Function.update (closing world) target false)

def openMode : IoRedirectOp → Option OpenMode
  | .less => some .readOnly
  | .great | .clobber => some .truncate
  | .dgreat => some .append
  | .lessgreat => some .readWrite
  | .lessand | .greatand | .dless | .dlessdash => none

/-- The redirection opens a file, which succeeds. -/
def OpensFile (World : Type) [System World] (redir : IoRedirect) : Prop :=
  ∃ filename mode, mrshWordStr redir.name = some filename ∧ openMode redir.op = some mode ∧
    ∀ world : World, ∃ fd after, System.openFile filename mode world = (.ok fd, after)

def redirTarget (redir : IoRedirect) : Int :=
  if redir.ioNumber < 0 then defaultRedirFd redir.op else redir.ioNumber

theorem redirTarget_natural (redir : IoRedirect) : 0 ≤ redirTarget redir := by
  unfold redirTarget
  split
  · cases redir.op <;> decide
  · omega

section

variable {World δ : Type} [System World] (table : World → Descriptors δ) (closing : World → Int → Bool)

/-- What a builtin does with a file that was opened. -/
def builtinPlace (fd redirFd : Int) (state : Shell World) : Shell World :=
    (Leaf.run (dupAndSaveFd fd redirFd) state).state

/-- What a process does with it. -/
def processPlace (fd redirFd : Int) (state : Shell World) : Shell World :=
  if fd == redirFd then state else (Leaf.run (call (System.dup2 fd redirFd)) state).state

/-- The files that are opened one after another, with their targets. -/
def openedFiles (place : Int → Int → Shell World → Shell World) : List IoRedirect → Shell World → List (Int × δ)
  | [], _ => []
  | redir :: rest, state =>
      match Leaf.run (processRedir redir) state with
      | .done (some (fd, redirFd)) opened =>
          match table opened.world fd with
          | some file => (redirFd, file) :: openedFiles place rest (place fd redirFd opened)
          | none => []
      | _ => []

/-- The builtin is run, and each target is the last file for it. -/
def BuiltinSees (redirs : List IoRedirect) (state : Shell World) : Prop :=
  ∃ saved after, Leaf.run (redirectBuiltin redirs) state = .done (some saved) after ∧
    ∀ n ∈ redirs.map redirTarget,
      table after.world n = placed (table state.world) (openedFiles table builtinPlace redirs state) n

/-- Each target is the last file for it when `execv` has closed descriptors. -/
def ProcessSees (redirs : List IoRedirect) (state : Shell World) : Prop :=
  ∃ after, Leaf.run (redirectProcess redirs) state = .done () after ∧
    ∀ n ∈ redirs.map redirTarget, afterExec (table after.world) (closing after.world) n =
      placed (table state.world) (openedFiles table processPlace redirs state) n

variable {table closing}

theorem processRedir_opensFile (laws : PlacementLaws World δ table closing) {redir : IoRedirect}
    (opens : OpensFile World redir) (state : Shell World) :
    ∃ fd file opened, Leaf.run (processRedir redir) state = .done (some (fd, redirTarget redir)) opened ∧
      IsLowestFree (table state.world) fd ∧ table opened.world = Function.update (table state.world) fd (some file) ∧
      closing opened.world = Function.update (closing state.world) fd true := by
  obtain ⟨filename, mode, name, operator, succeeds⟩ := opens
  obtain ⟨fd, world, opened⟩ := succeeds state.world
  obtain ⟨free, flagged, file, updated⟩ := laws.openFile filename mode fd state.world world opened
  have opening : Leaf.run (openRedirect redir filename) state = .done (.ok fd) { state with world } := by
    have called : Leaf.run (call (System.openFile filename mode)) state = .done (.ok fd) { state with world } := by
      rw [Leaf.run_call, opened]
    unfold openRedirect
    cases op : redir.op <;> rw [op] at operator <;> cases operator <;> exact called
  refine ⟨fd, file, { state with world }, ?_, free, updated, flagged⟩
  rw [processRedir, name, orCrash_some, Leaf.run_bind, Leaf.run_pure, Outcome.andThen_done, Leaf.run_bind, opening]
  rfl

/-! ## The process -/

theorem redirectProcess_places (laws : PlacementLaws World δ table closing) {redirs : List IoRedirect}
    (opens : ∀ redir ∈ redirs, OpensFile World redir) (state : Shell World) :
    ∃ after, Leaf.run (redirectProcess redirs) state = .done () after ∧
      (openedFiles table processPlace redirs state).map Prod.fst = redirs.map redirTarget ∧
      ProcessPlaces (table state.world) (closing state.world) (openedFiles table processPlace redirs state)
        (table after.world) (closing after.world) := by
  induction redirs generalizing state with
  | nil => exact ⟨state, rfl, rfl, .nil _ _⟩
  | cons redir redirs ih =>
      rw [List.forall_mem_cons] at opens
      obtain ⟨fd, file, opened, processed, free, updated, flagged⟩ := processRedir_opensFile laws opens.1 state
      have there : table opened.world fd = some file := by rw [updated, Function.update_self]
      have entries : openedFiles table processPlace (redir :: redirs) state = (redirTarget redir, file) ::
          openedFiles table processPlace redirs (processPlace fd (redirTarget redir) opened) := by
        simp only [openedFiles, processed, there]
      obtain ⟨after, run, targets, places⟩ := ih opens.2 (processPlace fd (redirTarget redir) opened)
      rw [entries]
      refine ⟨after, ?_, by rw [List.map_cons, List.map_cons, targets], ?_⟩
      · rw [redirectProcess, Leaf.run_bind_of_done processed, Leaf.run_ite]
        by_cases same : fd = redirTarget redir
        · have unmoved : processPlace fd (redirTarget redir) opened = opened := if_pos (by simpa using same)
          rw [unmoved] at run
          rw [if_pos (by simpa using same)]
          exact run
        · obtain ⟨world, moved, _, _⟩ := laws.dup2 fd (redirTarget redir) opened.world (by simp [there])
            (redirTarget_natural redir)
          have placed_ : processPlace fd (redirTarget redir) opened = { opened with world } := by
            rw [processPlace, if_neg (by simpa using same), Leaf.run_call, moved]
            rfl
          rw [placed_] at run
          rw [if_neg (by simpa using same), Leaf.run_bind, Leaf.run_call, moved]
          exact run
      · by_cases same : fd = redirTarget redir
        · have unmoved : processPlace fd (redirTarget redir) opened = opened := if_pos (by simpa using same)
          rw [unmoved, updated, flagged] at places
          rw [unmoved]
          subst same
          exact .inPlace free places
        · obtain ⟨world, moved, movedTable, cleared⟩ := laws.dup2 fd (redirTarget redir) opened.world (by simp [there])
            (redirTarget_natural redir)
          have placed_ : processPlace fd (redirTarget redir) opened = { opened with world } := by
            rw [processPlace, if_neg (by simpa using same), Leaf.run_call, moved]
            rfl
          rw [placed_] at places ⊢
          rw [movedTable, cleared same, there, updated, flagged] at places
          exact .moves free same places

theorem processSees_iff (laws : PlacementLaws World δ table closing) {redirs : List IoRedirect}
    (opens : ∀ redir ∈ redirs, OpensFile World redir) (state : Shell World) :
    ProcessSees table closing redirs state ↔
      ProcessKeeps (openNumbers (table state.world)) (redirs.map redirTarget) := by
  obtain ⟨after, run, targets, places⟩ := redirectProcess_places laws opens state
  have sees := places.sees_iff
  rw [targets] at sees
  rw [← sees]
  constructor
  · rintro ⟨other, otherRun, otherSees⟩
    cases run.symm.trans otherRun
    exact otherSees
  · exact fun all => ⟨after, run, all⟩

/-! ## The builtin -/

theorem dupAndSaveFd_closed (laws : PlacementLaws World δ table closing) {fd redirFd : Int} (different : fd ≠ redirFd)
    {state : Shell World} (closed : table state.world redirFd = none) :
    ∃ after, Leaf.run (dupAndSaveFd fd redirFd) state = .done none after := by
  obtain ⟨errno, world, failed⟩ := laws.dupClosed redirFd state.world closed
  rw [dupAndSaveFd, Leaf.run_ite, if_neg (by simpa using different), Leaf.run_bind, Leaf.run_call, failed]
  exact ⟨_, rfl⟩

theorem dupAndSaveFd_open (laws : PlacementLaws World δ table closing) {fd redirFd : Int} (different : fd ≠ redirFd)
    (natural : 0 ≤ redirFd) {state : Shell World} (sourceOpen : table state.world fd ≠ none)
    (isOpen : table state.world redirFd ≠ none) :
    ∃ copy after, Leaf.run (dupAndSaveFd fd redirFd) state = .done (some ⟨copy, redirFd⟩) after ∧
      IsLowestFree (table state.world) copy ∧ table after.world = Function.update
        (Function.update (table state.world) copy (table state.world redirFd)) redirFd (table state.world fd) := by
  obtain ⟨copy, between, copied, free, copyTable⟩ := laws.dup redirFd state.world isOpen
  have notCopy : fd ≠ copy := by
    rintro rfl
    exact sourceOpen free.2.1
  have sourceSame : table between fd = table state.world fd := by
    rw [copyTable, Function.update_of_ne notCopy]
  obtain ⟨world, moved, movedTable, -⟩ := laws.dup2 fd redirFd between (by rw [sourceSame]; exact sourceOpen) natural
  refine ⟨copy, { state with world }, ?_, free, ?_⟩
  · rw [dupAndSaveFd, Leaf.run_ite, if_neg (by simpa using different), Leaf.run_bind, Leaf.run_call, copied,
      Outcome.andThen_done, Leaf.run_bind, Leaf.run_call, moved]
    rfl
  · rw [movedTable, sourceSame, copyTable]

theorem redirectBuiltin_places (laws : PlacementLaws World δ table closing) {redirs : List IoRedirect}
    (opens : ∀ redir ∈ redirs, OpensFile World redir) (state : Shell World) :
    (∃ saved after, Leaf.run (redirectBuiltin redirs) state = .done (some saved) after ∧
      (openedFiles table builtinPlace redirs state).map Prod.fst = redirs.map redirTarget ∧
      CallerPlaces (table state.world) (openedFiles table builtinPlace redirs state) (table after.world) ∧
      CallerReaches (openNumbers (table state.world)) (redirs.map redirTarget)) ∨
    (∃ after, Leaf.run (redirectBuiltin redirs) state = .done none after) ∧
      ¬ CallerReaches (openNumbers (table state.world)) (redirs.map redirTarget) := by
  induction redirs generalizing state with
  | nil => exact .inl ⟨[], state, rfl, rfl, .nil _, trivial⟩
  | cons redir redirs ih =>
      rw [List.forall_mem_cons] at opens
      obtain ⟨fd, file, opened, processed, free, updated, -⟩ := processRedir_opensFile laws opens.1 state
      have there : table opened.world fd = some file := by rw [updated, Function.update_self]
      have entries : openedFiles table builtinPlace (redir :: redirs) state = (redirTarget redir, file) ::
          openedFiles table builtinPlace redirs (builtinPlace fd (redirTarget redir) opened) := by
        simp only [openedFiles, processed, there]
      rw [entries]
      have builds {saved : SavedFd} {between : Shell World}
          (ended : Leaf.run (dupAndSaveFd fd (redirTarget redir)) opened = .done (some saved) between) :
          Leaf.run (redirectBuiltin (redir :: redirs)) state =
            (Leaf.run (redirectBuiltin redirs) between).andThen fun others after =>
              .done (others.map (saved :: ·)) after := by
        rw [redirectBuiltin, Leaf.run_bind_of_done processed, Leaf.run_bind_of_done ended, Leaf.run_bind]
        congr 1
        funext others after
        cases others <;> rfl
      by_cases same : fd = redirTarget redir
      · have ended : Leaf.run (dupAndSaveFd fd (redirTarget redir)) opened =
            .done (some ⟨-1, redirTarget redir⟩) opened := by
          rw [dupAndSaveFd, Leaf.run_ite, if_pos (by simpa using same)]
          rfl
        have unmoved : builtinPlace fd (redirTarget redir) opened = opened := by rw [builtinPlace, ended]; rfl
        rw [unmoved, builds ended, List.map_cons, List.map_cons]
        subst same
        rw [callerReaches_inPlace free file, ← updated]
        rcases ih opens.2 opened with ⟨saved, after, run, targets, places, reaches⟩ | ⟨⟨after, run⟩, fails⟩
        · rw [updated] at places
          exact .inl ⟨_, after, by rw [run]; rfl, by rw [targets], .inPlace free places, reaches⟩
        · exact .inr ⟨⟨after, by rw [run]; rfl⟩, fails⟩
      · have target : table opened.world (redirTarget redir) = table state.world (redirTarget redir) := by
          rw [updated, Function.update_of_ne (Ne.symm same)]
        cases found : table state.world (redirTarget redir) with
        | none =>
            obtain ⟨after, failed⟩ := dupAndSaveFd_closed laws same (target.trans found)
            refine .inr ⟨⟨after, ?_⟩, not_callerReaches free same found _⟩
            rw [redirectBuiltin, Leaf.run_bind_of_done processed, Leaf.run_bind, failed]
            rfl
        | some old =>
            obtain ⟨copy, between, ended, copyFree, betweenTable⟩ := dupAndSaveFd_open laws same
              (redirTarget_natural redir) (by rw [there]; simp) (by rw [target, found]; simp)
            have moved : builtinPlace fd (redirTarget redir) opened = between := by rw [builtinPlace, ended]; rfl
            rw [there, target] at betweenTable
            rw [moved, builds ended, List.map_cons, List.map_cons, callerReaches_moves free same updated copyFree found,
              ← betweenTable]
            rcases ih opens.2 between with ⟨saved, after, run, targets, places, reaches⟩ | ⟨⟨after, run⟩, fails⟩
            · rw [betweenTable] at places
              exact .inl ⟨_, after, by rw [run]; rfl, by rw [targets],
                .moves free same (by rw [found]; simp) updated copyFree places, reaches⟩
            · exact .inr ⟨⟨after, by rw [run]; rfl⟩, fails⟩

theorem builtinSees_iff (laws : PlacementLaws World δ table closing) {redirs : List IoRedirect}
    (opens : ∀ redir ∈ redirs, OpensFile World redir) (state : Shell World) :
    BuiltinSees table redirs state ↔ CallerReaches (openNumbers (table state.world)) (redirs.map redirTarget) := by
  rcases redirectBuiltin_places laws opens state
    with ⟨saved, after, run, targets, places, reaches⟩ | ⟨⟨after, run⟩, fails⟩
  · have sees := places.sees
    rw [targets] at sees
    exact iff_of_true ⟨saved, after, run, sees⟩ reaches
  · refine iff_of_false (fun ⟨saved, other, otherRun, _⟩ => ?_) fails
    rw [run] at otherRun
    cases otherRun

/-- A builtin and a program both see the files that the redirections assign exactly if each target is open for the
builtin, or its file is opened there, and no target has its last file opened at the target itself. -/
theorem fileRedirections_seen_iff (laws : PlacementLaws World δ table closing) {redirs : List IoRedirect}
    (opens : ∀ redir ∈ redirs, OpensFile World redir) (state : Shell World) :
    BuiltinSees table redirs state ∧ ProcessSees table closing redirs state ↔
      CallerReaches (openNumbers (table state.world)) (redirs.map redirTarget) ∧
        ProcessKeeps (openNumbers (table state.world)) (redirs.map redirTarget) :=
  and_congr (builtinSees_iff laws opens state) (processSees_iff laws opens state)

end

/-! ## A program and a builtin -/

theorem kernel_placementLaws : PlacementLaws Kernel Str Kernel.descriptors Kernel.closing where
  openFile path mode fd kernel after := by
    intro opened
    cases opened
    exact ⟨kernel.lowestFree_isLowestFree, rfl, path, rfl⟩
  dup fd kernel := by
    intro isOpen
    cases file : kernel.descriptors fd with
    | none => exact absurd file isOpen
    | some name =>
        refine ⟨kernel.lowestFree, kernel.set kernel.lowestFree (some name) false, ?_, kernel.lowestFree_isLowestFree,
          ?_⟩
        · simp only [System.dup, Kernel.dup, file]
        · simp only [Kernel.set]
  dupClosed fd kernel := by
    intro closed
    exact ⟨.einval, kernel, by simp only [System.dup, Kernel.dup, closed]⟩
  dup2 source target kernel := by
    intro isOpen natural
    cases file : kernel.descriptors source with
    | none => exact absurd file isOpen
    | some name =>
        refine ⟨(kernel.noting (.moved source target name)).set target (some name) false, ?_, rfl, fun _ => rfl⟩
        simp only [System.dup2, Kernel.dup2, file, if_neg (show ¬ target < 0 by omega)]

def fileRedirect (number : Int) : IoRedirect where
  addr := .parsed 0
  ioNumber := number
  op := .great
  name := .string "log".toList false false .invalid
  hereDocument := []
  ioNumberPos := .invalid
  opRange := .invalid

theorem fileRedirect_opensFile (number : Int) : OpensFile Kernel (fileRedirect number) :=
  ⟨"log".toList, .truncate, rfl, rfl, fun _ => ⟨_, _, rfl⟩⟩

theorem standardKernel_lowestFree : IsLowestFree (openNumbers (kernelShell false).world.descriptors) 3 := by
  have free := (standardKernel false).lowestFree_isLowestFree
  have three : (standardKernel false).lowestFree = 3 := by decide +kernel
  rw [three] at free
  exact isLowestFree_openNumbers.mpr free

/-- `1>log` is seen by both. -/
theorem fileRedirections_seen_standard : BuiltinSees Kernel.descriptors [fileRedirect 1] (kernelShell false) ∧
    ProcessSees Kernel.descriptors Kernel.closing [fileRedirect 1] (kernelShell false) := by
  refine (fileRedirections_seen_iff kernel_placementLaws ?_ (kernelShell false)).mpr ⟨?_, ?_⟩
  · rw [List.forall_mem_singleton]
    exact fileRedirect_opensFile 1
  · intro fd free
    rw [free.eq standardKernel_lowestFree]
    exact ⟨by decide, fun _ _ => trivial⟩
  · intro fd free
    rw [free.eq standardKernel_lowestFree]
    exact ⟨by decide, trivial⟩

/-- A program does not see `3>log`, and a builtin is not run with `5>log`, though the file can be opened. -/
theorem fileRedirections_unseen :
    (OpensFile Kernel (fileRedirect 3) ∧ OpensFile Kernel (fileRedirect 5)) ∧
      ¬ ProcessSees Kernel.descriptors Kernel.closing [fileRedirect 3] (kernelShell false) ∧
      ¬ BuiltinSees Kernel.descriptors [fileRedirect 5] (kernelShell false) := by
  have opens (number : Int) : ∀ redir ∈ [fileRedirect number], OpensFile Kernel redir := by
    rw [List.forall_mem_singleton]
    exact fileRedirect_opensFile number
  refine ⟨⟨fileRedirect_opensFile 3, fileRedirect_opensFile 5⟩, ?_, ?_⟩
  · rw [processSees_iff kernel_placementLaws (opens 3)]
    intro keeps
    have again := (keeps 3 standardKernel_lowestFree).1 rfl
    cases again
  · rw [builtinSees_iff kernel_placementLaws (opens 5)]
    exact not_callerReaches (isLowestFree_openNumbers.mp standardKernel_lowestFree) (by decide) (by decide) []

end Mrsh

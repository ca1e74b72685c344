import Mrsh.Shell.JobFootprint
import Mrsh.Shell.Task.Task

namespace Mrsh

open Mrsh.Data

/-! # The environment of a process

The child that becomes a program puts the assignments of its command and then the
exported variables in the environment that the shell itself was started with.
-/

section

variable {World α β : Type}

/-! ## Programs that leave the environment alone -/

def SameEnviron (before after : Shell World) : Prop := after.environ = before.environ ∧ after.vars = before.vars

instance : Std.Refl (SameEnviron : Shell World → Shell World → Prop) := ⟨fun _ => ⟨rfl, rfl⟩⟩

instance : IsTrans (Shell World) SameEnviron :=
  ⟨fun _ _ _ first second => ⟨second.1.trans first.1, second.2.trans first.2⟩⟩

/-- Neither the environment of the process nor the variables change, however the run ends. -/
abbrev KeepsEnviron (prog : Leaf World α) : Prop := Within SameEnviron prog

namespace KeepsEnviron

theorem bind {prog : Leaf World α} {next : α → Leaf World β} (keeps : KeepsEnviron prog)
    (nextKeeps : ∀ value, KeepsEnviron (next value)) : KeepsEnviron (prog >>= next) := Within.bind keeps nextKeeps

theorem ite {condition : Prop} [Decidable condition] {yes no : Leaf World α} (ifTrue : KeepsEnviron yes)
    (ifFalse : KeepsEnviron no) : KeepsEnviron (if condition then yes else no) := Within.ite ifTrue ifFalse

theorem call (request : World → α × World) : KeepsEnviron (call request) := fun _ => ⟨rfl, rfl⟩

end KeepsEnviron

variable [System World]

theorem eprintf_keepsEnviron (text : Str) : KeepsEnviron (eprintf text : Leaf World Unit) := .call _

theorem perror_keepsEnviron (text : Str) (errno : Errno) : KeepsEnviron (perror text errno : Leaf World Unit) :=
  .bind (.pure _) fun _ => .call _

theorem sameEnviron_allows : AllowsJobControl (SameEnviron : Shell World → Shell World → Prop) where
  jobs _ _ _ _ := ⟨rfl, rfl⟩
  serial _ := ⟨rfl, rfl⟩
  printErr _ _ := ⟨rfl, rfl⟩
  setpgid _ _ _ := ⟨rfl, rfl⟩
  tcsetpgrp _ _ := ⟨rfl, rfl⟩
  tcgetattr _ := ⟨rfl, rfl⟩
  tcsetattr _ _ := ⟨rfl, rfl⟩
  kill _ _ _ := ⟨rfl, rfl⟩
  traps _ _ _ := ⟨rfl, rfl⟩
  control _ _ _ _ := ⟨rfl, rfl⟩
  sigaction _ _ _ := ⟨rfl, rfl⟩
  getpid _ := ⟨rfl, rfl⟩
  getpgrp _ := ⟨rfl, rfl⟩
  getsid _ := ⟨rfl, rfl⟩
  tcgetpgrp _ := ⟨rfl, rfl⟩

theorem initChild_keepsEnviron (ctx : Context) (pid : Int) (async : Bool) :
    KeepsEnviron (initChild ctx pid async : Leaf World Nat) := sameEnviron_allows.initChild ctx pid async

theorem leaveJobControl_keepsEnviron (fuel : Nat) : KeepsEnviron (leaveJobControl fuel : Leaf World Unit) :=
  sameEnviron_allows.leaveJobControl fuel

/-! ## Redirections -/

theorem writeAll_keepsEnviron (fd : Int) (text : Str) :
    KeepsEnviron (writeHereDocumentLine.writeAll fd text : Leaf World _) := by
  refine .bind (.call _) fun reply => ?_
  cases reply with
  | error errno => exact .bind (.pure _) fun _ => .bind (eprintf_keepsEnviron _) fun _ => .pure _
  | ok n => exact .ite (.bind (eprintf_keepsEnviron _) fun _ => .pure _) (.pure _)

theorem writeHereDocumentLine_keepsEnviron (fd : Int) (line : Word) (maxSize : Option Nat) :
    KeepsEnviron (writeHereDocumentLine fd line maxSize : Leaf World _) := by
  refine .bind (.orCrash _) fun text => .ite (.pure _) (.bind (writeAll_keepsEnviron fd text) fun first => ?_)
  cases first with
  | error errno => exact .pure _
  | ok _ =>
      refine .bind (writeAll_keepsEnviron fd _) fun second => ?_
      cases second <;> exact .pure _

theorem writeHereDocumentLines_keepsEnviron (fd : Int) (maxSize : Option Nat) (lines : List Word) :
    KeepsEnviron (writeHereDocumentLines fd maxSize lines : Leaf World _) := by
  induction lines with
  | nil => exact .pure _
  | cons line lines ih =>
      refine .bind (writeHereDocumentLine_keepsEnviron fd line maxSize) fun written => ?_
      rcases written with errno | _ | _
      · exact .pure _
      · exact .pure _
      · exact ih

theorem createHereDocumentFd_keepsEnviron (lines : List Word) :
    KeepsEnviron (createHereDocumentFd lines : Leaf World _) := by
  have closed : ∀ fds : Int × Int, KeepsEnviron (closeBoth fds : Leaf World Unit) :=
    fun _ => .bind (.call _) fun _ => .call _
  refine .bind (.call _) fun piped => ?_
  cases piped with
  | error errno => exact .bind (perror_keepsEnviron _ _) fun _ => .pure _
  | ok fds =>
      refine .bind (writeHereDocumentLines_keepsEnviron _ _ _) fun written => ?_
      rcases written with errno | _ | ⟨line, lines⟩
      · exact .bind (closed fds) fun _ => .pure _
      · exact .bind (.call _) fun _ => .pure _
      · refine .bind (.call _) fun forked => ?_
        cases forked with
        | error errno => exact .bind (perror_keepsEnviron _ _) fun _ => .bind (closed fds) fun _ => .pure _
        | ok pid =>
            refine .ite (.bind (.call _) fun _ => ?_) (.bind (.call _) fun _ => .pure _)
            exact .bind (writeHereDocumentLines_keepsEnviron _ _ _) fun _ => .bind (.call _) fun _ => .stop _

theorem processRedir_keepsEnviron (redir : IoRedirect) : KeepsEnviron (processRedir redir : Leaf World _) := by
  have opens : ∀ filename, KeepsEnviron (openRedirect redir filename : Leaf World _) := by
    intro filename
    unfold openRedirect
    split
    · exact .call _
    · exact .call _
    · exact .call _
    · exact .call _
    · exact .pure _
    · exact .pure _
    · exact .call _
    · exact createHereDocumentFd_keepsEnviron _
    · exact createHereDocumentFd_keepsEnviron _
  refine .bind (.orCrash _) fun filename => .bind (opens filename) fun opened => ?_
  cases opened with
  | error errno => exact .bind (.pure _) fun _ => .bind (eprintf_keepsEnviron _) fun _ => .pure _
  | ok fd => exact .pure _

theorem redirectProcess_keepsEnviron (redirs : List IoRedirect) :
    KeepsEnviron (redirectProcess redirs : Leaf World Unit) := by
  induction redirs with
  | nil => exact .pure _
  | cons redir redirs ih =>
      refine .bind (processRedir_keepsEnviron redir) fun opened => ?_
      cases opened with
      | none => exact .stop _
      | some fds =>
          refine .ite ih (.bind (.call _) fun reply => ?_)
          cases reply with
          | error errno => exact .bind (.pure _) fun _ => .bind (eprintf_keepsEnviron _) fun _ => .stop _
          | ok _ => exact ih

end

/-! ## Looking up names -/

/-- A name that `setenv` accepts. -/
def acceptsName (name : Str) : Bool := !(name.isEmpty || '=' ∈ name)

theorem lookup_replaced (environ : List (Str × Str)) (name value probe : Str) :
    (environ.map fun entry => if entry.1 = name then (name, value) else entry).lookup probe =
      if probe = name then (environ.lookup probe).map (fun _ => value) else environ.lookup probe := by
  induction environ with
  | nil => simp
  | cons entry environ ih =>
      obtain ⟨key, old⟩ := entry
      by_cases replaced : key = name
      · subst replaced
        by_cases probed : probe = key
        · simp [probed]
        · have different : (probe == key) = false := by simpa using probed
          simp only [List.map_cons, if_true, List.lookup_cons, different, ih, if_neg probed]
      · by_cases probed : probe = key
        · subst probed
          simp [replaced]
        · have different : (probe == key) = false := by simpa using probed
          simp only [List.map_cons, if_neg replaced, List.lookup_cons, different, ih]

theorem lookup_setenvIn (environ : List (Str × Str)) (name value probe : Str) :
    (setenvIn environ name value).lookup probe =
      if acceptsName name ∧ probe = name then some value else environ.lookup probe := by
  unfold setenvIn
  by_cases accepted : acceptsName name = true
  · have refused : ¬(name.isEmpty || decide ('=' ∈ name)) = true := by simpa [acceptsName] using accepted
    rw [if_neg refused]
    by_cases present : name ∈ environ.map Prod.fst
    · rw [if_pos present, lookup_replaced]
      by_cases probed : probe = name
      · subst probed
        cases found : environ.lookup probe with
        | some old => simp [accepted]
        | none =>
            rw [List.lookup_eq_none_iff] at found
            obtain ⟨entry, member, same⟩ := List.mem_map.mp present
            exact absurd same.symm (by simpa using found entry member)
      · simp [probed]
    · rw [if_neg present, List.lookup_append]
      by_cases probed : probe = name
      · subst probed
        have absent : environ.lookup probe = none := by
          rw [List.lookup_eq_none_iff]
          intro entry member
          have other : entry.1 ≠ probe := fun same => present (List.mem_map.mpr ⟨entry, member, same⟩)
          simpa using Ne.symm other
        simp [absent, accepted]
      · have different : (probe == name) = false := by simpa using probed
        simp [probed, List.lookup_cons, different]
  · have refused : (name.isEmpty || decide ('=' ∈ name)) = true := by
      unfold acceptsName at accepted
      cases refused : (name.isEmpty || decide ('=' ∈ name)) with
      | true => rfl
      | false => exact absurd (by rw [refused]; rfl) accepted
    rw [if_pos refused]
    simp [accepted]

/-- The value that the last assignment to the name gives it. -/
def lastAssigned (assigned : List (Str × Str)) (name : Str) : Option Str := assigned.reverse.lookup name

def setAll (environ assigned : List (Str × Str)) : List (Str × Str) :=
  assigned.foldl (fun environ entry => setenvIn environ entry.1 entry.2) environ

theorem lookup_setAll (environ assigned : List (Str × Str)) (probe : Str) :
    (setAll environ assigned).lookup probe =
      if acceptsName probe then (lastAssigned assigned probe).or (environ.lookup probe) else environ.lookup probe := by
  induction assigned generalizing environ with
  | nil => simp [setAll, lastAssigned]
  | cons entry assigned ih =>
      obtain ⟨name, value⟩ := entry
      have step := ih (setenvIn environ name value)
      change (setAll (setenvIn environ name value) assigned).lookup probe = _
      rw [step, lookup_setenvIn, lastAssigned, lastAssigned, List.reverse_cons, List.lookup_append]
      by_cases accepted : acceptsName probe = true
      · by_cases probed : probe = name
        · subst probed
          simp [accepted]
        · have different : (probe == name) = false := by simpa using probed
          simp [accepted, probed, List.lookup_cons, different]
      · by_cases probed : probe = name
        · subst probed
          simp [accepted]
        · simp [accepted, probed]

/-- The value of a variable with the EXPORT attribute. -/
def exportedValue (vars : Table Variable) (name : Str) : Option Str :=
  match vars.get name with
  | some var => if var.attribs.exported then some var.value else none
  | none => none

def exportedEntry (entry : Str × Variable) : Option (Str × Str) :=
  if entry.2.attribs.exported then some (entry.1, entry.2.value) else none

theorem mem_exported_iff (vars : Table Variable) (name value : Str) :
    (name, value) ∈ vars.entries.filterMap exportedEntry ↔ exportedValue vars name = some value := by
  rw [List.mem_filterMap]
  constructor
  · rintro ⟨⟨key, var⟩, member, exported⟩
    have found := (vars.mem_entries_iff (by decide) key var).mp member
    unfold exportedEntry at exported
    split at exported
    · rename_i attrib
      obtain ⟨rfl, rfl⟩ := Prod.mk.inj (Option.some.inj exported)
      simp only [exportedValue, found]
      exact if_pos attrib
    · cases exported
  · intro found
    cases entry : vars.get name with
    | none => simp [exportedValue, entry] at found
    | some var =>
        refine ⟨(name, var), (vars.mem_entries_iff (by decide) name var).mpr entry, ?_⟩
        simp only [exportedValue, entry] at found
        split at found
        · rename_i attrib
          obtain rfl := Option.some.inj found
          simp [exportedEntry, attrib]
        · cases found

theorem lastAssigned_exported (vars : Table Variable) (name : Str) :
    lastAssigned (vars.entries.filterMap exportedEntry) name = exportedValue vars name := by
  unfold lastAssigned
  cases found : (vars.entries.filterMap exportedEntry).reverse.lookup name with
  | some value =>
      obtain ⟨before, after, split, _⟩ := List.lookup_eq_some_iff.mp found
      have member : (name, value) ∈ (vars.entries.filterMap exportedEntry).reverse := by
        rw [split]
        simp
      exact ((mem_exported_iff vars name value).mp (List.mem_reverse.mp member)).symm
  | none =>
      rw [List.lookup_eq_none_iff] at found
      cases exported : exportedValue vars name with
      | none => rfl
      | some value =>
          have member := List.mem_reverse.mpr ((mem_exported_iff vars name value).mpr exported)
          have different : name ≠ name := by simpa using found _ member
          exact absurd rfl different

theorem foldl_populateEnv (entries : List (Str × Variable)) (environ : List (Str × Str)) :
    entries.foldl populateEnv environ = setAll environ (entries.filterMap exportedEntry) := by
  induction entries generalizing environ with
  | nil => rfl
  | cons entry entries ih =>
      rw [List.foldl_cons, ih]
      by_cases exported : entry.2.attribs.exported = true
      · simp [populateEnv, exportedEntry, exported, setAll]
      · simp [populateEnv, exportedEntry, exported]

/-! ## The environment of a command -/

/-- The environment has the last value that is assigned to each name, the value of every other
variable that is exported, and no other name. -/
def CommandEnvironment (assigned : List (Str × Str)) (vars : Table Variable) (environ : List (Str × Str)) : Prop :=
  ∀ name, environ.lookup name = (lastAssigned assigned name).or (exportedValue vars name)

/-- What a name has to fulfil: its exported value is that of its last assignment, if it has both, and a
name of the inherited environment has one of the two. Of a name that `setenv` refuses the inherited
value stays. -/
def Inherits (assigned : List (Str × Str)) (vars : Table Variable) (inherited : List (Str × Str)) (name : Str) : Prop :=
  if acceptsName name then
    match lastAssigned assigned name, exportedValue vars name with
    | some value, some exported => exported = value
    | none, none => inherited.lookup name = none
    | _, _ => True
  else inherited.lookup name = (lastAssigned assigned name).or (exportedValue vars name)

theorem commandEnvironment_iff (assigned inherited : List (Str × Str)) (vars : Table Variable) :
    CommandEnvironment assigned vars (vars.entries.foldl populateEnv (setAll inherited assigned)) ↔
      ∀ name, Inherits assigned vars inherited name := by
  apply forall_congr'
  intro name
  rw [foldl_populateEnv, lookup_setAll, lastAssigned_exported, lookup_setAll]
  unfold Inherits
  by_cases accepted : acceptsName name = true
  · simp only [accepted, if_true]
    cases lastAssigned assigned name <;> cases exportedValue vars name <;> simp
  · simp only [accepted, if_false, Bool.false_eq_true]

section

variable {World : Type}

/-- The name and the text of an assignment. -/
def assignedText (assign : Assignment) : Option (Str × Str) :=
  (mrshWordStr assign.value).map fun value => (assign.name, value)

variable [System World]

theorem setAssignments_done {assigns : List Assignment} {state after : Shell World}
    (ended : Leaf.run (setAssignments assigns) state = .done () after) :
    ∃ assigned, assigns.mapM assignedText = some assigned ∧ after.environ = setAll state.environ assigned ∧
      after.vars = state.vars := by
  induction assigns generalizing state with
  | nil =>
      obtain ⟨_, rfl⟩ := Outcome.done.inj ended
      exact ⟨[], rfl, rfl, rfl⟩
  | cons assign assigns ih =>
      rw [setAssignments, Leaf.run_bind] at ended
      obtain ⟨prev, between, found, ended⟩ := Outcome.andThen_eq_done.mp ended
      obtain ⟨rfl, rfl⟩ := Outcome.done.inj (show _ = Outcome.done prev between from found)
      rw [Leaf.run_ite] at ended
      split at ended
      · obtain ⟨_, _, _, stopped⟩ := Leaf.run_bind_done.mp ended
        cases stopped
      · obtain ⟨value, middle, crash, ended⟩ := Leaf.run_bind_done.mp ended
        cases text : mrshWordStr assign.value with
        | none =>
            rw [text] at crash
            cases crash
        | some found =>
            rw [text] at crash
            obtain ⟨rfl, rfl⟩ := Outcome.done.inj crash
            obtain ⟨_, set, ran, ended⟩ := Leaf.run_bind_done.mp ended
            obtain ⟨_, rfl⟩ := Outcome.done.inj (show _ = Outcome.done _ set from ran)
            obtain ⟨assigned, texts, environ, vars⟩ := ih ended
            refine ⟨(assign.name, found) :: assigned, ?_, environ, vars⟩
            simp [List.mapM_cons, assignedText, text, texts]

/-- What the child does before it becomes the program. -/
def prepareProcess (fuel : Nat) (ctx : Context) (sc : SimpleCommand) : Leaf World Unit := do
  let pid ← call System.getpid
  let _ ← initChild ctx pid false
  leaveJobControl fuel
  setAssignments sc.assignments
  populateEnvAll
  redirectProcess sc.ioRedirects

theorem runProcessChild_run {α : Type} {fuel : Nat} {ctx : Context} {sc : SimpleCommand} {path : Str} {argv : List Str}
    {state ready : Shell World} (prepared : Leaf.run (prepareProcess fuel ctx sc) state = .done () ready) :
    Leaf.run (runProcessChild fuel ctx sc path argv : Leaf World α) state =
      Leaf.run (do
        let errno ← execv path argv
        let msg ← strerror errno
        eprintf (argv.headD [] ++ ": ".toList ++ msg ++ ['\n'])
        exitProcess 127) ready := by
  have splits : (runProcessChild fuel ctx sc path argv : Leaf World α) = (do
      prepareProcess fuel ctx sc
      let errno ← execv path argv
      let msg ← strerror errno
      eprintf (argv.headD [] ++ ": ".toList ++ msg ++ ['\n'])
      exitProcess 127) := by
    simp only [runProcessChild, prepareProcess, bind_assoc]
  rw [splits, Leaf.run_bind_of_done prepared]

/-- The environment holds the assignments first, and then the variables are put into it. -/
theorem prepareProcess_done {fuel : Nat} {ctx : Context} {sc : SimpleCommand} {state ready : Shell World}
    (prepared : Leaf.run (prepareProcess fuel ctx sc) state = .done () ready) :
    ∃ assigned, sc.assignments.mapM assignedText = some assigned ∧
      ready.environ = state.vars.entries.foldl populateEnv (setAll state.environ assigned) := by
  obtain ⟨pid, first, ranPid, prepared⟩ := Leaf.run_bind_done.mp prepared
  obtain ⟨child, second, ranChild, prepared⟩ := Leaf.run_bind_done.mp prepared
  obtain ⟨_, third, ranLeave, prepared⟩ := Leaf.run_bind_done.mp prepared
  obtain ⟨_, fourth, ranSet, prepared⟩ := Leaf.run_bind_done.mp prepared
  obtain ⟨_, fifth, ranPopulate, ranRedirect⟩ := Leaf.run_bind_done.mp prepared
  have keptPid := (KeepsEnviron.call _).done ranPid
  have keptChild := (initChild_keepsEnviron _ _ _).done ranChild
  have keptLeave := (leaveJobControl_keepsEnviron _).done ranLeave
  obtain ⟨assigned, texts, environ, vars⟩ := setAssignments_done ranSet
  have populated : fifth.environ = fourth.vars.entries.foldl populateEnv fourth.environ := by
    obtain ⟨_, rfl⟩ := Outcome.done.inj (show Leaf.run populateEnvAll fourth = .done () fifth from ranPopulate)
    rfl
  have keptRedirect := (redirectProcess_keepsEnviron _).done ranRedirect
  refine ⟨assigned, texts, ?_⟩
  rw [keptRedirect.1, populated, vars, environ, keptLeave.1, keptLeave.2, keptChild.1, keptChild.2, keptPid.1,
    keptPid.2]

/-- A child whose assignments and redirections succeed passes an environment to `execv`, which is the one that
the command asks for exactly when no exported variable has another value than the command assigns to it, and
the shell has inherited no name that is neither assigned nor exported. -/
theorem runProcessChild_environment_iff {fuel : Nat} {ctx : Context} {sc : SimpleCommand} {state ready : Shell World}
    (prepared : Leaf.run (prepareProcess fuel ctx sc) state = .done () ready) (path : Str) (argv : List Str) :
    ∃ assigned, sc.assignments.mapM assignedText = some assigned ∧
      ((System.execv path argv ready.environ ready.world).1 = none →
        ∃ final, Leaf.run (runProcessChild fuel ctx sc path argv : Leaf World Int) state =
          .stopped (.executed path argv ready.environ) final) ∧
      (CommandEnvironment assigned state.vars ready.environ ↔
        ∀ name, Inherits assigned state.vars state.environ name) := by
  have executes : (System.execv path argv ready.environ ready.world).1 = none →
      ∃ final, Leaf.run (runProcessChild fuel ctx sc path argv : Leaf World Int) state =
        .stopped (.executed path argv ready.environ) final := by
    intro succeeds
    rw [runProcessChild_run prepared, Leaf.run_bind, execv, Leaf.run_gets_bind,
      Leaf.run_bind, Leaf.run_call, succeeds]
    exact ⟨_, rfl⟩
  obtain ⟨assigned, texts, environ⟩ := prepareProcess_done prepared
  refine ⟨assigned, texts, executes, ?_⟩
  rw [environ]
  exact commandEnvironment_iff assigned state.environ state.vars

end

/-- A shell that was started with `A=1`. -/
def startedShell : Shell Machine :=
  { mrshStateCreate [(['A'], ['1'])] Machine.isolated with vars := Hashtable.empty.set ['A'] ⟨['1'], .exportOnly⟩ }

/-- The command `words` with assignments before it. -/
def assigningCommand (assigned : List (Str × Str)) : SimpleCommand where
  name := some (mrshWordStringCreate ['c'] false)
  arguments := []
  ioRedirects := []
  assignments := assigned.map fun entry => ⟨entry.1, mrshWordStringCreate entry.2 false, .invalid, .invalid⟩

def foreground : Context := ⟨some 0, false⟩

/-- The environment that the command gets in this shell. -/
def environmentOf (assigned : List (Str × Str)) (state : Shell Machine) : List (Str × Str) :=
  (Leaf.run (prepareProcess 1 foreground (assigningCommand assigned)) state).state.environ

/-- The command `B=2 c` gets the variables `A` and `B`. -/
theorem runProcessChild_environment_two :
    CommandEnvironment [(['B'], ['2'])] startedShell.vars (environmentOf [(['B'], ['2'])] startedShell) := by
  have prepared : Leaf.run (prepareProcess 1 foreground (assigningCommand [(['B'], ['2'])])) startedShell =
      .done () _ := Outcome.eq_done_of_value? (by decide +kernel)
  obtain ⟨assigned, texts, _, exactly⟩ := runProcessChild_environment_iff prepared ['c'] [['c']]
  obtain rfl : [(['B'], ['2'])] = assigned := Option.some.inj texts
  apply exactly.mpr
  intro name
  have exported : exportedValue startedShell.vars name = if name = ['A'] then some ['1'] else none := by
    simp only [exportedValue, startedShell, Hashtable.get_set, Hashtable.get_empty]
    by_cases isA : name = ['A'] <;> simp [isA, Attribs.exportOnly]
  have assignedB : lastAssigned [(['B'], ['2'])] name = if name = ['B'] then some ['2'] else none := by
    by_cases isB : name = ['B'] <;> simp [lastAssigned, isB]
  have inherited : startedShell.environ.lookup name = if name = ['A'] then some ['1'] else none := by
    change [(['A'], ['1'])].lookup name = _
    by_cases isA : name = ['A'] <;> simp [isA]
  unfold Inherits
  rw [exported, assignedB, inherited]
  by_cases isA : name = ['A']
  · simp [isA, acceptsName]
  · by_cases isB : name = ['B'] <;> simp [isA, isB, acceptsName]

/-- After `unset A` a command still gets `A`, and `A=2 c` gets the value of the variable. -/
theorem environment_keeps_old_values :
    ¬ CommandEnvironment [] (Leaf.run (builtinUnset ["unset".toList, ['A']]) startedShell).state.vars
        (environmentOf [] (Leaf.run (builtinUnset ["unset".toList, ['A']]) startedShell).state) ∧
      ¬ CommandEnvironment [(['A'], ['2'])] startedShell.vars (environmentOf [(['A'], ['2'])] startedShell) := by
  constructor
  · intro asked
    have unset := asked ['A']
    revert unset
    decide +kernel
  · intro asked
    have assigned := asked ['A']
    revert assigned
    decide +kernel

end Mrsh

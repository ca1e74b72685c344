import Mrsh.Shell.Readonly
import Mrsh.Shell.VariableWrites

namespace Mrsh

open Mrsh.Data

/-! # Exported variables

`mrsh_env_set` replaces the attributes of a variable together with its value, so that EXPORT is
kept only where the caller passes it. Of the operations that give a variable a value, a compound
arithmetic assignment and the builtins `export` and `readonly` carry the attributes over, `cd`
exports PWD, and a plain assignment exports every variable with the `allexport` option.
-/

section

variable {World : Type} [System World]

omit [System World] in
def isExported (state : Shell World) (key : Str) : Bool :=
  match state.vars.get key with
  | some var => var.attribs.exported
  | none => false

/-! ## The operations -/

/-- `run_arithm_assign` after the evaluation of the value. -/
def runArithmAssign (op : ArithmAssignOp) (name : Str) (val : Int) : Leaf World (Option Int) := do
  match ← if op == .none then pure (some (0, .none)) else runVariable name with
  | none => pure none
  | some (cur, attribs) =>
      match ← runArithmAssignOp op cur val with
      | none => pure none
      | some result => do
          mrshEnvSet .arithmetic name (decimal result) attribs
          pure (some result)

/-- What gives a variable a value. -/
inductive Operation where
  | assignments (assigns : List Assignment)
  | arithmetic (op : ArithmAssignOp) (name : Str) (val : Int)
  | forClause (name field : Str)
  /-- `${name:=word}`, where the word has been expanded. -/
  | parameter (name str : Str)
  | read (fuel : Nat) (args : List Str)
  | getopts (args : List Str)
  | cd (args : List Str)
  /-- `export` and `readonly`. -/
  | builtinExport (args : List Str)

def Operation.prog : Operation → Leaf World Unit
  | .assignments assigns => discard (runAssignments assigns)
  | .arithmetic op name val => discard (runArithmAssign op name val)
  | .forClause name field => mrshEnvSet .forClause name field .none
  | .parameter name str => mrshEnvSet .parameter name str .none
  | .read fuel args => discard (builtinRead fuel args)
  | .getopts args => discard (builtinGetopts args)
  | .cd args => discard (builtinCd args)
  | .builtinExport args => discard (Mrsh.builtinExport args)

/-- Whether EXPORT is among the attributes that the operation gives an exported variable. -/
def Operation.carries (state : Shell World) (key : Str) : Operation → Bool
  | .assignments _ => state.options .allexport
  | .arithmetic op _ _ => op != .none
  | .cd _ => key == "PWD".toList
  | .builtinExport _ => true
  | _ => false

/-! ## Programs that give an attribute -/

section

variable {key : Str} {exported : Bool}

/-- The variable is as before, or it is unset or was given EXPORT or not. -/
def Gives (key : Str) (exported : Bool) (before after : Shell World) : Prop :=
  after.vars.get key = before.vars.get key ∨ ∀ var, after.vars.get key = some var → var.attribs.exported = exported

instance : Std.Refl (Gives key exported : Shell World → Shell World → Prop) := ⟨fun _ => .inl rfl⟩

instance : IsTrans (Shell World) (Gives key exported) := by
  refine ⟨fun _ _ _ first second => ?_⟩
  rcases second with same | given
  · rw [Gives, same]
    exact first
  · exact .inr given

omit [System World] in
theorem SparesVariables.gives {α : Type} {prog : Leaf World α} (spares : SparesVariables prog) :
    Within (Gives key exported) prog := spares.within fun _ _ => .inl rfl

omit [System World] in
theorem writeVar_gives {state : Shell World} {name : Str} {var : Option Variable}
    (marks : ∀ var', var = some var' → name = key → var'.attribs.exported = exported) :
    Gives key exported state (writeVar state name var) := by
  by_cases written : key = name
  · subst written
    refine .inr fun found got => ?_
    cases var with
    | some var =>
        simp only [writeVar, Hashtable.get_set, if_true] at got
        exact marks found got rfl
    | none => simp [writeVar, Hashtable.get_del] at got
  · cases var <;> exact .inl (by simp [writeVar, Hashtable.get_set, Hashtable.get_del, written])

omit [System World] in
theorem mrshEnvSet_gives (writer : Writer) (name value : Str) {attribs : Attribs}
    (marks : name = key → attribs.exported = exported) :
    Within (Gives key exported) (mrshEnvSet writer name value attribs : Leaf World Unit) := by
  intro state
  change Gives key exported state (writeVar state name (some ⟨value, attribs⟩))
  apply writeVar_gives
  rintro _ ⟨⟩
  exact marks

omit [System World] in
theorem mrshEnvUnset_gives (writer : Writer) (name : Str) :
    Within (Gives key exported) (mrshEnvUnset writer name : Leaf World Unit) := by
  intro state
  change Gives key exported state (writeVar state name none)
  exact writeVar_gives fun _ found => nomatch found

omit [System World] in
theorem envSetChecked_run (name value : Str) (attribs : Attribs) (state : Shell World) :
    Leaf.run (envSetChecked name value attribs) state =
      if isReadonly state name then .done false state
      else .done true (writeVar state name (some ⟨value, attribs⟩)) := by
  cases locked : isReadonly state name <;> simp [envSetChecked, Leaf.run, Prog.run, handleLeaf, locked]

omit [System World] in
theorem assignFields_gives (names fields : List Str) :
    Within (Gives key false) (assignFields names fields : Leaf World Unit) := by
  induction names generalizing fields with
  | nil => exact .pure ()
  | cons name names ih =>
      cases names with
      | nil => exact mrshEnvSet_gives _ _ _ fun _ => rfl
      | cons next names => exact .bind (mrshEnvSet_gives _ _ _ fun _ => rfl) fun _ => ih _

theorem builtinRead_gives (fuel : Nat) (args : List Str) :
    Within (Gives key false) (builtinRead fuel args : Leaf World Int) := by
  refine .bind (forOptions_spares _ _ _ fun _ opt =>
    .ite (.pure _) (unknownOption_talks _ _).spares).gives fun options => ?_
  cases options with
  | error status => exact .pure _
  | ok raw =>
      refine .bind (operandsOf_spares args).gives fun names => .ite (usageError_talks _).spares.gives
        (.bind (readLineChars_spares raw fuel false []).gives fun (buf, ended) => ?_)
      exact .bind (.gets _) fun _ => .bind (.orCrash _) fun _ => .bind (.orCrash _) fun strs =>
        .bind (assignFields_gives names strs) fun _ => .pure _

omit [System World] in
theorem setOptarg_gives (optstring : Str) (opt : Option Char) :
    Within (Gives key false) (setOptarg optstring opt : Leaf World Unit) := by
  refine .bind (.gets _) fun getopt => ?_
  cases getopt.optopt with
  | some optopt =>
      exact .ite (mrshEnvSet_gives _ _ _ fun _ => rfl) (.ite (mrshEnvUnset_gives _ _) (.ite (mrshEnvUnset_gives _ _)
        (mrshEnvSet_gives _ _ _ fun _ => rfl)))
  | none =>
      cases getopt.optarg with
      | some optarg => exact mrshEnvSet_gives _ _ _ fun _ => rfl
      | none => exact mrshEnvUnset_gives _ _

theorem builtinGetopts_gives (args : List Str) :
    Within (Gives key false) (builtinGetopts args : Leaf World Int) := by
  refine .bind (forOptions_spares _ _ _ fun _ _ => (unknownOption_talks _ _).spares).gives fun options => ?_
  cases options with
  | error status => exact .pure _
  | ok _ =>
      refine .bind (operandsOf_spares args).gives fun operands => .ite (usageError_talks _).spares.gives
        (.bind readOptind_spares.gives fun optind => ?_)
      have withoutName (optind : Int) : Within (Gives key false) (getoptsWithoutName optind : Leaf World Int) :=
        .bind (SparesVariables.update _).gives fun _ => .bind (mrshEnvSet_gives _ _ _ fun _ => rfl) fun _ =>
          .bind (mrshEnvUnset_gives _ _) fun _ => .stop _
      cases optind with
      | none => exact .pure _
      | some optind =>
          refine .bind (SparesVariables.update _).gives fun _ => ?_
          rcases operands with _ | ⟨optstring, _ | ⟨name, _ | ⟨more, rest⟩⟩⟩
          · exact withoutName optind
          · exact withoutName optind
          · refine .bind (.gets _) fun optc => .bind (.gets _) fun optv => ?_
            exact .bind (SparesVariables.update _).gives fun _ =>
              .bind (mrshGetopt_talks _ _ _).spares.gives fun opt => .bind (.gets _) fun _ =>
                .bind (mrshEnvSet_gives _ _ _ fun _ => rfl) fun _ =>
                .bind (setOptarg_gives optstring opt) fun _ => .bind (mrshEnvSet_gives _ _ _ fun _ => rfl) fun _ =>
                  .pure _
          · exact withoutName optind

/-! ## Changing the directory -/

omit [System World] in
theorem oldPwd_gives (value : Str) : Within (Gives key (key == "PWD".toList))
    (mrshEnvSet .cd "OLDPWD".toList value .none : Leaf World Unit) := by
  apply mrshEnvSet_gives
  rintro rfl
  decide

omit [System World] in
theorem pwd_gives (value : Str) : Within (Gives key (key == "PWD".toList))
    (mrshEnvSet .cd "PWD".toList value .exportOnly : Leaf World Unit) := by
  apply mrshEnvSet_gives
  rintro rfl
  decide

theorem cd_gives (path : Str) : Within (Gives key (key == "PWD".toList)) (cd path : Leaf World Int) := by
  refine .bind (.gets _) fun oldPwd => .bind (SparesVariables.call _).gives fun changed => ?_
  cases changed with
  | error errno => exact .bind (.pure _) fun _ => (failWith_talks _).spares.gives
  | ok _ =>
      refine .bind (SparesVariables.call _).gives fun cwd => ?_
      cases cwd with
      | error errno => exact .bind (perror_talks _ _).spares.gives fun _ => .pure _
      | ok cwd =>
          exact .bind (.orCrash _) fun oldPwd =>
            .bind (oldPwd_gives oldPwd) fun _ => .bind (pwd_gives cwd) fun _ => .pure _

theorem cdOld_gives : Within (Gives key (key == "PWD".toList)) (cdOld : Leaf World Int) := by
  refine .bind (.gets _) fun oldpwd => .bind (.gets _) fun pwd => ?_
  cases pwd with
  | none => exact (failWith_talks _).spares.gives
  | some pwd =>
      cases oldpwd with
      | none => exact (failWith_talks _).spares.gives
      | some oldpwd =>
          refine .bind (SparesVariables.call _).gives fun changed => ?_
          cases changed with
          | error errno => exact .bind (.pure _) fun _ => (failWith_talks _).spares.gives
          | ok _ =>
              exact .bind (SparesVariables.call _).gives fun _ => .bind (pwd_gives oldpwd) fun _ =>
                .bind (oldPwd_gives pwd) fun _ => .pure _

theorem cdpathSearch_gives (curpath : Str) (fuel : Nat) (rest : Str) :
    Within (Gives key exported) (cdpathSearch curpath fuel rest : Leaf World (Option Str)) := by
  induction fuel generalizing rest with
  | zero => exact .stop _
  | succ fuel ih =>
      exact .bind (isdir_spares _).gives fun _ => .ite (.pure _) (.ite (ih _) (.pure _))

theorem builtinCd_gives (args : List Str) :
    Within (Gives key (key == "PWD".toList)) (builtinCd args : Leaf World Int) := by
  refine .bind (forOptions_spares _ _ _ fun _ _ =>
    .ite (.bind (.call _) fun _ => .pure _) (unknownOption_talks _ _).spares).gives fun options => ?_
  cases options with
  | error status => exact .pure _
  | ok _ =>
      refine .bind (operandsOf_spares args).gives fun operands => ?_
      cases operands with
      | nil => exact .bind (.gets _) fun _ => .ite (cd_gives _) (failWith_talks _).spares.gives
      | cons curpath _ =>
          refine .ite cdOld_gives (.ite (.bind (.gets _) fun cdpath => ?_) (cd_gives _))
          cases cdpath with
          | none => exact cd_gives _
          | some cdpath =>
              refine .bind (cdpathSearch_gives curpath _ cdpath) fun found => ?_
              cases found with
              | none => exact cd_gives _
              | some path => exact cd_gives path

/-! ## Assignments -/

theorem runAssignments_gives (assigns : List Assignment) (state : Shell World) :
    Gives key (state.options .allexport) state (Leaf.run (runAssignments assigns) state).state := by
  induction assigns generalizing state with
  | nil => exact Std.Refl.refl state
  | cons assign assigns ih =>
      rw [runAssignments, Leaf.run_bind]
      cases text : mrshWordStr assign.value with
      | none => exact Std.Refl.refl state
      | some value =>
          rw [orCrash_some, Leaf.run_pure, Outcome.andThen_done, Leaf.run_bind, optionSet, Leaf.run_gets,
            Outcome.andThen_done, Leaf.run_bind, envSetChecked_run]
          split
          · exact .inl rfl
          · have sets : Gives key (state.options .allexport) state (writeVar state assign.name
                (some ⟨value, if state.options .allexport then .exportOnly else .none⟩)) := by
              apply writeVar_gives
              rintro _ ⟨⟩ _
              cases state.options .allexport <;> rfl
            exact IsTrans.trans _ _ _ sets (ih _)

theorem runVariable_attribs {name : Str} {state after : Shell World} {cur : Int} {attribs : Attribs}
    (ended : Leaf.run (runVariable name) state = .done (some (cur, attribs)) after) :
    after.vars = state.vars ∧ ((state.vars.get name).map (·.attribs)).getD .none = attribs := by
  have fails {parts : List Str} {state : Shell World} (ended : Leaf.run (do
      argv0Message parts
      pure none) state = .done (some (cur, attribs)) after) : False := by
    obtain ⟨_, _, -, ended⟩ := Leaf.run_bind_done.mp ended
    cases ended
  rw [runVariable, Leaf.run_bind, mrshEnvGet, Leaf.run_gets, Outcome.andThen_done] at ended
  cases found : state.vars.get name with
  | none =>
      rw [found, optionSet, Leaf.run_gets_bind, Leaf.run_ite] at ended
      split at ended
      · exact (fails ended).elim
      · cases ended
        exact ⟨rfl, rfl⟩
  | some var =>
      rw [found, Leaf.run_ite] at ended
      split at ended
      · exact (fails ended).elim
      · cases ended
        exact ⟨rfl, rfl⟩

theorem runArithmAssign_gives (op : ArithmAssignOp) (name : Str) (val : Int) {state : Shell World}
    (set : isExported state key = true) :
    Gives key (op != .none) state (Leaf.run (runArithmAssign op name val) state).state := by
  have assigns (cur : Int) {attribs : Attribs} (marks : name = key → attribs.exported = (op != .none)) :
      Within (Gives key (op != .none)) (do
        match ← runArithmAssignOp op cur val with
        | none => pure none
        | some result => do
            mrshEnvSet .arithmetic name (decimal result) attribs
            pure (some result) : Leaf World (Option Int)) := by
    refine .bind (runArithmAssignOp_spares op cur val).gives fun result => ?_
    cases result with
    | none => exact .pure _
    | some result => exact .bind (mrshEnvSet_gives _ _ _ marks) fun _ => .pure _
  by_cases simple : op = .none
  · subst simple
    exact @assigns 0 .none (fun _ => rfl) state
  · have compound : (op == .none) = false := by simpa using simple
    have carried : (op != .none) = true := by simpa using simple
    have same : Gives key (op != .none) state (Leaf.run (runVariable name) state).state :=
      (runVariable_spares name).gives state
    rw [runArithmAssign, compound, if_neg (by decide), Leaf.run_bind]
    cases ended : Leaf.run (runVariable name) state with
    | stopped reason after =>
        rw [ended] at same
        exact same
    | done found after =>
        rw [ended] at same
        cases found with
        | none => exact same
        | some found =>
            obtain ⟨cur, attribs⟩ := found
            obtain ⟨-, attribs_eq⟩ := runVariable_attribs ended
            refine IsTrans.trans _ _ _ same (@assigns cur attribs ?_ after)
            rintro rfl
            rw [carried, ← attribs_eq]
            cases got : state.vars.get name with
            | none => simp [isExported, got] at set
            | some var => simpa [isExported, got] using set

/-- The variable has EXPORT if it had it before. -/
def StaysExported (key : Str) (before after : Shell World) : Prop :=
  isExported before key = true → isExported after key = true

instance : Std.Refl (StaysExported key : Shell World → Shell World → Prop) := ⟨fun _ exports => exports⟩

instance : IsTrans (Shell World) (StaysExported key) := ⟨fun _ _ _ first second exports => second (first exports)⟩

omit [System World] in
theorem SparesVariables.staysExported {α : Type} {prog : Leaf World α} (spares : SparesVariables prog) :
    Within (StaysExported key) prog := spares.within fun _ _ => id

theorem exportVars_keeps (argv0 : Str) (attrib : Attribs) (args : List Str) :
    Within (StaysExported key) (exportVars argv0 attrib args : Leaf World Int) := by
  induction args with
  | nil => exact .pure _
  | cons arg args ih =>
      intro state
      let name := (splitAssignment arg).1
      let prev := state.vars.get name
      have sets (newVal : Str) : StaysExported key state
          (writeVar state name (some ⟨newVal, attrib.union ((prev.map (·.attribs)).getD .none)⟩)) := by
        intro exports
        by_cases written : key = name
        · rw [written] at exports ⊢
          unfold isExported at exports ⊢
          cases got : prev with
          | none => simp [prev] at got; simp [got] at exports
          | some var =>
              rw [show state.vars.get name = some var from got] at exports
              simp [writeVar, Hashtable.get_set, Attribs.union, exports]
        · simpa [isExported, writeVar, Hashtable.get_set, written] using exports
      have assigns (newVal : Str) : StaysExported key state (Leaf.run (do
          if ← envSetChecked name newVal (attrib.union ((prev.map (·.attribs)).getD .none)) then
            exportVars argv0 attrib args
          else failWith [argv0, ": cannot modify readonly variable ".toList, name]) state).state := by
        rw [Leaf.run_bind, envSetChecked_run]
        split
        · exact (failWith_talks _).spares.staysExported state
        · exact IsTrans.trans _ _ _ (sets newVal) (ih _)
      change StaysExported key state (Leaf.run (exportVars argv0 attrib (arg :: args)) state).state
      -- the value is expanded without a write
      rw [exportVars, Leaf.run_bind, mrshEnvGet, Leaf.run_gets, Outcome.andThen_done]
      dsimp only
      rw [Leaf.run_bind, expandTildeWord, Leaf.run_bind, envValue, Leaf.run_gets, Outcome.andThen_done, Leaf.run_gets,
        Outcome.andThen_done, Leaf.run_bind]
      cases mrshWordStr _ with
      | none => exact Std.Refl.refl state
      | some newVal => exact assigns newVal

theorem builtinExport_keeps (args : List Str) :
    Within (StaysExported key) (Mrsh.builtinExport args : Leaf World Int) := by
  have prints (line : Str) (vars : List (Str × Str)) :
      Within (StaysExported key) (printVars line vars : Leaf World Unit) := by
    induction vars with
    | nil => exact .pure _
    | cons entry vars ih =>
        exact .bind (SparesVariables.call _).staysExported fun _ => .bind (SparesVariables.call _).staysExported
          fun _ =>
          .bind (SparesVariables.call _).staysExported fun _ => ih
  unfold builtinExport
  dsimp only
  split
  · exact .bind (.gets _) fun vars => .bind (prints _ vars) fun _ => .pure _
  · exact exportVars_keeps _ _ _
  · exact (usageError_talks _).spares.staysExported

end

/-! ## What keeps EXPORT -/

omit [System World] in
theorem discard_state {α : Type} (prog : Leaf World α) (before : Shell World) :
    (Leaf.run (discard prog) before).state = (Leaf.run prog before).state := by
  change (Leaf.run (prog >>= fun _ => pure ()) before).state = _
  rw [Leaf.run_bind]
  cases Leaf.run prog before <;> rfl

/-- An operation that gives an exported variable a value leaves it exported exactly if it carries
EXPORT. -/
theorem operation_keepsExport_iff (op : Operation) {before : Shell World} {key : Str} {var : Variable}
    (exported : isExported before key = true) (found : (Leaf.run op.prog before).state.vars.get key = some var)
    (given : before.vars.get key ≠ some var) : var.attribs.exported = true ↔ op.carries before key = true := by
  have gives {exported : Bool} (gives : Gives key exported before (Leaf.run op.prog before).state) :
      var.attribs.exported = exported := by
    rcases gives with same | gives
    · exact absurd (same.symm.trans found) given
    · exact gives var found
  have unit {α : Type} {prog : Leaf World α} {exported : Bool}
      (gives : Gives key exported before (Leaf.run prog before).state) :
      Gives key exported before (Leaf.run (discard prog) before).state := by
    rw [discard_state]
    exact gives
  cases op with
  | assignments assigns => rw [gives (unit (runAssignments_gives assigns before))]; rfl
  | arithmetic op name val => rw [gives (unit (runArithmAssign_gives op name val exported))]; rfl
  | forClause name field => rw [gives (mrshEnvSet_gives _ _ _ (fun _ => rfl) before)]; rfl
  | parameter name str => rw [gives (mrshEnvSet_gives _ _ _ (fun _ => rfl) before)]; rfl
  | read fuel args => rw [gives (unit (builtinRead_gives fuel args before))]; rfl
  | getopts args => rw [gives (unit (builtinGetopts_gives args before))]; rfl
  | cd args => rw [gives (unit (builtinCd_gives args before))]; rfl
  | builtinExport args =>
      have kept : isExported (Leaf.run (discard (Mrsh.builtinExport args)) before).state key = true := by
        rw [discard_state]
        exact builtinExport_keeps args before exported
      rw [Operation.prog] at found
      rw [isExported, found] at kept
      exact iff_of_true kept rfl

end

/-! ## An assignment to an exported variable -/

/-- A shell that exports `x`. -/
def exportingShell : Shell Machine :=
  { mrshStateCreate [] Machine.isolated with vars := Hashtable.empty.set ['x'] ⟨['1'], .exportOnly⟩ }

/-- `x=2` -/
def assignTwo : Assignment := ⟨['x'], mrshWordStringCreate ['2'] false, .invalid, .invalid⟩

/-- With `allexport`, `x=2` leaves `x` exported. -/
theorem assignment_keepsExport : ∃ var, (Leaf.run (Operation.assignments [assignTwo]).prog
    { exportingShell with options := fun option => option == .allexport }).state.vars.get ['x'] = some var ∧
      var.attribs.exported = true :=
  ⟨⟨['2'], .exportOnly⟩, by decide +kernel, (@operation_keepsExport_iff Machine _ (.assignments [assignTwo])
    { exportingShell with options := fun option => option == .allexport } ['x'] ⟨['2'], .exportOnly⟩
    (by decide +kernel) (by decide +kernel) (by decide +kernel)).mpr (by decide +kernel)⟩

/-- `x=2` takes EXPORT from `x`, as an operation and as a command. -/
theorem assignment_dropsExport :
    (¬ ∀ (op : Operation) (before : Shell Machine) (key : Str) (var : Variable), isExported before key = true →
      (Leaf.run op.prog before).state.vars.get key = some var → before.vars.get key ≠ some var →
        var.attribs.exported = true) ∧
      isExported ((runCommand (tasks 9) .initial (assignmentTo ['x'] ['2'])).run exportingShell).state ['x'] =
        false := by
  refine ⟨fun always => ?_, by decide +kernel⟩
  have kept := always (.assignments [assignTwo]) exportingShell ['x']
    ⟨['2'], .none⟩ (by decide +kernel) (by decide +kernel) (by decide +kernel)
  cases kept

end Mrsh

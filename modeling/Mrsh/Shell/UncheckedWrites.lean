import Mrsh.Shell.VariableWrites

namespace Mrsh

open Mrsh.Data

/-! # Writers that do not look at READONLY

`mrsh_env_set` does not look at READONLY, so that each of its callers has to. Those that do set the
variable by one action that makes the test. The writers that do not are `Unchecked`, each with the
names of the variables that it is given. All other programs of the shell only read, update what is
no variable, or make the test, so that a readonly variable can be lost in these writers alone.
-/

section

variable {World α β : Type}

/-! ## Readonly variables -/

/-- Every readonly variable keeps its value and its attributes. -/
def KeepsReadonly (before after : Shell World) : Prop :=
  ∀ key var, before.vars.get key = some var → var.attribs.readonly = true →
    after.vars.get key = some var

instance : Std.Refl (@KeepsReadonly World) := ⟨fun _ _ _ found _ => found⟩

instance : IsTrans (Shell World) KeepsReadonly :=
  ⟨fun _ _ _ first second key var found readonly => second key var (first key var found readonly) readonly⟩

/-- The action is no write without the test, or the variable that it writes is not readonly. -/
def SparesReadonly : LeafAction World ⊕ ControlAction → Shell World → Prop
  | .inl (.write _ key _), state => isReadonly state key = false
  | _, _ => True

instance (action : LeafAction World ⊕ ControlAction) (state : Shell World) : Decidable (SparesReadonly action state) :=
  match action with
  | .inl (.write _ key _) => inferInstanceAs (Decidable (isReadonly state key = false))
  | .inl .get | .inl (.update _) | .inl (.assign _ _) | .inl (.setExit _) | .inr _ => isTrue trivial

theorem isReadonly_of_get {state : Shell World} {key : Str} {var : Variable}
    (found : state.vars.get key = some var) : isReadonly state key = var.attribs.readonly := by
  simp [isReadonly, found]

theorem writeVar_keepsReadonly {state : Shell World} {key : Str} (spared : isReadonly state key = false)
    (var : Option Variable) : KeepsReadonly state (writeVar state key var) := by
  intro other old found readonly
  have different : other ≠ key := by
    rintro rfl
    rw [isReadonly_of_get found, readonly] at spared
    cases spared
  cases var with
  | some var => simp only [writeVar, Hashtable.get_set, if_neg different, found]
  | none => simp only [writeVar, Hashtable.get_del, if_neg different, found]

theorem isReadonly_writeVar (state : Shell World) (key other : Str) (var : Option Variable) :
    isReadonly (writeVar state key var) other =
      if other = key then (var.map (·.attribs.readonly)).getD false else isReadonly state other := by
  by_cases written : other = key
  · cases var <;> simp [isReadonly, writeVar, Hashtable.get_set, Hashtable.get_del, written]
  · cases var <;> simp [isReadonly, writeVar, Hashtable.get_set, Hashtable.get_del, written]

theorem handleLeaf_keepsReadonly (action : LeafAction World) (state : Shell World)
    (spares : SparesReadonly (.inl action) state) : KeepsReadonly state (handleLeaf action state).2 := by
  cases action with
  | get => exact Std.Refl.refl state
  | update change => exact fun _ _ found _ => found
  | setExit status => exact fun _ _ found _ => found
  | write writer key var => exact writeVar_keepsReadonly spares var
  | assign key var =>
      cases locked : isReadonly state key with
      | true => simp only [handleLeaf, locked, if_true, Std.Refl.refl]
      | false => simpa [handleLeaf, locked] using writeVar_keepsReadonly locked var

theorem handleControl_vars (action : ControlAction) (state : Shell World) :
    (handleControl action state).2.vars = state.vars := by
  cases action with
  | pop => cases callers : state.callers <;> simp [handleControl, callers]
  | _ => rfl

theorem handle_keepsReadonly (action : LeafAction World ⊕ ControlAction) (state : Shell World)
    (spares : SparesReadonly action state) :
    KeepsReadonly state (handleLeaf.sum handleControl action state).2 := by
  cases action with
  | inl action => exact handleLeaf_keepsReadonly action state spares
  | inr action =>
      intro key var found _
      exact (congrArg (fun vars => vars.get key) (handleControl_vars action state)).trans found

/-! ## The writers -/

/-- None of the names is that of a readonly variable. -/
def Unlocked (names : List Str) (state : Shell World) : Prop := ∀ name ∈ names, isReadonly state name = false

/-- `OPTIND`, `OPTARG` and the name in turn. -/
def getoptsWrites (optind : Int) (optstring name : Str) (opt : Option Char) : Leaf World Unit := do
  mrshEnvSet .getopts "OPTIND".toList (decimal optind) .none
  setOptarg optstring opt
  mrshEnvSet .getopts name [opt.getD '?'] .none

/-- The programs that write variables without the test, with the names of the variables. -/
inductive Unchecked : {α : Type} → Leaf World α → List Str → Prop where
  /-- A round of a `for` clause. -/
  | forClause (name field : Str) : Unchecked (mrshEnvSet .forClause name field .none) [name]
  /-- `${name:=word}` -/
  | parameter (name str : Str) : Unchecked (mrshEnvSet .parameter name str .none) [name]
  /-- An assignment in an arithmetic expression. A compound one hands on the attributes. -/
  | arithmetic (name : Str) (result : Int) (attribs : Attribs) :
      Unchecked (mrshEnvSet .arithmetic name (decimal result) attribs) [name]
  | read (names fields : List Str) : Unchecked (assignFields names fields) names
  | getopts (optind : Int) (optstring name : Str) (opt : Option Char) :
      Unchecked (getoptsWrites optind optstring name opt) ["OPTIND".toList, "OPTARG".toList, name]
  | getoptsWithoutName (optind : Int) :
      Unchecked (do
        mrshEnvSet .getopts "OPTIND".toList (decimal optind) .none
        mrshEnvUnset .getopts "OPTARG".toList) ["OPTIND".toList, "OPTARG".toList]
  | cd (oldPwd cwd : Str) :
      Unchecked (do
        mrshEnvSet .cd "OLDPWD".toList oldPwd .none
        mrshEnvSet .cd "PWD".toList cwd .exportOnly) ["OLDPWD".toList, "PWD".toList]
  /-- `cd -` -/
  | cdOld (oldpwd pwd : Str) :
      Unchecked (do
        mrshEnvSet .cd "PWD".toList oldpwd .exportOnly
        mrshEnvSet .cd "OLDPWD".toList pwd .none) ["PWD".toList, "OLDPWD".toList]

/-- Whenever the run comes to such a writer, none of its variables is readonly. -/
def GivenUnlocked (prog : Exec World α) (before : Shell World) : Prop :=
  ∀ {γ : Type} (writer : Leaf World γ) (names : List Str) (state : Shell World), Unchecked writer names →
    Prog.Arrives (handleLeaf.sum handleControl) (leaf writer) prog before state → Unlocked names state

/-- Readonly variables are written by the unchecked writers alone. -/
def HeedsReadonly (prog : Exec World α) : Prop :=
  ∀ before, GivenUnlocked prog before → ∀ step ∈ prog.steps before, SparesReadonly step.1 step.2

theorem leaf_bind (first : Leaf World α) (next : α → Leaf World β) :
    leaf (first >>= next) = leaf first >>= fun value => leaf (next value) := Prog.inl_bind first next

namespace HeedsReadonly

theorem pure (value : α) : HeedsReadonly (pure value : Exec World α) := fun _ _ _ member => nomatch member

theorem stop (reason : Ending) : HeedsReadonly (Prog.stop reason : Exec World α) := fun _ _ _ member => nomatch member

theorem control (action : ControlAction) : HeedsReadonly (Mrsh.control action : Exec World Unit) := by
  intro _ _ step member
  obtain rfl := List.mem_singleton.mp member
  trivial

theorem bind {first : Exec World α} {next : α → Exec World β} (firstHeeds : HeedsReadonly first)
    (nextHeeds : ∀ value, HeedsReadonly (next value)) : HeedsReadonly (first >>= next) := by
  intro before given step member
  rcases Prog.mem_steps_bind member with member | ⟨value, after, ended, member⟩
  · exact firstHeeds before (fun writer names state unchecked arrives => given writer names state unchecked
      arrives.ofFirst) step member
  · exact nextHeeds value after (fun writer names state unchecked arrives => given writer names state unchecked
      (.ofNext ended arrives)) step member

theorem ite {condition : Prop} [Decidable condition] {yes no : Exec World α} (yesHeeds : HeedsReadonly yes)
    (noHeeds : HeedsReadonly no) : HeedsReadonly (if condition then yes else no) := by
  split
  · exact yesHeeds
  · exact noHeeds

end HeedsReadonly

/-! ## What the writers do -/

/-- Starting with unlocked variables, the program writes these only, and leaves them unlocked. -/
def FillsUnlocked (names : List Str) (prog : Leaf World α) : Prop :=
  ∀ before, Unlocked names before →
    (∀ step ∈ Prog.steps handleLeaf prog before, SparesReadonly (.inl step.1) step.2) ∧
      Unlocked names (Leaf.run prog before).state

namespace FillsUnlocked

variable {names : List Str}

theorem bind {first : Leaf World α} {next : α → Leaf World β} (firstFills : FillsUnlocked names first)
    (nextFills : ∀ value, FillsUnlocked names (next value)) : FillsUnlocked names (first >>= next) := by
  intro before unlocked
  obtain ⟨spares, kept⟩ := firstFills before unlocked
  rw [Leaf.run_bind]
  unfold Leaf.run at kept ⊢
  cases ended : Prog.run handleLeaf first before with
  | done value between =>
      rw [ended] at kept
      obtain ⟨sparesNext, keptNext⟩ := nextFills value between kept
      refine ⟨fun step member => ?_, keptNext⟩
      rcases Prog.mem_steps_bind member with member | ⟨_, _, ran, member⟩
      · exact spares step member
      · obtain ⟨rfl, rfl⟩ := Outcome.done.inj (ended.symm.trans ran)
        exact sparesNext step member
  | stopped reason after =>
      rw [ended] at kept
      refine ⟨fun step member => ?_, kept⟩
      rcases Prog.mem_steps_bind member with member | ⟨_, _, ran, _⟩
      · exact spares step member
      · cases ended.symm.trans ran

theorem write {key : Str} {var : Option Variable} (writer : Writer) (given : key ∈ names)
    (unlocks : (var.map (·.attribs.readonly)).getD false = false) :
    FillsUnlocked names (.act (.write writer key var) .pure : Leaf World Unit) := by
  refine fun before unlocked => ⟨fun step member => ?_, fun name inside => ?_⟩
  · obtain rfl := List.mem_singleton.mp member
    exact unlocked key given
  · change isReadonly (writeVar before key var) name = false
    rw [isReadonly_writeVar, unlocks, unlocked name inside, ite_self]

theorem gets (read : Shell World → α) : FillsUnlocked names (gets read) := by
  refine fun before unlocked => ⟨fun step member => ?_, unlocked⟩
  obtain rfl := List.mem_singleton.mp member
  trivial

end FillsUnlocked

theorem assignFields_fills {names written : List Str} (fields : List Str) (given : ∀ name ∈ written, name ∈ names) :
    FillsUnlocked names (assignFields written fields : Leaf World Unit) := by
  induction written generalizing fields with
  | nil => exact fun before unlocked => ⟨fun _ member => (nomatch member), unlocked⟩
  | cons name written ih =>
      obtain ⟨first, rest⟩ := List.forall_mem_cons.mp given
      cases written with
      | nil => exact .write .read first rfl
      | cons next written => exact .bind (.write .read first rfl) fun _ => ih _ rest

/-- Every branch of `getopts` for `OPTARG` writes it once, and never as readonly. -/
theorem setOptarg_branches (optstring : Str) (opt : Option Char) (getopt : Getopt) :
    ∃ var : Option Variable, (var.map (·.attribs.readonly)).getD false = false ∧
      (match getopt.optopt with
      | some optopt =>
          if opt == some ':' then mrshEnvSet .getopts "OPTARG".toList [optopt] .none
          else if optstring.head? != some ':' then mrshEnvUnset .getopts "OPTARG".toList
          else if optopt ∈ optstring then mrshEnvUnset .getopts "OPTARG".toList
          else mrshEnvSet .getopts "OPTARG".toList [optopt] .none
      | none =>
          match getopt.optarg with
          | some optarg => mrshEnvSet .getopts "OPTARG".toList optarg .none
          | none => mrshEnvUnset .getopts "OPTARG".toList : Leaf World Unit) =
        .act (.write .getopts "OPTARG".toList var) .pure := by
  cases getopt.optopt with
  | some optopt =>
      dsimp only
      split
      · exact ⟨_, rfl, rfl⟩
      · split
        · exact ⟨_, rfl, rfl⟩
        · split <;> exact ⟨_, rfl, rfl⟩
  | none => cases getopt.optarg <;> exact ⟨_, rfl, rfl⟩

theorem setOptarg_writes (optstring : Str) (opt : Option Char) :
    ∃ var : Getopt → Option Variable, (∀ getopt, ((var getopt).map (·.attribs.readonly)).getD false = false) ∧
      (setOptarg optstring opt : Leaf World Unit) =
        gets (·.getopt) >>= fun getopt => .act (.write .getopts "OPTARG".toList (var getopt)) .pure := by
  choose var unlocks same using @setOptarg_branches World optstring opt
  exact ⟨var, unlocks, congrArg (Bind.bind (gets (·.getopt))) (funext same)⟩

theorem setOptarg_fills {names : List Str} (given : "OPTARG".toList ∈ names) (optstring : Str) (opt : Option Char) :
    FillsUnlocked names (setOptarg optstring opt : Leaf World Unit) := by
  obtain ⟨var, unlocks, writes⟩ := @setOptarg_writes World optstring opt
  rw [writes]
  exact .bind (.gets _) fun getopt => .write .getopts given (unlocks getopt)

theorem Unchecked.spares {writer : Leaf World α} {names : List Str} (unchecked : Unchecked writer names)
    {before : Shell World} (unlocked : Unlocked names before) :
    ∀ step ∈ Prog.steps handleLeaf writer before, SparesReadonly (.inl step.1) step.2 := by
  have fills {prog : Leaf World α} (fills : FillsUnlocked names prog) := (fills before unlocked).1
  cases unchecked with
  | forClause name field => exact fills (.write _ (by simp) rfl)
  | parameter name str => exact fills (.write _ (by simp) rfl)
  | arithmetic name result attribs =>
      intro step member
      obtain rfl := List.mem_singleton.mp member
      exact unlocked name (by simp)
  | read names fields => exact fills (assignFields_fills fields fun _ inside => inside)
  | getopts optind optstring name opt =>
      exact fills (.bind (.write _ (by simp) rfl) fun _ => .bind (setOptarg_fills (by simp) _ _) fun _ =>
        .write _ (by simp) rfl)
  | getoptsWithoutName optind => exact fills (.bind (.write _ (by simp) rfl) fun _ => .write _ (by simp) rfl)
  | cd oldPwd cwd => exact fills (.bind (.write _ (by simp) rfl) fun _ => .write _ (by simp) rfl)
  | cdOld oldpwd pwd => exact fills (.bind (.write _ (by simp) rfl) fun _ => .write _ (by simp) rfl)

theorem Unchecked.heeds {writer : Leaf World α} {names : List Str} (unchecked : Unchecked writer names) :
    HeedsReadonly (leaf writer) := by
  intro before given step member
  have unlocked : Unlocked names before := given writer names before unchecked (.whole _ before)
  unfold Exec.steps leaf at member
  rw [Prog.steps_inl] at member
  obtain ⟨own, inside, rfl⟩ := List.mem_map.mp member
  exact unchecked.spares unlocked own inside

/-! ## A run that spares the readonly variables -/

theorem Unlocked.cons {state : Shell World} {key : Str} {names : List Str} (var : Option Variable)
    (spared : isReadonly state key = false) (rest : Unlocked names (writeVar state key var)) :
    Unlocked (key :: names) state := by
  intro name member
  rcases List.mem_cons.mp member with rfl | member
  · exact spared
  · have unlocked := rest name member
    rw [isReadonly_writeVar] at unlocked
    split at unlocked
    · subst name
      exact spared
    · exact unlocked

theorem assignFields_unlocked {names : List Str} (fields : List Str) (state : Shell World)
    (spares : ∀ step ∈ Prog.steps handleLeaf (assignFields names fields) state, SparesReadonly (.inl step.1) step.2) :
    Unlocked names state := by
  induction names generalizing fields state with
  | nil => exact fun _ member => nomatch member
  | cons name names ih =>
      cases names with
      | nil => exact .cons none (spares _ List.mem_cons_self) fun _ member => nomatch member
      | cons next names =>
          exact .cons (some ⟨fields.headD [], .none⟩) (spares _ List.mem_cons_self)
            (ih fields.tail _ fun step member => spares step (.tail _ member))

theorem Unchecked.unlocked {writer : Leaf World α} {names : List Str} (unchecked : Unchecked writer names)
    {state : Shell World}
    (spares : ∀ step ∈ Prog.steps handleLeaf writer state, SparesReadonly (.inl step.1) step.2) :
    Unlocked names state := by
  have ends (state : Shell World) : Unlocked [] state := fun _ member => nomatch member
  cases unchecked with
  | forClause name field => exact .cons none (spares _ List.mem_cons_self) (ends _)
  | parameter name str => exact .cons none (spares _ List.mem_cons_self) (ends _)
  | arithmetic name result attribs => exact .cons none (spares _ List.mem_cons_self) (ends _)
  | read names fields => exact assignFields_unlocked fields state spares
  | getopts optind optstring name opt =>
      obtain ⟨var, -, writes⟩ := @setOptarg_writes World optstring opt
      simp only [getoptsWrites, writes] at spares
      refine .cons _ (spares _ List.mem_cons_self)
        (.cons (var state.getopt) (spares _ (.tail _ (.tail _ (.head _)))) ?_)
      exact .cons none (spares _ (.tail _ (.tail _ (.tail _ (.head _))))) (ends _)
  | getoptsWithoutName optind =>
      exact .cons _ (spares _ List.mem_cons_self) (.cons none (spares _ (.tail _ (.head _))) (ends _))
  | cd oldPwd cwd =>
      exact .cons _ (spares _ List.mem_cons_self) (.cons none (spares _ (.tail _ (.head _))) (ends _))
  | cdOld oldpwd pwd =>
      exact .cons _ (spares _ List.mem_cons_self) (.cons none (spares _ (.tail _ (.head _))) (ends _))

/-- The writers are given no readonly variable exactly if no step writes one without the test. -/
theorem HeedsReadonly.givenUnlocked_iff {prog : Exec World α} (heeds : HeedsReadonly prog) (before : Shell World) :
    GivenUnlocked prog before ↔ ∀ step ∈ prog.steps before, SparesReadonly step.1 step.2 := by
  refine ⟨heeds before, fun spares γ writer names state unchecked arrives => unchecked.unlocked fun step member => ?_⟩
  have own : (.inl step.1, step.2) ∈ (leaf writer : Exec World γ).steps state := by
    unfold Exec.steps leaf
    rw [Prog.steps_inl]
    exact List.mem_map_of_mem member
  exact spares _ (arrives.mem_steps own)

end

end Mrsh

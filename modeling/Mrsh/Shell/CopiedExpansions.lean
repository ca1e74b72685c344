import Mrsh.Shell.CopiedWords

namespace Mrsh

open Mrsh.Data

/-! # Expanding copies of words

Words that read the same are expanded alike. The shell that expands them cannot tell them apart, and
where it goes on as the child of a command substitution, the children run programs that differ at most
in what a copy loses.
-/

section

variable {World : Type} [System World]

/-! ## The child of a command substitution -/

/-- The program stops in the same way whatever it is to return. -/
def AlwaysStops (prog : (α : Type) → Exec World α) (state : Shell World) : Prop :=
  ∃ reason after, ∀ α, Exec.run (prog α) state = .stopped reason after

omit [System World] in
theorem AlwaysStops.bind {β : Type} {first : Exec World β} {next : (α : Type) → β → Exec World α} {state : Shell World}
    (stops : ∀ value after, AlwaysStops (fun α => next α value) after) :
    AlwaysStops (fun α => first >>= next α) state := by
  cases ended : Exec.run first state with
  | stopped reason after => exact ⟨reason, after, fun α => by rw [Exec.run_bind, ended, Outcome.andThen_stopped]⟩
  | done value between =>
      obtain ⟨reason, after, stopped⟩ := stops value between
      exact ⟨reason, after, fun α => by rw [Exec.run_bind_of_done ended, stopped]⟩

omit [System World] in
theorem AlwaysStops.ite {condition : Prop} [Decidable condition] {yes no : (α : Type) → Exec World α}
    {state : Shell World} (yesStops : AlwaysStops yes state) (noStops : AlwaysStops no state) :
    AlwaysStops (fun α => if condition then yes α else no α) state := by
  split
  · exact yesStops
  · exact noStops

theorem runWordCommandChild_stops (self : Tasks World) (program : Option Program) (fds : Int × Int)
    (state : Shell World) :
    AlwaysStops (fun _ => runWordCommandChild self program fds) state := by
  have exits : ∀ state : Shell World, AlwaysStops (fun α => do
      let exit ← leaf (gets (·.exit))
      leaf (exitProcess (if 0 ≤ exit then exit else 0) : Leaf World α)) state := fun state =>
    .bind fun exit after => ⟨_, _, fun _ => rfl⟩
  unfold runWordCommandChild
  refine .bind fun _ after => .ite (.bind fun _ after => .bind fun _ after => ?_) ?_ <;>
    refine .bind fun _ after => .ite (.bind fun _ after => ?_) ?_
  all_goals
    cases program with
    | none => exact exits _
    | some program => exact .bind fun _ after => exits after

/-- The end of the same run, or the ends of two children whose programs differ at most in what a copy loses and have
the same lines where they are looked at in place. -/
inductive StopsAlike : Ending × Shell World → Ending × Shell World → Prop
  | same (stopped : Ending × Shell World) : StopsAlike stopped stopped
  | child {self : Tasks World} {program other : Program} {fds : Int × Int} {state after otherAfter : Shell World}
      {reason otherReason : Ending} (same : SameProgram program other)
      (ended : Exec.run (runWordCommandChild self (some program) fds : Exec World Unit) state = .stopped reason after)
      (otherEnded : Exec.run (runWordCommandChild self (some other) fds : Exec World Unit) state =
        .stopped otherReason otherAfter) : StopsAlike (reason, after) (otherReason, otherAfter)

instance : Std.Refl (StopsAlike : Ending × Shell World → Ending × Shell World → Prop) := ⟨.same⟩

section

variable {α β : Type} {same : α → β → Prop}

abbrev LeafAlike (same : α → β → Prop) (first : Leaf World α) (second : Leaf World β) : Prop :=
  Prog.RunsAlike handleLeaf StopsAlike same first second

abbrev ExecAlike (same : α → β → Prop) (first : Exec World α) (second : Exec World β) : Prop :=
  Prog.RunsAlike (handleLeaf.sum handleControl) StopsAlike same first second

theorem abort_alike : ExecAlike same (leaf abort : Exec World α) (leaf abort : Exec World β) := .stop fun _ => .same _

theorem runWordCommandChild_alike {program other : Program} (self : Tasks World) (fds : Int × Int)
    (sameProgram : SameProgram program other) :
    ExecAlike same (runWordCommandChild self (some program) fds) (runWordCommandChild self (some other) fds) := by
  intro state
  obtain ⟨reason, after, stopped⟩ := runWordCommandChild_stops self (some program) fds state
  obtain ⟨otherReason, otherAfter, otherStopped⟩ := runWordCommandChild_stops self (some other) fds state
  have ended : Prog.run (handleLeaf.sum handleControl) (runWordCommandChild self (some program) fds) state =
    .stopped reason after := stopped α
  have otherEnded : Prog.run (handleLeaf.sum handleControl) (runWordCommandChild self (some other) fds) state =
    .stopped otherReason otherAfter := otherStopped β
  rw [ended, otherEnded]
  exact .stopped (.child sameProgram (stopped Unit) (otherStopped Unit))

end

/-! ## Parameters -/

theorem orCrash_alike {α β : Type} {same : α → β → Prop} {value : Option α} {other : Option β}
    (related : Option.Rel same value other) :
    LeafAlike same (orCrash value : Leaf World α) (orCrash other : Leaf World β) := by
  cases related with
  | none => exact .stop fun _ => .same _
  | some related => exact .pure related

theorem copyWord_alike {word other : Word} (same : SameTree nonNullWord plainWord word other) :
    LeafAlike SameReading (copyWord word : Leaf World Word) (copyWord other) := by
  refine .bindSame _ fun generation => ?_
  obtain ⟨copy, otherCopy, copied, otherCopied, sameCopy⟩ := same.copies generation
  rw [copied, otherCopied]
  exact .pure sameCopy

theorem copyWordOrNull_alike {arg other : Option Word} (same : Option.Rel (SameTree nonNullWord plainWord) arg other) :
    LeafAlike SameReading (copyWordOrNull arg : Leaf World Word) (copyWordOrNull other) := by
  cases same with
  | none => exact .pure (.string _ _ _ _ _)
  | some same => exact copyWord_alike same

omit [System World] in
theorem isUnset_same {value other : Option Word} (same : Option.Rel SameReading value other) (colon : Bool) :
    (isUnset colon value : Leaf World Bool) = isUnset colon other := by
  cases same with
  | none => rfl
  | some same => rw [isUnset, isUnset, isNullWord_same _ same]

theorem positionalWords_same (sep : Str) (quoteArgs : Bool) (args : List Str) :
    List.Forall₂ SameReading (positionalWords sep quoteArgs args) (positionalWords sep quoteArgs args) := by
  induction args with
  | nil => exact .nil
  | cons arg args ih =>
      cases args with
      | nil => exact .cons (.string _ _ _ _ _) .nil
      | cons next args =>
          refine .cons (.string _ _ _ _ _) (List.rel_append ?_ ih)
          split
          · exact .nil
          · exact .cons (.string _ _ _ _ _) .nil

theorem parameterWord_alike (name : Str) (value : Option Str) (doubleQuoted : Bool) :
    LeafAlike (Option.Rel SameReading) (parameterWord name value doubleQuoted : Leaf World (Option Word))
      (parameterWord name value doubleQuoted) := by
  have positional (quoteArgs : Bool) : LeafAlike SameReading (expandPositionalParams quoteArgs : Leaf World Word)
      (expandPositionalParams quoteArgs) :=
    .bindSame _ fun ifs => .bindSame _ fun argc => .bindSame _ fun args =>
      .pure (.list (positionalWords_same _ _ _) _ _ _ _ _)
  refine .ite (.map (positional doubleQuoted) fun _ _ => .some) (.ite (.map (positional false) fun _ _ => .some) ?_)
  cases value with
  | none => exact .pure .none
  | some value => exact .pure (.some (.string _ _ _ _ _))

/-- The status is the same, and the words read the same. -/
def SameWordResult (result other : Int × Word) : Prop := result.1 = other.1 ∧ SameReading result.2 other.2

/-- The same failure, or words that read the same. -/
inductive SameValue : Except Int (Option Word) → Except Int (Option Word) → Prop
  | error (ret : Int) : SameValue (.error ret) (.error ret)
  | ok {value other : Option Word} (same : Option.Rel SameReading value other) : SameValue (.ok value) (.ok other)

section

variable {self : Tasks World} {ctx : Context} {wp other : WordParameter}
  (runs : ∀ word other, SameReading word other →
    ExecAlike SameWordResult (self.runWord ctx word) (self.runWord ctx other))

include runs

theorem unsetMessage_alike {arg otherArg : Option Word}
    (same : Option.Rel (SameTree nonNullWord plainWord) arg otherArg) :
    ExecAlike Eq (unsetMessage self ctx arg) (unsetMessage self ctx otherArg) := by
  cases same with
  | none => exact .pure rfl
  | some same =>
      refine .bind (.inl (copyWord_alike same)) fun word otherWord sameWord => .bind (runs word otherWord sameWord) ?_
      rintro ⟨ret, word⟩ ⟨_, otherWord⟩ ⟨rfl, sameWord⟩
      refine .ite (.pure rfl) ?_
      rw [mrshWordStr_same word sameWord]
      exact .bindSame _ fun msg => .pure rfl

theorem applyParameterCondOp_alike (same : SameParameter wp other) {value otherValue : Option Word}
    (sameValue : Option.Rel SameReading value otherValue) :
    ExecAlike SameValue (applyParameterCondOp self ctx wp value) (applyParameterCondOp self ctx other otherValue) := by
  have sameOp := same.op
  rw [applyParameterCondOp, applyParameterCondOp, ← sameOp, ← same.colon, isUnset_same sameValue]
  cases wp.op with
  | none => exact .pure (.ok sameValue)
  | minus =>
      exact .bindSame _ fun unset => .ite
        (.bind (.inl (copyWordOrNull_alike same.arg)) fun _ _ sameWord => .pure (.ok (.some sameWord)))
        (.pure (.ok sameValue))
  | equal =>
      refine .bindSame _ fun unset => .ite ?_ (.pure (.ok sameValue))
      refine .bind (.inl (copyWordOrNull_alike same.arg)) fun word otherWord sameWord =>
        .bind (runs word otherWord sameWord) ?_
      rintro ⟨ret, word⟩ ⟨_, otherWord⟩ ⟨rfl, sameWord⟩
      refine .ite (.pure (.error ret)) ?_
      rw [mrshWordStr_same word sameWord, same.name]
      exact .bindSame _ fun str => .bindSame _ fun _ => .pure (.ok (.some sameWord))
  | qmark =>
      refine .bindSame _ fun unset => .ite (.bind (unsetMessage_alike runs same.arg) ?_) (.pure (.ok sameValue))
      rintro result _ rfl
      cases result with
      | error ret => exact .pure (.error ret)
      | ok msg =>
          rw [same.name]
          exact .bindSame _ fun _ => .pure (.error _)
  | plus =>
      exact .bindSame _ fun unset => .ite (.pure (.ok (.some (.string _ _ _ _ _))))
        (.bind (.inl (copyWordOrNull_alike same.arg)) fun _ _ sameWord => .pure (.ok (.some sameWord)))
  | _ => exact abort_alike

theorem applyParameterStrOp_alike (same : SameParameter wp other) (str : Option Str) :
    ExecAlike SameValue (applyParameterStrOp self ctx wp str) (applyParameterStrOp self ctx other str) := by
  have args := same.arg
  have text (str : Str) : SameValue (.ok (some (createWordString str))) (.ok (some (createWordString str))) :=
    .ok (.some (.string _ _ _ _ _))
  unfold applyParameterStrOp
  rw [← same.op]
  refine .ite (.bindSame _ fun nounset => .ite (.pure (.ok .none)) (.pure (text _))) ?_
  cases str with
  | none => exact .pure (.ok .none)
  | some str =>
      revert args
      generalize wp.arg = arg
      generalize other.arg = otherArg
      intro args
      cases args with
      | none => exact .pure (text str)
      | some same =>
          refine .bind (.inl (copyWord_alike same)) fun word otherWord sameWord =>
            .bind (runs word otherWord sameWord) ?_
          rintro ⟨ret, word⟩ ⟨_, otherWord⟩ ⟨rfl, sameWord⟩
          refine .ite (.pure (.error ret)) ?_
          rw [wordToPattern_same sameWord, mrshWordStr_same word sameWord]
          refine .bindSame _ fun pattern => ?_
          cases pattern with
          | none => exact .bindSame _ fun cut => .pure (text _)
          | some pattern => exact .pure (text _)

theorem applyParameterOp_alike (same : SameParameter wp other) (value : Option Str) (doubleQuoted : Bool) :
    ExecAlike SameValue (applyParameterOp self ctx wp value doubleQuoted)
      (applyParameterOp self ctx other value doubleQuoted) := by
  rw [applyParameterOp, applyParameterOp, ← same.op, ← same.name]
  refine .ite (.bind (.inl (parameterWord_alike _ _ _)) fun _ _ => applyParameterCondOp_alike runs same) (.ite ?_ ?_)
  · exact .bindSame _ fun argv0 => .bindSame _ fun _ => .pure (.error _)
  · exact applyParameterStrOp_alike runs same value

omit runs in
theorem parameterResult_alike {result otherResult : Option Word} (name : Str)
    (same : Option.Rel SameReading result otherResult) :
    LeafAlike (Option.Rel SameReading) (parameterResult name result : Leaf World _) (parameterResult name otherResult)
      := by
  cases same with
  | some same => exact .pure (.some (markWordSplitFields_same _ same))
  | none =>
      exact .bindSame _ fun nounset => .ite (.bindSame _ fun _ => .pure .none) (.pure (.some (.string _ _ _ _ _)))

theorem runWordParameter_alike (same : SameParameter wp other) (doubleQuoted : Bool) :
    ExecAlike SameWordResult (runWordParameter self ctx doubleQuoted wp) (runWordParameter self ctx doubleQuoted other)
      := by
  have fails (ret : Int) : SameWordResult (ret, .parameter wp) (ret, .parameter other) := ⟨rfl, .parameter same⟩
  rw [runWordParameter, runWordParameter, ← same.name]
  refine .bindSame _ fun value => ?_
  have line : (if (value.isNone && wp.name == "LINENO".toList) = true then some (decimal wp.dollarPos.line)
    else value) =
      if (value.isNone && wp.name == "LINENO".toList) = true then some (decimal other.dollarPos.line) else value := by
    by_cases isLineno : wp.name = "LINENO".toList
    · rw [same.line isLineno]
    · have notLineno : (wp.name == "LINENO".toList) = false := beq_eq_false_iff_ne.mpr isLineno
      rw [notLineno, Bool.and_false]
      rfl
  dsimp only
  rw [line]
  refine .bind (applyParameterOp_alike runs same _ doubleQuoted) fun result otherResult sameValue => ?_
  cases sameValue with
  | error ret => exact .pure (fails ret)
  | ok sameValue =>
      refine .bind (.inl (parameterResult_alike wp.name sameValue)) fun word otherWord sameWord => ?_
      cases sameWord with
      | none => exact .pure (fails taskStatusError)
      | some sameWord =>
          have reruns {word otherWord : Word} (sameWord : SameReading word otherWord) : ExecAlike SameWordResult
              (self.runWord ctx word >>= fun run => if run.1 < 0 then pure (run.1, .parameter wp) else pure (0, run.2))
              (self.runWord ctx otherWord >>= fun run =>
                if run.1 < 0 then pure (run.1, .parameter other) else pure (0, run.2)) := by
            refine .bind (runs word otherWord sameWord) ?_
            rintro ⟨ret, word⟩ ⟨_, otherWord⟩ ⟨rfl, sameWord⟩
            exact .ite (.pure (fails ret)) (.pure ⟨rfl, sameWord⟩)
          cases sameWord with
          | string => exact .pure ⟨rfl, .string _ _ _ _ _⟩
          | parameter same => exact reruns (.parameter same)
          | command same => exact reruns (.command same _ _ _)
          | arithmetic same => exact reruns (.arithmetic same)
          | list same => exact reruns (.list same _ _ _ _ _)

omit runs in
theorem runWordCommand_alike {program otherProgram : Program} (same : SameProgram program otherProgram)
    {word otherWord : Word} (sameWord : SameReading word otherWord) :
    ExecAlike SameWordResult (runWordCommand self word (some program))
      (runWordCommand self otherWord (some otherProgram)) := by
  have fails : SameWordResult (taskStatusError, word) (taskStatusError, otherWord) := ⟨rfl, sameWord⟩
  refine .bindSame _ fun piped => ?_
  cases piped with
  | error errno => exact .bindSame _ fun _ => .pure fails
  | ok fds =>
      refine .bindSame _ fun forked => ?_
      cases forked with
      | error errno => exact .bindSame _ fun _ => .bindSame _ fun _ => .pure fails
      | ok pid =>
          refine .ite (runWordCommandChild_alike self fds same) ?_
          refine .bindSame _ fun process => .bindSame _ fun _ => .bindSame _ fun buf => ?_
          cases buf with
          | none => exact .bindSame _ fun _ => .pure fails
          | some buf => exact .bindSame _ fun _ => .bindSame _ fun status => .pure ⟨rfl, .string _ _ _ _ _⟩

omit runs in
theorem runArithmetic_alike (fuel : Nat) {body otherBody : Word} (same : SameReading body otherBody) :
    LeafAlike SameWordResult (runArithmetic fuel body : Leaf World _) (runArithmetic fuel otherBody) := by
  have fails : SameWordResult (taskStatusError, .arithmetic body) (taskStatusError, .arithmetic otherBody) :=
    ⟨rfl, .arithmetic same⟩
  rw [runArithmetic, runArithmetic, mrshWordStr_same body same]
  refine .bindSame _ fun bodyStr => .bindSame _ fun (expr, parser) => ?_
  cases expr with
  | none =>
      dsimp only
      cases parser.error with
      | none => exact .bindSame _ fun _ => .pure fails
      | some error => exact .bindSame _ fun argv0 => .bindSame _ fun _ => .pure fails
  | some expr =>
      refine .bindSame _ fun location => .bindSame _ fun result => ?_
      cases result with
      | none => exact .pure fails
      | some result => exact .pure ⟨rfl, .string _ _ _ _ _⟩

end

/-! ## Words -/

/-- Words that read the same, of which both or none come from `$@`. -/
def SameFlagged (flagged other : Word × Bool) : Prop := SameReading flagged.1 other.1 ∧ flagged.2 = other.2

theorem closeQuoted_same {quoted other : List Word} (same : List.Forall₂ SameReading quoted other) :
    List.Forall₂ SameReading (unquoteAtSigns.closeQuoted quoted) (unquoteAtSigns.closeQuoted other) := by
  cases same with
  | nil => exact .nil
  | cons first rest => exact .cons (.list (.cons first rest) _ _ _ _ _) .nil

theorem unquoteAtSigns_same {children others : List (Word × Bool)} (same : List.Forall₂ SameFlagged children others) :
    ∀ {quoted otherQuoted : List Word}, List.Forall₂ SameReading quoted otherQuoted →
      List.Forall₂ SameReading (unquoteAtSigns quoted children) (unquoteAtSigns otherQuoted others) := by
  induction same with
  | nil => exact fun sameQuoted => closeQuoted_same sameQuoted
  | @cons child other children others sameChild _ ih =>
      obtain ⟨child, flag⟩ := child
      obtain ⟨other, _⟩ := other
      obtain ⟨sameChild, rfl⟩ := sameChild
      intro quoted otherQuoted sameQuoted
      cases flag with
      | true => exact List.rel_append (closeQuoted_same sameQuoted) (.cons sameChild (ih .nil))
      | false => exact ih (List.rel_append sameQuoted (.cons sameChild .nil))

theorem flags_same {children others : List (Word × Bool)} (same : List.Forall₂ SameFlagged children others) :
    children.any Prod.snd = others.any Prod.snd := by
  induction same with
  | nil => rfl
  | cons sameChild _ ih => rw [List.any_cons, List.any_cons, sameChild.2, ih]

theorem flaggedWords_same {children others : List (Word × Bool)} (same : List.Forall₂ SameFlagged children others) :
    List.Forall₂ SameReading (children.map Prod.fst) (others.map Prod.fst) :=
  List.rel_map (R := SameFlagged) (fun _ _ same => same.1) same

theorem finishList_same {children others : List (Word × Bool)} (same : List.Forall₂ SameFlagged children others)
    (doubleQuoted : Bool) (lquotePos rquotePos otherLquotePos otherRquotePos : Position) :
    SameReading (finishList children doubleQuoted lquotePos rquotePos)
      (finishList others doubleQuoted otherLquotePos otherRquotePos) := by
  rw [finishList, finishList, flags_same same]
  split
  · exact .list (unquoteAtSigns_same same .nil) _ _ _ _ _
  · exact .list (flaggedWords_same same) _ _ _ _ _

section

variable {self : Tasks World} {ctx : Context}

mutual

theorem runWordIn_alike
    (runs : ∀ word other, SameReading word other →
      ExecAlike SameWordResult (self.runWord ctx word) (self.runWord ctx other)) (doubleQuoted : Bool) :
    ∀ (word : Word) {other : Word}, SameReading word other →
      ExecAlike SameWordResult (runWordIn self ctx doubleQuoted word) (runWordIn self ctx doubleQuoted other)
  | .string _ _ _ _, _, same => by
      cases same
      exact .pure ⟨rfl, .string _ _ _ _ _⟩
  | .parameter _, _, same => by
      cases same with
      | parameter same => exact runWordParameter_alike runs same doubleQuoted
  | .command _ _ _, _, same => by
      cases same with
      | command same => exact runWordCommand_alike same (.command same _ _ _)
  | .arithmetic body, _, same => by
      cases same with
      | arithmetic same =>
          refine .bind (runWordIn_alike runs false body same) ?_
          rintro ⟨ret, body⟩ ⟨_, otherBody⟩ ⟨rfl, sameBody⟩
          exact .ite (.pure ⟨rfl, .arithmetic sameBody⟩) (.inl (runArithmetic_alike self.fuel sameBody))
  | .list children listQuoted _ _, _, same => by
      cases same with
      | list same =>
          refine .bind (runWords_alike runs (doubleQuoted || listQuoted) listQuoted children same) ?_
          rintro ⟨ret, children⟩ ⟨_, others⟩ ⟨rfl, same⟩
          exact .ite (.pure ⟨rfl, .list (flaggedWords_same same) _ _ _ _ _⟩)
            (.pure ⟨rfl, finishList_same same _ _ _ _ _⟩)
  | .null, _, same => nomatch same

theorem runWords_alike
    (runs : ∀ word other, SameReading word other →
      ExecAlike SameWordResult (self.runWord ctx word) (self.runWord ctx other))
    (doubleQuoted listQuoted : Bool) : ∀ (words : List Word) {others : List Word},
    List.Forall₂ SameReading words others →
    ExecAlike (fun result other => result.1 = other.1 ∧ List.Forall₂ SameFlagged result.2 other.2)
      (runWords self ctx doubleQuoted listQuoted words) (runWords self ctx doubleQuoted listQuoted others)
  | [], _, same => by
      cases same
      exact .pure ⟨rfl, .nil⟩
  | word :: words, _, same => by
      cases same with
      | @cons _ other _ others sameWord rest =>
          refine .bind (runWordIn_alike runs doubleQuoted word sameWord) ?_
          rintro ⟨ret, result⟩ ⟨_, otherResult⟩ ⟨rfl, sameResult⟩
          have flagged :
              SameFlagged (result, listQuoted && isAtSign word) (otherResult, listQuoted && isAtSign other) :=
            ⟨sameResult, by rw [isAtSign_same sameWord]⟩
          refine .ite (.pure ⟨rfl, .cons flagged (List.rel_map (fun _ _ same => ⟨same, rfl⟩) rest)⟩) ?_
          refine .bind (runWords_alike runs doubleQuoted listQuoted words rest) ?_
          rintro ⟨ret, results⟩ ⟨_, otherResults⟩ ⟨rfl, sameResults⟩
          exact .pure ⟨rfl, .cons flagged sameResults⟩

end

end

theorem runWord_alike (fuel : Nat) (ctx : Context) (word other : Word) (same : SameReading word other) :
    ExecAlike SameWordResult ((tasks fuel : Tasks World).runWord ctx word)
      ((tasks fuel : Tasks World).runWord ctx other) := by
  induction fuel generalizing word other with
  | zero => exact .stop fun _ => .same _
  | succ fuel ih => exact runWordIn_alike ih false word same

/-! ## Fields -/

/-- What `expand_word` does with the copy. -/
def expandCopied (self : Tasks World) (ctx : Context) (word : Word) : Exec World (Int × List Str) := do
  let word ← leaf (expandTildeWord word false)
  let (ret, word) ← runWord self ctx word
  if ret < 0 then pure (ret, [])
  else do
    let ifs ← leaf (envValue "IFS".toList)
    let fields ← leaf (orCrash (splitFields word ifs))
    if ← leaf (optionSet .noglob) then
      let strs ← leaf (orCrash (getFieldsStr fields))
      pure (ret, strs)
    else
      match ← leaf (expandPathnames fields) with
      | none => pure (taskStatusError, [])
      | some strs => pure (ret, strs)

theorem expandTildeWord_alike {word other : Word} (same : SameReading word other) (assignment : Bool) :
    LeafAlike SameReading (expandTildeWord word assignment : Leaf World Word) (expandTildeWord other assignment) :=
  .bindSame _ fun home => by
    intro state
    exact .done (expandTildeIn_sameReading home (System.getpwnam · state.world) assignment true true word same) state

theorem expandPathnames_same {fields others : List Word} (same : List.Forall₂ SameReading fields others) :
    (expandPathnames fields : Leaf World _) = expandPathnames others := by
  induction same with
  | nil => rfl
  | @cons field other fields others sameField _ ih =>
      rw [expandPathnames, expandPathnames, expandPathname, expandPathname, wordToPattern_same sameField,
        mrshWordStr_same field sameField, ih]

theorem expandCopied_alike (fuel : Nat) (ctx : Context) {word other : Word} (same : SameReading word other) :
    ExecAlike Eq (expandCopied (tasks fuel : Tasks World) ctx word) (expandCopied (tasks fuel) ctx other) := by
  refine .bind (.inl (expandTildeWord_alike same false)) fun word other same => ?_
  refine .bind (runWordIn_alike (runWord_alike fuel ctx) false word same) ?_
  rintro ⟨ret, word⟩ ⟨_, other⟩ ⟨rfl, same⟩
  refine .ite (.pure rfl) (.bindSame _ fun ifs => ?_)
  refine .bind (.inl (orCrash_alike (splitFields_same same ifs))) fun fields others same => ?_
  rw [getFieldsStr_same same, expandPathnames_same same]
  exact .refl _

/-! ## Words and their copies -/

/-- A word has a copy that reads the same, and that is run and expanded alike in every state, exactly if it holds no
NULL, no string that is marked to be split and, where it is looked at in place, no `$LINENO` with a line. -/
theorem mrshWordCopy_faithful_iff (World : Type) [System World] (generation : Nat) (word : Word) :
    (∃ copy, mrshWordCopy generation word = some copy ∧ SameReading word copy ∧
      ∀ (fuel : Nat) (ctx : Context),
        ExecAlike SameWordResult (runWord (tasks fuel : Tasks World) ctx word) (runWord (tasks fuel) ctx copy) ∧
        ExecAlike Eq (expandCopied (tasks fuel : Tasks World) ctx word) (expandCopied (tasks fuel) ctx copy)) ↔
      nonNullWord word = true ∧ losesNothing word = true := by
  constructor
  · rintro ⟨copy, copied, same, _⟩
    exact ⟨(mrshWordCopy_sameTree generation copied).nonNull,
      (mrshWordCopy_sameReading_iff generation word copied).mp same⟩
  · rintro ⟨nonNull, nothing⟩
    obtain ⟨copy, copied⟩ := mrshWordCopy_nonNull generation nonNull
    have same := (mrshWordCopy_sameReading_iff generation word copied).mpr nothing
    exact ⟨copy, copied, same, fun fuel ctx =>
      ⟨runWordIn_alike (runWord_alike fuel ctx) false word same, expandCopied_alike fuel ctx same⟩⟩

/-- `$LINENO` on line 5. -/
def linenoOfLineFive : Word :=
  .parameter ⟨"LINENO".toList, .none, false, none, ⟨20, 5, 1⟩, .invalid, .invalid, .invalid, .invalid⟩

/-- The copy of `$LINENO` stands on line 0. -/
theorem linenoOfLineFive_copy_differs : ∃ copy, mrshWordCopy 0 linenoOfLineFive = some copy ∧
    ∃ after, Exec.run (expandCopied (tasks 1) .initial linenoOfLineFive) (mrshStateCreate [] Machine.isolated) =
        .done (0, [['5']]) after ∧
      Exec.run (expandCopied (tasks 1) .initial copy) (mrshStateCreate [] Machine.isolated) = .done (0, [['0']])
        after :=
  ⟨_, rfl, _, rfl, rfl⟩

end

end Mrsh

import Mrsh.Data.Chain
import Mrsh.Parser.PlainWord
import Mrsh.Shell.Task.Task

namespace Mrsh

open Mrsh.Data

/-! # Running the AND-OR list of a text

`and_or` nests a list to the right, `run_and_or_list` gives up a nested list at
the first operator that skips its right operand. The operators of the shell have
equal precedence and are read from the left. Both agree unless an operator of
the other kind follows the one that skips.
-/

/-- Whether the pipeline after the operator runs, given the status so far. -/
def runsNext : BinopType → Nat → Bool
  | .and, status => status == 0
  | .or, status => status != 0

section

variable {σ : Type}

/-- The pipelines that run when the list is read from the left. -/
def leftToRight (behave : Pipeline → σ → Nat × σ) (pl : Pipeline) (links : List (BinopType × Pipeline))
    (state : σ) : Progress Pipeline Nat σ :=
  Progress.followLeft runsNext behave (Progress.take behave ⟨[], 0, state⟩ pl) links

/-- Runs a pipeline and notes that it has run. -/
def observe (behave : Pipeline → σ → Nat × σ) (pl : Pipeline) : StateM (List Pipeline × σ) Int :=
  fun (ran, state) => ((behave pl state).1, ran ++ [pl], (behave pl state).2)

/-- `run_and_or_list` returns the status of the given progress and leaves its state,
after it has run exactly its pipelines. -/
def RunsAs (behave : Pipeline → σ → Nat × σ) (tree : AndOrList) (state : σ)
    (progress : Progress Pipeline Nat σ) : Prop :=
  runAndOrList (observe behave) (pure ()) tree ([], state) =
    ((progress.status : Int), progress.ran, progress.state)

/-- No operator of the other kind follows the first operator that skips its pipeline. -/
def OneKindAfterSkip (behave : Pipeline → σ → Nat × σ) :
    Progress Pipeline Nat σ → List (BinopType × Pipeline) → Prop
  | _, [] => True
  | progress, (type, pl) :: links =>
      if runsNext type progress.status then OneKindAfterSkip behave (progress.take behave pl) links
      else ∀ link ∈ links, link.1 = type

variable {behave : Pipeline → σ → Nat × σ}

theorem runsNext_eq_false_iff {type : BinopType} {status : Nat} (skips : runsNext type status = false)
    (other : BinopType) : runsNext other status = false ↔ other = type := by
  cases type <;> cases other <;> simp_all [runsNext]

theorem oneKindAfterSkip_iff (progress : Progress Pipeline Nat σ) (links : List (BinopType × Pipeline)) :
    OneKindAfterSkip behave progress links ↔ Progress.SkipsForGood runsNext behave progress links := by
  induction links generalizing progress with
  | nil => exact Iff.rfl
  | cons link links ih =>
      obtain ⟨type, pl⟩ := link
      unfold OneKindAfterSkip Progress.SkipsForGood
      cases runs : runsNext type progress.status with
      | true => exact ih _
      | false => exact forall₂_congr fun link _ => (runsNext_eq_false_iff runs link.1).symm

theorem runAndOrList_binop (type : BinopType) (pl : Pipeline) (right : AndOrList) (range : Range)
    (ran : List Pipeline) (state : σ) :
    runAndOrList (observe behave) (pure ()) (.binop type (.pipeline pl) right range) (ran, state) =
      if runsNext type (behave pl state).1 then
        runAndOrList (observe behave) (pure ()) right (ran ++ [pl], (behave pl state).2)
      else (((behave pl state).1 : Int), ran ++ [pl], (behave pl state).2) := by
  have bound : ∀ next : Int → StateM (List Pipeline × σ) Int,
      (observe behave pl >>= next) (ran, state) =
        next (behave pl state).1 (ran ++ [pl], (behave pl state).2) := fun _ => rfl
  cases type with
  | and =>
      change (observe behave pl >>= _) (ran, state) = _
      rw [bound]
      cases (behave pl state).1 <;> rfl
  | or =>
      change (observe behave pl >>= _) (ran, state) = _
      rw [bound]
      cases (behave pl state).1 with
      | zero => rfl
      | succ failure => rfl

/-- The tree of the parser is run like a chain that is nested to the right. -/
theorem runAndOrList_rightNested (pl : Pipeline) (links : List (BinopType × Range × Pipeline))
    (start : Progress Pipeline Nat σ) :
    runAndOrList (observe behave) (pure ()) (rightNested pl links) (start.ran, start.state) =
      let progress := Progress.followRight runsNext behave (start.take behave pl)
        (links.map fun link => (link.1, link.2.2))
      ((progress.status : Int), progress.ran, progress.state) := by
  induction links generalizing pl start with
  | nil => rfl
  | cons link links ih =>
      obtain ⟨type, range, next⟩ := link
      rw [rightNested, runAndOrList_binop, List.map_cons, Progress.followRight]
      cases runs : runsNext type (behave pl start.state).1 with
      | true =>
          rw [if_pos (show runsNext type (start.take behave pl).status = true from runs)]
          exact ih next (start.take behave pl)
      | false =>
          have skips : ¬ runsNext type (start.take behave pl).status = true := by
            simp [Progress.take, runs]
          rw [if_neg skips]
          rfl

/-- A list is run from left to right exactly when no operator of the other kind follows
the first one that skips. -/
theorem rightNested_runsAs_leftToRight_iff (pl : Pipeline) (links : List (BinopType × Range × Pipeline))
    (state : σ) :
    RunsAs behave (rightNested pl links) state
        (leftToRight behave pl (links.map fun link => (link.1, link.2.2)) state) ↔
      OneKindAfterSkip behave (Progress.take behave ⟨[], 0, state⟩ pl)
        (links.map fun link => (link.1, link.2.2)) := by
  rw [oneKindAfterSkip_iff, ← Progress.followRight_eq_followLeft_iff, RunsAs, leftToRight]
  have run : runAndOrList (observe behave) (pure ()) (rightNested pl links) ([], state) = _ :=
    runAndOrList_rightNested pl links ⟨[], 0, state⟩
  rw [run]
  constructor
  · intro same
    injection same with status rest
    injection rest with ran final
    exact Progress.ext ran (Int.ofNat.inj status) final
  · intro same
    rw [same]

/-! ## From the text to the run -/

/-- Parsing the text of an AND-OR list, in whatever state of the parser and before whatever
text that ends it, and running the result runs the pipelines from left to right exactly
when no operator of the other kind follows the first one that skips its pipeline. -/
theorem andOr_runs_leftToRight_iff {first : Str} {links : List (BinopType × Str × Str)}
    (firstText : PipelineText first)
    (linksText : ∀ link ∈ links, LinebreakText link.2.1 ∧ PipelineText link.2.2) :
    ∃ enough, ∀ fuel, enough ≤ fuel → ∀ tail parser, Ready (andOrText first links ++ tail) parser →
      FollowsAndOr tail →
      ∃ tree pl read after, andOr (productions fuel) parser = .done (some tree) after ∧ Ready tail after ∧
        ReadsPipeline first pl ∧
        List.Forall₂ (fun link read => link.1 = read.1 ∧ ReadsPipeline link.2.2 read.2) links read ∧
        ∀ (σ : Type) (behave : Pipeline → σ → Nat × σ) (state : σ),
          RunsAs behave tree state (leftToRight behave pl read state) ↔
            OneKindAfterSkip behave (Progress.take behave ⟨[], 0, state⟩ pl) read := by
  obtain ⟨enough, reads⟩ := andOr_reads firstText linksText
  refine ⟨enough, fun fuel large tail parser ready follows => ?_⟩
  obtain ⟨pl, read, after, parsed, readyAfter, firstRead, linksRead⟩ := reads fuel large tail parser ready follows
  refine ⟨rightNested pl read, pl, read.map fun link => (link.1, link.2.2), after, parsed, readyAfter,
    firstRead, List.forall₂_map_right_iff.mpr linksRead, fun σ behave state => ?_⟩
  exact rightNested_runsAs_leftToRight_iff pl read state

theorem plainWord_true : PlainWord "true".toList := by
  refine ⟨by decide, List.all_eq_true.mp (by decide), by decide, by decide⟩

theorem plainWord_false : PlainWord "false".toList := by
  refine ⟨by decide, List.all_eq_true.mp (by decide), by decide, by decide⟩

theorem plainWord_echo : PlainWord "echo".toList := by
  refine ⟨by decide, List.all_eq_true.mp (by decide), by decide, by decide⟩

/-- `true && false && echo` has operators of one kind only. -/
theorem andOr_runs_leftToRight_ands :
    ∃ enough, ∀ fuel, enough ≤ fuel →
      ∃ tree pl read after,
        andOr (productions fuel) (mrshParserWithData "true && false &&\necho".toList) = .done (some tree) after ∧
        ∀ (σ : Type) (behave : Pipeline → σ → Nat × σ) (state : σ),
          RunsAs behave tree state (leftToRight behave pl read state) := by
  have blank : ∀ c ∈ [' '], isBlank c = true := by simp [isBlank]
  have noBlank : ∀ c ∈ ([] : Str), isBlank c = true := by simp
  obtain ⟨enough, reads⟩ := @andOr_runs_leftToRight_iff _
    [(.and, [' '], "false".toList ++ [' ']), (.and, [] ++ '\n' :: [], "echo".toList ++ [])]
    (plainWord_true.pipelineText blank) (by
      simp only [List.forall_mem_cons, List.not_mem_nil, false_imp_iff, implies_true, and_true]
      exact ⟨⟨linebreakText_blanks blank, plainWord_false.pipelineText blank⟩,
        linebreakText_newline noBlank (linebreakText_blanks noBlank), plainWord_echo.pipelineText noBlank⟩)
  refine ⟨enough, fun fuel large => ?_⟩
  obtain ⟨tree, pl, read, after, parsed, _, _, linksRead, runs⟩ :=
    reads fuel large [] _ (ready_mrshParserWithData _) ⟨.eofToken, rfl, by decide⟩
  obtain _ | ⟨⟨first, _⟩, _ | ⟨⟨second, _⟩, _ | _⟩⟩ := linksRead
  refine ⟨tree, pl, _, after, parsed, fun σ behave state => (runs σ behave state).mpr ?_⟩
  simp only [OneKindAfterSkip, List.forall_mem_cons, ← first, ← second]
  split <;> simp

/-- `true || false && echo` does not run `echo`, which every reading from the left does. -/
theorem andOr_skips_echo :
    ∃ enough, ∀ fuel, enough ≤ fuel →
      ∃ tree pl falsePl echoPl after,
        andOr (productions fuel) (mrshParserWithData "true||false&&echo".toList) = .done (some tree) after ∧
        ReadsPipeline "true".toList pl ∧ ReadsPipeline "false".toList falsePl ∧
        ReadsPipeline "echo".toList echoPl ∧
        ¬ RunsAs (fun _ state => (0, state)) tree ()
          (leftToRight (fun _ state => (0, state)) pl [(.or, falsePl), (.and, echoPl)] ()) := by
  have noBlank : ∀ c ∈ ([] : Str), isBlank c = true := by simp
  have gap := linebreakText_blanks noBlank
  have text : ∀ {w}, PlainWord w → PipelineText w := fun plain => by
    have whole := plain.pipelineText noBlank
    rwa [List.append_nil] at whole
  obtain ⟨enough, reads⟩ := @andOr_reads _ [(.or, [], "false".toList), (.and, [], "echo".toList)]
    (text plainWord_true) (by
      simp only [List.forall_mem_cons, List.not_mem_nil, false_imp_iff, implies_true, and_true]
      exact ⟨⟨gap, text plainWord_false⟩, gap, text plainWord_echo⟩)
  refine ⟨enough, fun fuel large => ?_⟩
  obtain ⟨pl, read, after, parsed, _, firstRead, linksRead⟩ :=
    reads fuel large [] _ (ready_mrshParserWithData _) ⟨.eofToken, rfl, by decide⟩
  obtain _ | ⟨⟨first, falseRead⟩, _ | ⟨⟨second, echoRead⟩, _ | _⟩⟩ := linksRead
  rename_i afterOr afterAnd
  obtain ⟨orType, orRange, falsePl⟩ := afterOr
  obtain ⟨andType, andRange, echoPl⟩ := afterAnd
  obtain rfl : .or = orType := first
  obtain rfl : .and = andType := second
  refine ⟨_, pl, falsePl, echoPl, after, parsed, firstRead, falseRead, echoRead, fun runs => ?_⟩
  have oneKind := (rightNested_runsAs_leftToRight_iff pl _ ()).mp runs
  simp [OneKindAfterSkip, Progress.take, runsNext] at oneKind

end

end Mrsh

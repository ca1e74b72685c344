import Mathlib.Data.List.Basic
import Mathlib.Logic.Relation

namespace Mrsh.Data

/-! # Replacing the leading word of a text

A table gives some words a text that replaces them where they lead a text. A word is not
replaced again right after itself. With finitely many words in the table, this goes on
forever for some text exactly when a word of the table leads back to itself.
-/

variable {α ν : Type}

/-- How the leading word of a text is found. What follows a word is delimited, so that
text put in its place is not joined with it. -/
structure LeadingWord (α ν : Type) where
  leading : List α → Option (ν × List α)
  delimited : List α → Prop
  blank : List α → Prop
  /-- The size of the text after its blanks. -/
  size : List α → Nat
  delimited_nil : delimited []
  delimited_append : ∀ {first second}, delimited first → delimited second → delimited (first ++ second)
  delimited_rest : ∀ {text name rest}, leading text = some (name, rest) → delimited rest
  leading_append : ∀ {text name rest after}, leading text = some (name, rest) → delimited after →
    leading (text ++ after) = some (name, rest ++ after)
  leading_none : ∀ {text after}, leading text = none → delimited after → blank text ∨ leading (text ++ after) = none
  leading_blank : ∀ {text}, blank text → leading text = none
  size_rest : ∀ {text name rest}, leading text = some (name, rest) → size rest < size text
  size_blank : ∀ {text after}, blank text → size (text ++ after) = size after

namespace LeadingWord

variable (lexer : LeadingWord α ν) (table : ν → Option (List α))

/-- A text with the word that was replaced last. -/
abbrev Situation (α ν : Type) := Option ν × List α

/-- One replacement. -/
inductive Replaces : Situation α ν → Situation α ν → Prop where
  | replace {last : Option ν} {text rest value : List α} {name : ν} (leads : lexer.leading text = some (name, rest))
      (found : table name = some value) (fresh : last ≠ some name) : Replaces (last, text) (some name, value ++ rest)

def Leads : Situation α ν → Situation α ν → Prop := Relation.ReflTransGen (lexer.Replaces table)

/-- Finitely many replacements are possible. -/
def Terminates : Situation α ν → Prop := Acc fun after before => lexer.Replaces table before after

/-- The value of the word leads to a text before which the word is replaced again. -/
def Recursive (name : ν) : Prop :=
  ∃ value last text rest, table name = some value ∧ lexer.Leads table (some name, value) (last, text) ∧
    lexer.leading text = some (name, rest) ∧ last ≠ some name

/-- The word is replaced at some point, from the situation on. -/
def ComesUp (situation : Situation α ν) (name : ν) : Prop :=
  ∃ last text rest, lexer.Leads table situation (last, text) ∧ lexer.leading text = some (name, rest) ∧ last ≠ some name

variable {lexer table}

theorem ComesUp.of_leads {before after : Situation α ν} {name : ν} (leads : lexer.Leads table before after)
    (comesUp : lexer.ComesUp table after name) : lexer.ComesUp table before name := by
  obtain ⟨last, text, rest, further, leading, fresh⟩ := comesUp
  exact ⟨last, text, rest, leads.trans further, leading, fresh⟩

theorem Terminates.of_stuck {situation : Situation α ν} (stuck : ∀ after, ¬ lexer.Replaces table situation after) :
    lexer.Terminates table situation := .intro _ fun after replaces => absurd replaces (stuck after)

theorem not_replaces_of_none {last : Option ν} {text : List α} (none : lexer.leading text = none)
    (after : Situation α ν) : ¬ lexer.Replaces table (last, text) after := by
  intro replaces
  cases replaces with
  | replace leads found fresh =>
      rw [none] at leads
      cases leads

theorem Leads.append {before after : Situation α ν} {rest : List α} (leads : lexer.Leads table before after)
    (delimited : lexer.delimited rest) : lexer.Leads table (before.1, before.2 ++ rest) (after.1, after.2 ++ rest) := by
  induction leads with
  | refl => exact .refl
  | tail earlier replaces ih =>
      cases replaces with
      | replace leads found fresh =>
          have further : lexer.Replaces table _ _ :=
            .replace (lexer.leading_append leads delimited) found fresh
          rw [← List.append_assoc] at further
          exact ih.tail further

theorem Leads.terminates {before after : Situation α ν} (leads : lexer.Leads table before after)
    (ends : lexer.Terminates table before) : lexer.Terminates table after := by
  induction leads with
  | refl => exact ends
  | tail earlier replaces ih => exact ih.inv replaces

/-- The words of the table that are not among the active ones. -/
def remaining [DecidableEq ν] (names active : List ν) : Nat := (names.filter fun name => name ∉ active).length

theorem remaining_cons [DecidableEq ν] {names active : List ν} {name : ν} (known : name ∈ names)
    (inactive : name ∉ active) :
    remaining names (name :: active) < remaining names active := by
  unfold remaining
  have fewer : names.filter (fun other => other ∉ name :: active) =
      (names.filter fun other => other ∉ active).filter fun other => other ≠ name := by
    rw [List.filter_filter]
    congr 1
    funext other
    simp [not_or]
  rw [fewer]
  refine List.length_filter_lt_length_iff_exists.mpr ⟨name, ?_, by simp⟩
  simp [known, inactive]

/-- A text that the values of the active words have led to. It ends before the rest is
reached, or goes on with the rest as if only blanks stood before it. -/
theorem terminates_append [DecidableEq ν] {names : List ν} (finite : ∀ name, (table name).isSome = true → name ∈ names)
    (active : List ν) (last : Option ν) (text rest : List α) (delimited : lexer.delimited rest)
    (noneRecursive : ∀ name, lexer.ComesUp table (last, text ++ rest) name → ¬ lexer.Recursive table name)
    (goesOn : ∀ later blanks, lexer.Leads table (last, text) (later, blanks) → lexer.blank blanks →
      lexer.Terminates table (later, blanks ++ rest))
    (reached : ∀ name ∈ active, ∃ value context, table name = some value ∧ lexer.delimited context ∧
      lexer.Leads table (some name, value) (last, text ++ context)) :
    lexer.Terminates table (last, text ++ rest) := by
  cases leads : lexer.leading text with
  | none =>
      rcases lexer.leading_none leads delimited with blank | none
      · exact goesOn last text .refl blank
      · exact .of_stuck (not_replaces_of_none none)
  | some found =>
      obtain ⟨name, tail⟩ := found
      have leadsAll := lexer.leading_append leads delimited
      refine .intro _ fun after replaces => ?_
      cases replaces with
      | @replace _ _ _ value other leadsOther known fresh =>
          rw [leadsAll] at leadsOther
          cases leadsOther
          have replaced : lexer.Replaces table (last, text) (some name, value ++ tail) := .replace leads known fresh
          have inactive : name ∉ active := by
            intro member
            obtain ⟨own, context, ownValue, contextDelimited, reaches⟩ := reached name member
            exact noneRecursive name ⟨last, _, _, .refl, leadsAll, fresh⟩
              ⟨own, last, _, _, ownValue, reaches, lexer.leading_append leads contextDelimited, fresh⟩
          have fewer := remaining_cons (finite name (by rw [known]; rfl)) inactive
          have tailDelimited := lexer.delimited_rest leads
          have replacedAll := Leads.append (Relation.ReflTransGen.single replaced) delimited
          rw [List.append_assoc] at replacedAll
          refine terminates_append finite (name :: active) (some name) value (tail ++ rest)
            (lexer.delimited_append tailDelimited delimited)
            (fun other comesUp => noneRecursive other (comesUp.of_leads replacedAll)) ?_ ?_
          · -- the value has gone, and the rest of the text comes up
            intro later blanks vanishes blank
            have vanished : lexer.Leads table (last, text) (later, blanks ++ tail) :=
              .head replaced (vanishes.append tailDelimited)
            have smaller : lexer.size (blanks ++ tail) < lexer.size text := by
              rw [lexer.size_blank blank]
              exact lexer.size_rest leads
            rw [← List.append_assoc]
            refine terminates_append finite active later (blanks ++ tail) rest delimited
              (fun other comesUp => noneRecursive other (comesUp.of_leads (vanished.append delimited))) ?_ ?_
            · intro final gone further blankAtEnd
              exact goesOn final gone (vanished.trans further) blankAtEnd
            · intro earlier member
              obtain ⟨own, context, ownValue, contextDelimited, reaches⟩ := reached earlier member
              exact ⟨own, context, ownValue, contextDelimited, reaches.trans (vanished.append contextDelimited)⟩
          · intro earlier member
            rcases List.mem_cons.mp member with rfl | member
            · refine ⟨value, [], known, lexer.delimited_nil, ?_⟩
              rw [List.append_nil]
              exact .refl
            · obtain ⟨own, context, ownValue, contextDelimited, reaches⟩ := reached earlier member
              refine ⟨own, tail ++ context, ownValue, lexer.delimited_append tailDelimited contextDelimited, ?_⟩
              have further := Leads.append (Relation.ReflTransGen.single replaced) contextDelimited
              rw [← List.append_assoc]
              exact reaches.trans further
termination_by (remaining names active, lexer.size text)

theorem Recursive.diverges {name : ν} {last : Option ν} {text rest : List α} (recursive : lexer.Recursive table name)
    (leads : lexer.leading text = some (name, rest)) (fresh : last ≠ some name) :
    ¬ lexer.Terminates table (last, text) := by
  obtain ⟨value, later, again, tail, known, returns, leadsAgain, freshAgain⟩ := recursive
  -- every situation that leads to the value before some rest has a successor of this kind
  have forever : ∀ situation, lexer.Terminates table situation →
      ¬ ∃ context, lexer.delimited context ∧ lexer.Leads table situation (some name, value ++ context) := by
    intro situation ends
    induction ends with
    | intro situation _ ih =>
        rintro ⟨context, delimited, reaches⟩
        rcases Relation.ReflTransGen.cases_head reaches with here | ⟨next, replaces, further⟩
        · have around : Relation.TransGen (lexer.Replaces table) (some name, value ++ context)
              (some name, value ++ (tail ++ context)) :=
            .tail' (returns.append delimited) (.replace (lexer.leading_append leadsAgain delimited) known freshAgain)
          subst here
          obtain ⟨next, replaces, further⟩ := Relation.TransGen.head'_iff.mp around
          exact ih next replaces ⟨_, lexer.delimited_append (lexer.delimited_rest leadsAgain) delimited, further⟩
        · exact ih next replaces ⟨context, delimited, further⟩
  intro ends
  exact forever _ ends ⟨rest, lexer.delimited_rest leads, .single (.replace leads known fresh)⟩

/-- The replacements end exactly when no word comes up that leads back to itself. -/
theorem terminates_iff [DecidableEq ν] {names : List ν} (finite : ∀ name, (table name).isSome = true → name ∈ names)
    (situation : Situation α ν) :
    lexer.Terminates table situation ↔ ∀ name, lexer.ComesUp table situation name → ¬ lexer.Recursive table name := by
  constructor
  · rintro ends name ⟨last, text, rest, leads, leading, fresh⟩ recursive
    exact recursive.diverges leading fresh (leads.terminates ends)
  · intro noneRecursive
    obtain ⟨last, text⟩ := situation
    have ends := terminates_append finite [] last text [] lexer.delimited_nil
      (by rwa [List.append_nil])
      (fun later blanks _ blank => .of_stuck (not_replaces_of_none (by
        rw [List.append_nil]
        exact lexer.leading_blank blank)))
      (fun name member => absurd member List.not_mem_nil)
    rwa [List.append_nil] at ends

theorem Recursive.comesUp {name : ν} (recursive : lexer.Recursive table name) :
    ∃ text, lexer.ComesUp table (none, text) name := by
  obtain ⟨_, _, text, rest, _, _, leading, _⟩ := recursive
  exact ⟨text, none, text, rest, .refl, leading, by simp⟩

end LeadingWord

end Mrsh.Data

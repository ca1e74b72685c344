import Mrsh.Data.LeadingWords

namespace Mrsh.Data

/-! # Words in the values that replaced others

A value that was put in the place of a word reaches up to the text behind that word. A word
that is replaced later stands in each value whose end has not been passed. While one series
of replacements ends, no word is replaced in its own value. A later series, which does not
know what was replaced before, keeps this exactly when nothing that is left of a value leads
back to its word.
-/

variable {α ν : Type}

/-- Words are read at the front of a text. -/
structure FrontWord (α ν : Type) extends LeadingWord α ν where
  consumed : ∀ {text name rest}, leading text = some (name, rest) → ∃ front, front ≠ [] ∧ text = front ++ rest
  behind_blank : ∀ {text after}, blank text → leading (text ++ after) = leading after

/-- A value that was put into a text: the word it replaced and how long the text behind it is. -/
structure Inserted (ν : Type) where
  name : ν
  behind : Nat
deriving Repr, DecidableEq

/-- The values that a word is in, when a text of the given length is behind it. -/
def around (inserted : List (Inserted ν)) (length : Nat) : List (Inserted ν) :=
  inserted.filter fun value => value.behind ≤ length

theorem mem_around {inserted : List (Inserted ν)} {length : Nat} {value : Inserted ν} :
    value ∈ around inserted length ↔ value ∈ inserted ∧ value.behind ≤ length := by
  simp [around]

/-- A word that was replaced, and the words in whose values it stood. -/
structure Replacement (ν : Type) where
  name : ν
  within : List ν
deriving Repr, DecidableEq

/-- The word stood in its own value. -/
def Replacement.Nested (replacement : Replacement ν) : Prop := replacement.name ∈ replacement.within

instance [DecidableEq ν] (replacement : Replacement ν) : Decidable replacement.Nested :=
  inferInstanceAs (Decidable (_ ∈ _))

namespace FrontWord

open LeadingWord

variable (lexer : FrontWord α ν) (table : ν → Option (List α))

/-- Replacements one after the other, with the values that are in the text. -/
inductive Makes :
    List (Inserted ν) → Situation α ν → List (Replacement ν) → List (Inserted ν) → Situation α ν → Prop where
  | nothing (inserted : List (Inserted ν)) (situation : Situation α ν) : Makes inserted situation [] inserted situation
  | replace {inserted final : List (Inserted ν)} {last : Option ν} {text rest value : List α} {name : ν}
      {made : List (Replacement ν)} {after : Situation α ν} (leads : lexer.leading text = some (name, rest))
      (found : table name = some value) (fresh : last ≠ some name)
      (further : Makes (⟨name, rest.length⟩ :: around inserted rest.length) (some name,
        value ++ rest) made final after) :
      Makes inserted (last, text) (⟨name, (around inserted rest.length).map (·.name)⟩ :: made) final after

/-- No further word is replaced. -/
def Stuck (situation : Situation α ν) : Prop := ∀ next, ¬ lexer.Replaces table situation next

/-- What is left of the value leads back to the word that it replaced. -/
def LeadsBack (situation : Situation α ν) (value : Inserted ν) : Prop :=
  ∃ left behind, situation.2 = left ++ behind ∧ behind.length = value.behind ∧
    lexer.ComesUp table (situation.1, left) value.name

/-- The value belongs to a word of the table, and delimited text is behind it. -/
structure Fits (text : List α) (value : Inserted ν) : Prop where
  known : (table value.name).isSome = true
  delimited : ∀ left behind, text = left ++ behind → behind.length = value.behind → lexer.delimited behind

variable {lexer table} {inserted final : List (Inserted ν)} {last : Option ν} {text rest value : List α} {name : ν}
  {made : List (Replacement ν)} {situation after : Situation α ν}

theorem Fits.suffix {value : Inserted ν} (fits : lexer.Fits table text value) (suffix : rest <:+ text) :
    lexer.Fits table rest value where
  known := fits.known
  delimited left behind same length := by
    obtain ⟨front, rfl⟩ := suffix
    exact fits.delimited (front ++ left) behind (by rw [same, List.append_assoc]) length

theorem leading_left {left behind : List α} (delimited : lexer.delimited behind)
    (leads : lexer.leading (left ++ behind) = some (name, rest)) (before : behind.length ≤ rest.length) :
    ∃ leftRest, lexer.leading left = some (name, leftRest) ∧ rest = leftRest ++ behind := by
  cases own : lexer.leading left with
  | some found =>
      obtain ⟨other, leftRest⟩ := found
      have both := lexer.leading_append own delimited
      rw [leads] at both
      cases both
      exact ⟨leftRest, rfl, rfl⟩
  | none =>
      exfalso
      rcases lexer.leading_none own delimited with blank | none
      · rw [lexer.behind_blank blank] at leads
        obtain ⟨front, nonempty, rfl⟩ := lexer.consumed leads
        have some := List.length_pos_iff.mpr nonempty
        rw [List.length_append] at before
        omega
      · rw [none] at leads
        cases leads

/-- Where the text is split in a value that the replaced word is in, before and after the replacement. -/
theorem split_before {left behind : List α} (leads : lexer.leading text = some (name, rest))
    (split : value ++ rest = left ++ behind) (within : behind.length ≤ rest.length) :
    ∃ leftRest before, rest = leftRest ++ behind ∧ left = value ++ leftRest ∧ text = before ++ behind := by
  obtain ⟨front, -, rfl⟩ := lexer.consumed leads
  obtain ⟨leftRest, same⟩ := List.suffix_of_suffix_length_le (List.suffix_append left behind)
    (split ▸ List.suffix_append value rest) within
  subst same
  rw [← List.append_assoc] at split
  exact ⟨leftRest, front ++ leftRest, rfl, (List.append_cancel_right split).symm, (List.append_assoc _ _ _).symm⟩

theorem fits_replaced (leads : lexer.leading text = some (name, rest)) (found : table name = some value)
    (fits : ∀ own ∈ inserted, lexer.Fits table text own) :
    ∀ own ∈ (⟨name, rest.length⟩ : Inserted ν) :: around inserted rest.length,
      lexer.Fits table (value ++ rest) own := by
  intro own member
  rcases List.mem_cons.mp member with rfl | member
  · refine ⟨by rw [found]; rfl, fun left behind same length => ?_⟩
    obtain ⟨-, rfl⟩ := List.append_inj' same length.symm
    exact lexer.delimited_rest leads
  · obtain ⟨member, within⟩ := mem_around.mp member
    refine ⟨(fits own member).known, fun left behind same length => ?_⟩
    obtain ⟨leftRest, before, -, -, split⟩ := split_before leads same (length ▸ within)
    exact (fits own member).delimited before behind split length

theorem Makes.fits (makes : lexer.Makes table inserted situation made final after)
    (fits : ∀ own ∈ inserted, lexer.Fits table situation.2 own) : ∀ own ∈ final, lexer.Fits table after.2 own := by
  induction makes with
  | nothing inserted situation => exact fits
  | replace leads found fresh further ih => exact ih (fits_replaced leads found fits)

theorem replaces_left {left behind : List α} (delimited : lexer.delimited behind)
    (leads : lexer.leading (left ++ behind) = some (name, rest)) (found : table name = some value)
    (fresh : last ≠ some name) (before : behind.length ≤ rest.length) :
    ∃ leftRest, rest = leftRest ++ behind ∧ lexer.Replaces table (last, left) (some name, value ++ leftRest) := by
  obtain ⟨leftRest, leadsLeft, split⟩ := leading_left delimited leads before
  exact ⟨leftRest, split, .replace leadsLeft found fresh⟩

/-- A value that does not lead back to its word does not do so after a replacement in it. -/
theorem leadsBack_replaced (leads : lexer.leading text = some (name, rest)) (found : table name = some value)
    (fresh : last ≠ some name) (fits : ∀ own ∈ inserted, lexer.Fits table text own)
    (ends : lexer.Terminates table (last, text))
    (noneLeadsBack : ∀ own ∈ inserted, ¬ lexer.LeadsBack table (last, text) own) :
    ∀ own ∈ (⟨name, rest.length⟩ : Inserted ν) :: around inserted rest.length,
      ¬ lexer.LeadsBack table (some name, value ++ rest) own := by
  intro own member leadsBack
  obtain ⟨left, behind, same, length, comesUp⟩ := leadsBack
  rcases List.mem_cons.mp member with rfl | member
  · obtain ⟨rfl, rfl⟩ := List.append_inj' same length.symm
    obtain ⟨later, again, tail, back, leadsAgain, freshAgain⟩ := comesUp
    have recursive : lexer.Recursive table name := ⟨value, later, again, tail, found, back, leadsAgain, freshAgain⟩
    exact recursive.diverges leads fresh ends
  · obtain ⟨member, within⟩ := mem_around.mp member
    obtain ⟨leftRest, before, restSplit, rfl, rfl⟩ := split_before leads same (length ▸ within)
    have delimited := (fits own member).delimited before behind rfl length
    obtain ⟨again, split, replaces⟩ := replaces_left delimited leads found fresh (length ▸ within)
    obtain rfl := List.append_cancel_right (restSplit.symm.trans split)
    exact noneLeadsBack own member ⟨before, behind, rfl, length, comesUp.of_leads (.single replaces)⟩

/-- Unless a value leads back to its word, no word is replaced in its own value. -/
theorem Makes.not_nested (makes : lexer.Makes table inserted situation made final after)
    (fits : ∀ own ∈ inserted, lexer.Fits table situation.2 own) (ends : lexer.Terminates table situation)
    (noneLeadsBack : ∀ own ∈ inserted, ¬ lexer.LeadsBack table situation own) :
    ∀ replacement ∈ made, ¬ replacement.Nested := by
  induction makes with
  | nothing inserted situation =>
      intro replacement member
      cases member
  | @replace inserted final last text rest value name made after leads found fresh further ih =>
      have rest_ := ih (fits_replaced leads found fits) (ends.inv (.replace leads found fresh))
        (leadsBack_replaced leads found fresh fits ends noneLeadsBack)
      intro replacement member
      rcases List.mem_cons.mp member with rfl | member
      · intro nested
        obtain ⟨own, memberOwn, sameName⟩ := List.mem_map.mp nested
        obtain ⟨memberOwn, within⟩ := mem_around.mp memberOwn
        obtain ⟨front, -, rfl⟩ := lexer.consumed leads
        have split : front ++ rest = (front ++ rest.take (rest.length - own.behind)) ++
            rest.drop (rest.length - own.behind) := by
          rw [List.append_assoc, List.take_append_drop]
        have length : (rest.drop (rest.length - own.behind)).length = own.behind := by
          rw [List.length_drop]
          omega
        have delimited := (fits own memberOwn).delimited _ _ split length
        have leadsSplit := leads
        rw [split] at leadsSplit
        obtain ⟨leftRest, leadsLeft, -⟩ := leading_left delimited leadsSplit (by rw [length]; exact within)
        exact noneLeadsBack own memberOwn
          ⟨_, _, split, length, last, _, leftRest, .refl, sameName ▸ leadsLeft, sameName ▸ fresh⟩
      · exact rest_ replacement member

/-- A value that leads back to its word has it replaced in itself, unless the replacements stop before. -/
theorem Makes.nested (makes : lexer.Makes table inserted situation made final after) (stuck : lexer.Stuck table after)
    {own : Inserted ν} (member : own ∈ inserted) (fits : lexer.Fits table situation.2 own)
    (leadsBack : lexer.LeadsBack table situation own) : ∃ replacement ∈ made, replacement.Nested := by
  obtain ⟨left, behind, same, length, last, text, rest, reaches, leads, fresh⟩ := leadsBack
  have delimited := fits.delimited left behind same length
  obtain ⟨value, known⟩ := Option.isSome_iff_exists.mp fits.known
  clear fits
  generalize start_eq : (situation.1, left) = start at reaches
  induction reaches using Relation.ReflTransGen.head_induction_on generalizing inserted situation made left with
  | refl =>
      obtain ⟨first, whole⟩ := situation
      obtain ⟨rfl, rfl⟩ := Prod.mk.inj start_eq
      obtain rfl : whole = left ++ behind := same
      have leadsAll := lexer.leading_append leads delimited
      cases makes with
      | nothing => exact absurd (.replace leadsAll known fresh) (stuck _)
      | replace leadsOther found freshOther further =>
          rw [leadsAll] at leadsOther
          cases leadsOther
          refine ⟨_, List.mem_cons_self, List.mem_map.mpr ⟨own, mem_around.mpr ⟨member, ?_⟩, rfl⟩⟩
          rw [List.length_append]
          omega
  | head replaces further ih =>
      obtain ⟨first, whole⟩ := situation
      obtain rfl : whole = left ++ behind := same
      subst start_eq
      cases replaces with
      | @replace _ _ leftRest next word leadsLeft knownLeft freshLeft =>
          have leadsAll := lexer.leading_append leadsLeft delimited
          cases makes with
          | nothing => exact absurd (.replace leadsAll knownLeft freshLeft) (stuck _)
          | replace leadsOther found freshOther further =>
              rw [leadsAll] at leadsOther
              cases leadsOther
              rw [knownLeft] at found
              cases found
              obtain ⟨replacement, among, nested⟩ := ih further
                (List.mem_cons_of_mem _ (mem_around.mpr ⟨member, by rw [List.length_append]; omega⟩))
                (next ++ leftRest) (List.append_assoc _ _ _).symm rfl
              exact ⟨replacement, List.mem_cons_of_mem _ among, nested⟩

/-- Two series of replacements, between which text at the front is read. Nothing is replaced
in its own value exactly when no value that the first series put into the text leads back to
its word at the beginning of the second. -/
theorem not_nested_twice {between rest : List α} {again : List (Replacement ν)} {finalAgain : List (Inserted ν)}
    (first : lexer.Makes table [] (none, text) made inserted (last, between))
    (ends : lexer.Terminates table (none, text))
    (read : rest <:+ between) (second : lexer.Makes table inserted (none, rest) again finalAgain after)
    (endsAgain : lexer.Terminates table (none, rest)) (stuck : lexer.Stuck table after) :
    (∀ replacement ∈ made ++ again, ¬ replacement.Nested) ↔ ∀ own ∈ inserted, ¬ lexer.LeadsBack table
    (none, rest) own := by
  have fits : ∀ own ∈ inserted, lexer.Fits table rest own := fun own member =>
    (first.fits (fun _ member => absurd member List.not_mem_nil) own member).suffix read
  constructor
  · intro noneNested own member leadsBack
    obtain ⟨replacement, among, nested⟩ := second.nested stuck member (fits own member) leadsBack
    exact noneNested replacement (List.mem_append_right _ among) nested
  · intro noneLeadsBack replacement member
    rcases List.mem_append.mp member with member | member
    · exact first.not_nested (fun _ member => absurd member List.not_mem_nil) ends
        (fun _ member => absurd member List.not_mem_nil) replacement member
    · exact second.not_nested fits endsAgain noneLeadsBack replacement member

end FrontWord

end Mrsh.Data

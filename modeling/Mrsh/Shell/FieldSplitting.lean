import Mrsh.Data.Fields
import Mrsh.Shell.QuotedText

namespace Mrsh

open Mrsh.Data

/-! # What field splitting yields

The splitter is compared with POSIX field splitting in two steps. Its work on
the characters and words of a tree is that of the machine `Splitter` on the
sequence of pieces, and the machine agrees with `splitItems` exactly on the
sequences on which it loses no field.
-/

/-! ## Pieces -/

/-- An unsplittable piece is either a double-quoted list or a plain one, and a
character of a splittable string that is no delimiter is a plain piece. -/
inductive Piece where
  | space
  | separator
  | plain (text : QuotedText)
  | doubleQuoted (text : QuotedText)

def Piece.item : Piece → Item (Char × Bool)
  | .space => .space
  | .separator => .separator
  | .plain text => .content text
  | .doubleQuoted text => .content text

def charPiece (ifs : Str) (c : Char) : Piece :=
  if c ∉ ifs then .plain [(c, false)] else if isSpace c then .space else .separator

mutual

def pieces (ifs : Str) : Word → List Piece
  | .string str singleQuoted splitFields range =>
      if singleQuoted || !splitFields then
        [.plain (quotedText false (.string str singleQuoted splitFields range))]
      else str.map (charPiece ifs)
  | .list children true _ _ => [.doubleQuoted (quotedTextOfChildren true children)]
  | .list children false _ _ => piecesOfChildren ifs children
  | _ => []

def piecesOfChildren (ifs : Str) : List Word → List Piece
  | [] => []
  | child :: children => pieces ifs child ++ piecesOfChildren ifs children

end

/-- The fields of POSIX field splitting. -/
def posixFields (ifs : Str) (word : Word) : List QuotedText :=
  splitItems ((pieces ifs word).map Piece.item)

/-! ## The machine -/

structure Splitter where
  fields : List QuotedText
  cur : Option QuotedText
  inIfs : Bool
  inIfsNonSpace : Bool

namespace Splitter

def init : Splitter := ⟨[], none, true, false⟩

def append (machine : Splitter) (text : QuotedText) : Splitter :=
  { machine with cur := some (machine.cur.getD [] ++ text) }

def finish (machine : Splitter) : List QuotedText := machine.fields ++ machine.cur.toList

/-- The field that a delimiter ends exists even if nothing belongs to it. -/
def endField (machine : Splitter) : Splitter :=
  ⟨machine.fields ++ [machine.cur.getD []], none, true, machine.inIfsNonSpace⟩

def step (machine : Splitter) : Piece → Splitter
  | .plain text => { machine.append text with inIfs := false, inIfsNonSpace := false }
  | .doubleQuoted text => machine.append text
  | .space => if machine.inIfs then machine else machine.endField
  | .separator =>
      if !machine.inIfs || machine.inIfsNonSpace then machine.endField
      else { machine with inIfsNonSpace := true }

end Splitter

def childrenText (children : List Word) : QuotedText := quotedTextOfChildren false children

/-- The machine state that stands for `data` when the characters of `buf` wait
to be added to the current field. -/
def SplitFieldsData.view (data : SplitFieldsData) (buf : Str) : Splitter where
  fields := data.fields.map (quotedText false)
  cur :=
    if data.inIfs then data.curField.map childrenText
    else some ((data.curField.map childrenText).getD [] ++ buf.map (·, false))
  inIfs := data.inIfs
  inIfsNonSpace := data.inIfsNonSpace

theorem childrenText_concat (children : List Word) (word : Word) :
    childrenText (children ++ [word]) = childrenText children ++ quotedText false word := by
  simp only [childrenText, quotedTextOfChildren_append, quotedTextOfChildren, List.append_nil]

theorem getD_childrenText (cur : Option (List Word)) :
    (cur.map childrenText).getD [] = childrenText (cur.getD []) := by
  cases cur <;> rfl

theorem view_addToCurField (data : SplitFieldsData) (word : Word) :
    (addToCurField data word).view [] = (data.view []).append (quotedText false word) := by
  cases inside : data.inIfs with
  | true =>
      simp [SplitFieldsData.view, Splitter.append, addToCurField, inside, childrenText_concat,
        getD_childrenText]
  | false =>
      simp [SplitFieldsData.view, Splitter.append, addToCurField, inside, childrenText_concat,
        getD_childrenText]

theorem view_endCurField (data : SplitFieldsData) (buf : Str) (flushed : data.inIfs = true → buf = []) :
    ({ endCurField (addToCurField data (mrshWordStringCreate buf false)) with
        inIfs := true } : SplitFieldsData).view [] = (data.view buf).endField := by
  have text : quotedText false (mrshWordListCreate
      (data.curField.getD [] ++ [mrshWordStringCreate buf false]) false) =
      childrenText (data.curField.getD []) ++ buf.map (·, false) := childrenText_concat _ _
  cases inside : data.inIfs with
  | true =>
      have empty := flushed inside
      subst empty
      simp [SplitFieldsData.view, Splitter.endField, endCurField, addToCurField, inside, text,
        getD_childrenText]
  | false =>
      simp [SplitFieldsData.view, Splitter.endField, endCurField, addToCurField, inside, text,
        getD_childrenText]

/-- What `split_fields` sets up, and that the characters of a string were all
given to a field when the splitter is not in a delimiter. -/
structure SplitFieldsData.Settled (ifs : Str) (data : SplitFieldsData) : Prop where
  ifs_eq : data.ifs = ifs
  nonSpace_eq : data.ifsNonSpace = ifs.filter (!isSpace ·)
  open_field : data.inIfs = false → data.curField ≠ none

theorem view_finish {ifs : Str} {data : SplitFieldsData} (settled : data.Settled ifs) :
    (endCurField data).fields.map (quotedText false) = (data.view []).finish := by
  cases current : data.curField with
  | none =>
      have inside : data.inIfs = true := by
        cases inside : data.inIfs with
        | true => rfl
        | false => exact absurd current (settled.open_field inside)
      simp [endCurField, SplitFieldsData.view, Splitter.finish, current, inside]
  | some children =>
      have text : quotedText false (mrshWordListCreate children false) = childrenText children := rfl
      simp [endCurField, SplitFieldsData.view, Splitter.finish, current, text]

theorem charPiece_delimiter {ifs : Str} {c : Char} (delimiter : c ∈ ifs) :
    charPiece ifs c = if isSpace c then .space else .separator := by
  simp [charPiece, delimiter]

theorem charPiece_other {ifs : Str} {c : Char} (other : c ∉ ifs) : charPiece ifs c = .plain [(c, false)] := by
  simp [charPiece, other]

section

variable {data : SplitFieldsData} {buf : Str} {c : Char}

theorem step_ends (nonSpace : c ∈ data.ifsNonSpace ↔ isSpace c = false)
    (ends : (!data.inIfs || (decide (c ∈ data.ifsNonSpace) && data.inIfsNonSpace)) = true) :
    (data.view buf).step (if isSpace c then .space else .separator) = (data.view buf).endField := by
  cases inside : data.inIfs with
  | true =>
      have separator : isSpace c = false ∧ data.inIfsNonSpace = true := by
        simpa [inside, nonSpace] using ends
      simp [separator, SplitFieldsData.view, Splitter.step]
  | false => cases isSpace c <;> simp [SplitFieldsData.view, Splitter.step, inside]

theorem step_marks (inside : data.inIfs = true) (separator : isSpace c = false)
    (unmarked : data.inIfsNonSpace = false) :
    (data.view buf).step (if isSpace c then .space else .separator) =
      ({ data with inIfsNonSpace := true } : SplitFieldsData).view buf := by
  simp [SplitFieldsData.view, Splitter.step, inside, separator, unmarked]

theorem step_skips (inside : data.inIfs = true) (space : isSpace c = true) :
    (data.view buf).step (if isSpace c then .space else .separator) = data.view buf := by
  simp [SplitFieldsData.view, Splitter.step, inside, space]

theorem step_plain (flushed : data.inIfs = true → buf = []) :
    (data.view buf).step (.plain [(c, false)]) =
      ({ data with inIfs := false, inIfsNonSpace := false } : SplitFieldsData).view (buf ++ [c]) := by
  cases inside : data.inIfs with
  | true => simp [SplitFieldsData.view, Splitter.step, Splitter.append, inside, flushed inside]
  | false => simp [SplitFieldsData.view, Splitter.step, Splitter.append, inside]

end

theorem splitFieldsStr_view {ifs : Str} (str : Str) (data : SplitFieldsData) (buf : Str)
    (ifs_eq : data.ifs = ifs) (nonSpace_eq : data.ifsNonSpace = ifs.filter (!isSpace ·))
    (flushed : data.inIfs = true → buf = []) :
    (splitFieldsStr data buf str).Settled ifs ∧
      (splitFieldsStr data buf str).view [] =
        (str.map (charPiece ifs)).foldl Splitter.step (data.view buf) := by
  induction str generalizing data buf with
  | nil =>
      cases inside : data.inIfs with
      | true =>
          have empty := flushed inside
          subst empty
          simp only [splitFieldsStr, inside, if_true, List.map_nil, List.foldl_nil, and_true]
          exact ⟨ifs_eq, nonSpace_eq, by simp [inside]⟩
      | false =>
          simp only [splitFieldsStr, inside]
          refine ⟨⟨ifs_eq, nonSpace_eq, by simp [addToCurField]⟩, ?_⟩
          simp [SplitFieldsData.view, addToCurField, inside, childrenText_concat,
            mrshWordStringCreate, quotedText, getD_childrenText]
  | cons c str ih =>
      simp only [splitFieldsStr, List.map_cons, List.foldl_cons]
      by_cases delimiter : c ∈ data.ifs
      · have nonSpace : c ∈ data.ifsNonSpace ↔ isSpace c = false := by
          simp [nonSpace_eq, ← ifs_eq, delimiter]
        rw [if_neg (not_not_intro delimiter), charPiece_delimiter (ifs_eq ▸ delimiter)]
        by_cases ends : (!data.inIfs || (decide (c ∈ data.ifsNonSpace) && data.inIfsNonSpace)) = true
        · rw [if_pos ends, step_ends nonSpace ends, ← view_endCurField data buf flushed]
          exact ih _ _ ifs_eq nonSpace_eq (by simp)
        · rw [if_neg ends]
          simp only [Bool.or_eq_true, Bool.not_eq_true', Bool.and_eq_true, decide_eq_true_eq,
            not_or, Bool.not_eq_false] at ends
          obtain ⟨inside, notSecond⟩ := ends
          by_cases separator : c ∈ data.ifsNonSpace
          · have unmarked : data.inIfsNonSpace = false :=
              Bool.not_eq_true _ ▸ fun marked => notSecond ⟨separator, marked⟩
            rw [if_pos separator, step_marks inside (nonSpace.mp separator) unmarked]
            exact ih _ _ ifs_eq nonSpace_eq flushed
          · have space : isSpace c = true := by simpa [nonSpace] using separator
            rw [if_neg separator, step_skips inside space]
            exact ih _ _ ifs_eq nonSpace_eq flushed
      · rw [if_pos delimiter, charPiece_other (ifs_eq ▸ delimiter), step_plain flushed]
        exact ih _ _ ifs_eq nonSpace_eq (by simp)

mutual

theorem splitFieldsIn_view {ifs : Str} : (word : Word) → isExpanded word = true →
    (data : SplitFieldsData) → data.Settled ifs →
    ∃ after, splitFieldsIn data word = some after ∧ after.Settled ifs ∧
      after.view [] = (pieces ifs word).foldl Splitter.step (data.view [])
  | .string str singleQuoted split range, _, data, settled => by
      by_cases whole : (singleQuoted || !split) = true
      · let word : Word := .string str singleQuoted false .invalid
        refine ⟨{ addToCurField data word with inIfs := false, inIfsNonSpace := false }, ?_,
          ⟨settled.ifs_eq, settled.nonSpace_eq, by simp [addToCurField]⟩, ?_⟩
        · simp only [splitFieldsIn, whole, if_true, mrshWordCopy, Option.bind_eq_bind, Option.bind_some, word]
        · simp [pieces, whole, SplitFieldsData.view, Splitter.step, Splitter.append, addToCurField,
            childrenText_concat, word, quotedText]
          cases data.inIfs <;> simp [getD_childrenText]
      · obtain ⟨after, viewed⟩ := splitFieldsStr_view str data [] settled.ifs_eq
          settled.nonSpace_eq (fun _ => rfl)
        exact ⟨_, by simp only [splitFieldsIn, if_neg whole], after, by rw [viewed, pieces, if_neg whole]⟩
  | .list children true lquotePos rquotePos, expanded, data, settled => by
      obtain ⟨copy, copied, _, same⟩ := mrshWordCopy_expanded 0
        (.list children true lquotePos rquotePos) expanded
      refine ⟨addToCurField data copy, by
        simp only [splitFieldsIn, copied, Option.bind_eq_bind, Option.bind_some],
        ⟨settled.ifs_eq, settled.nonSpace_eq, by simp [addToCurField]⟩, ?_⟩
      rw [view_addToCurField, same, pieces]
      rfl
  | .list children false _ _, expanded, data, settled => by
      simpa only [splitFieldsIn, pieces] using
        splitFieldsChildren_view children expanded data settled
  | .parameter _, expanded, _, _ => by simp [isExpanded] at expanded
  | .command _ _ _, expanded, _, _ => by simp [isExpanded] at expanded
  | .arithmetic _, expanded, _, _ => by simp [isExpanded] at expanded
  | .null, expanded, _, _ => by simp [isExpanded] at expanded

theorem splitFieldsChildren_view {ifs : Str} : (children : List Word) →
    areExpanded children = true → (data : SplitFieldsData) → data.Settled ifs →
    ∃ after, splitFieldsChildren data children = some after ∧ after.Settled ifs ∧
      after.view [] = (piecesOfChildren ifs children).foldl Splitter.step (data.view [])
  | [], _, data, settled => ⟨data, rfl, settled, rfl⟩
  | child :: children, expanded, data, settled => by
      simp only [areExpanded, Bool.and_eq_true] at expanded
      obtain ⟨between, first, betweenSettled, firstView⟩ :=
        splitFieldsIn_view child expanded.1 data settled
      obtain ⟨after, rest, afterSettled, restView⟩ :=
        splitFieldsChildren_view children expanded.2 between betweenSettled
      refine ⟨after, ?_, afterSettled, ?_⟩
      · simp only [splitFieldsChildren, first, Option.bind_eq_bind, Option.bind_some, rest]
      · rw [restView, firstView, piecesOfChildren, List.foldl_append]

end

/-- Fields are built of string and list nodes, like the word that they come from. -/
structure SplitFieldsData.Expanded (data : SplitFieldsData) : Prop where
  fields : areExpanded data.fields = true
  curField : areExpanded (data.curField.getD []) = true

theorem addToCurField_expanded {data : SplitFieldsData} {word : Word} (built : data.Expanded)
    (expanded : isExpanded word = true) : (addToCurField data word).Expanded where
  fields := built.fields
  curField := by
    simp [addToCurField, areExpanded_append, built.curField, areExpanded, expanded]

theorem endCurField_expanded {data : SplitFieldsData} (built : data.Expanded) :
    (endCurField data).Expanded where
  fields := by
    have current := built.curField
    cases field : data.curField with
    | none => simp [endCurField, field, built.fields]
    | some children =>
        rw [field] at current
        simpa [endCurField, field, areExpanded_append, built.fields, areExpanded, mrshWordListCreate,
          isExpanded] using current
  curField := by simp [endCurField, areExpanded]

theorem splitFieldsStr_expanded (str : Str) (data : SplitFieldsData) (buf : Str) (built : data.Expanded) :
    (splitFieldsStr data buf str).Expanded := by
  induction str generalizing data buf with
  | nil =>
      unfold splitFieldsStr
      split
      · exact built
      · exact addToCurField_expanded built rfl
  | cons c str ih =>
      unfold splitFieldsStr
      split
      · exact ih _ _ ⟨built.fields, built.curField⟩
      · split
        · have ended := endCurField_expanded
            (addToCurField_expanded built (show isExpanded (mrshWordStringCreate buf false) = true from rfl))
          exact ih _ _ ⟨ended.fields, ended.curField⟩
        · split
          · exact ih _ _ ⟨built.fields, built.curField⟩
          · exact ih _ _ built

mutual

theorem splitFieldsIn_expanded : (word : Word) → isExpanded word = true → {data after : SplitFieldsData} →
    splitFieldsIn data word = some after → data.Expanded → after.Expanded
  | .string str singleQuoted split range, _, data, after, ended, built => by
      by_cases whole : (singleQuoted || !split) = true
      · simp only [splitFieldsIn, whole, if_true, mrshWordCopy, Option.bind_eq_bind, Option.bind_some,
          Option.some.injEq] at ended
        subst ended
        have added := addToCurField_expanded built
          (show isExpanded (.string str singleQuoted false .invalid) = true from rfl)
        exact ⟨added.fields, added.curField⟩
      · simp only [splitFieldsIn, if_neg whole, Option.some.injEq] at ended
        exact ended ▸ splitFieldsStr_expanded str data [] built
  | .list children true lquotePos rquotePos, expanded, data, after, ended, built => by
      obtain ⟨copy, copied, copyExpanded, _⟩ := mrshWordCopy_expanded 0
        (.list children true lquotePos rquotePos) expanded
      simp only [splitFieldsIn, copied, Option.bind_eq_bind, Option.bind_some, Option.some.injEq] at ended
      exact ended ▸ addToCurField_expanded built copyExpanded
  | .list children false _ _, expanded, data, after, ended, built => by
      rw [splitFieldsIn] at ended
      exact splitFieldsChildren_expanded children expanded ended built
  | .parameter _, expanded, _, _, _, _ => by simp [isExpanded] at expanded
  | .command _ _ _, expanded, _, _, _, _ => by simp [isExpanded] at expanded
  | .arithmetic _, expanded, _, _, _, _ => by simp [isExpanded] at expanded
  | .null, expanded, _, _, _, _ => by simp [isExpanded] at expanded

theorem splitFieldsChildren_expanded : (children : List Word) → areExpanded children = true →
    {data after : SplitFieldsData} → splitFieldsChildren data children = some after →
    data.Expanded → after.Expanded
  | [], _, data, after, ended, built => by
      cases ended
      exact built
  | child :: children, expanded, data, after, ended, built => by
      simp only [areExpanded, Bool.and_eq_true] at expanded
      rw [splitFieldsChildren, Option.bind_eq_bind, Option.bind_eq_some_iff] at ended
      obtain ⟨between, first, rest⟩ := ended
      exact splitFieldsChildren_expanded children expanded.2 rest
        (splitFieldsIn_expanded child expanded.1 first built)

end

/-! ## Where fields are lost

The first separator that follows a field without space in between is forgotten,
so that a second one finds nothing to delimit, and so is a separator at the
start. A field made of double-quoted pieces does not leave the delimiter state,
so that only a separator which is recognised as a second one can end it.
-/

/-- What the pieces read so far end with. A field is `doubleQuoted` when all its
pieces are. A separator is remembered unless it is the first delimiter after a
field; one that is not leaves the splitter where it was. -/
inductive Place where
  /-- No field since the start or since a separator that was not remembered. -/
  | unremembered
  /-- No field since a separator that is remembered. -/
  | remembered
  /-- A field that has ended and space. -/
  | spaced
  | unquoted
  | doubleQuoted
  /-- A double-quoted field after a separator that is remembered. -/
  | doubleQuotedRemembered
  /-- A double-quoted field and space. -/
  | doubleQuotedSpaced
  /-- A double-quoted field and a separator. -/
  | doubleQuotedSeparated
  /-- A double-quoted field and space, after a separator that is remembered. -/
  | doubleQuotedRememberedSpaced

/-- The place after one more piece, unless a field is lost there. -/
def Place.next : Place → Piece → Option Place
  | .unremembered, .space => some .unremembered
  | .unremembered, .separator => none
  | .unremembered, .plain _ => some .unquoted
  | .unremembered, .doubleQuoted _ => some .doubleQuoted
  | .remembered, .space => some .remembered
  | .remembered, .separator => some .remembered
  | .remembered, .plain _ => some .unquoted
  | .remembered, .doubleQuoted _ => some .doubleQuotedRemembered
  | .spaced, .space => some .spaced
  | .spaced, .separator => some .remembered
  | .spaced, .plain _ => some .unquoted
  | .spaced, .doubleQuoted _ => some .doubleQuoted
  | .unquoted, .space => some .spaced
  | .unquoted, .separator => some .unremembered
  | .unquoted, .plain _ => some .unquoted
  | .unquoted, .doubleQuoted _ => some .unquoted
  | .doubleQuoted, .space => some .doubleQuotedSpaced
  | .doubleQuoted, .separator => some .doubleQuotedSeparated
  | .doubleQuoted, .plain _ => some .unquoted
  | .doubleQuoted, .doubleQuoted _ => some .doubleQuoted
  | .doubleQuotedRemembered, .space => some .doubleQuotedRememberedSpaced
  | .doubleQuotedRemembered, .separator => some .remembered
  | .doubleQuotedRemembered, .plain _ => some .unquoted
  | .doubleQuotedRemembered, .doubleQuoted _ => some .doubleQuotedRemembered
  | .doubleQuotedSpaced, .space => some .doubleQuotedSpaced
  | .doubleQuotedSpaced, .separator => some .doubleQuotedSeparated
  | .doubleQuotedSpaced, .plain _ => none
  | .doubleQuotedSpaced, .doubleQuoted _ => none
  | .doubleQuotedSeparated, .space => some .doubleQuotedSeparated
  | .doubleQuotedSeparated, .separator => none
  | .doubleQuotedSeparated, .plain _ => none
  | .doubleQuotedSeparated, .doubleQuoted _ => none
  | .doubleQuotedRememberedSpaced, .space => some .doubleQuotedRememberedSpaced
  | .doubleQuotedRememberedSpaced, .separator => some .remembered
  | .doubleQuotedRememberedSpaced, .plain _ => none
  | .doubleQuotedRememberedSpaced, .doubleQuoted _ => none

def keepsFields (place : Place) : List Piece → Bool
  | [] => true
  | piece :: rest =>
      match place.next piece with
      | some place => keepsFields place rest
      | none => false

/-- The condition under which the splitter loses no field. -/
def KeepsFields (ifs : Str) (word : Word) : Prop :=
  keepsFields .unremembered (pieces ifs word) = true

/-- How the two machines stand to each other as long as no field was lost. -/
inductive Agree : Place → Split (Char × Bool) → Splitter → Prop where
  | unremembered fields :
      Agree .unremembered ⟨fields, .delimited⟩ ⟨fields, none, true, false⟩
  | remembered fields :
      Agree .remembered ⟨fields, .delimited⟩ ⟨fields, none, true, true⟩
  | spaced fields :
      Agree .spaced ⟨fields, .spaced⟩ ⟨fields, none, true, false⟩
  | unquoted fields text :
      Agree .unquoted ⟨fields, .field text⟩ ⟨fields, some text, false, false⟩
  | doubleQuoted fields text :
      Agree .doubleQuoted ⟨fields, .field text⟩ ⟨fields, some text, true, false⟩
  | doubleQuotedRemembered fields text :
      Agree .doubleQuotedRemembered ⟨fields, .field text⟩ ⟨fields, some text, true, true⟩
  | doubleQuotedSpaced fields text :
      Agree .doubleQuotedSpaced ⟨fields ++ [text], .spaced⟩ ⟨fields, some text, true, false⟩
  | doubleQuotedSeparated fields text :
      Agree .doubleQuotedSeparated ⟨fields ++ [text], .delimited⟩ ⟨fields, some text, true, true⟩
  | doubleQuotedRememberedSpaced fields text :
      Agree .doubleQuotedRememberedSpaced ⟨fields ++ [text], .spaced⟩
        ⟨fields, some text, true, true⟩

/-- The machine has lost a field, and can add no field without `split` doing so
too: an open field is open in both, and a remembered separator is the last thing
that `split` has read. -/
structure Behind (split : Split (Char × Bool)) (machine : Splitter) : Prop where
  fewer : machine.finish.length < split.count
  open_field : (∃ text, split.scan = .field text) → machine.cur ≠ none
  outside : machine.inIfs = false → machine.cur ≠ none ∧ machine.inIfsNonSpace = false
  remembered : machine.cur = none → machine.inIfsNonSpace = true → split.scan = .delimited

theorem agree_step {place next : Place} {split : Split (Char × Bool)} {machine : Splitter}
    {piece : Piece} (agree : Agree place split machine) (stepped : place.next piece = some next) :
    Agree next (split.step piece.item) (machine.step piece) := by
  cases agree <;> cases piece <;> cases stepped <;> constructor

theorem agree_loses {place : Place} {split : Split (Char × Bool)} {machine : Splitter}
    {piece : Piece} (agree : Agree place split machine) (stepped : place.next piece = none) :
    Behind (split.step piece.item) (machine.step piece) := by
  cases agree <;> cases piece <;> cases stepped <;>
    constructor <;>
    simp [Split.step, Splitter.step, Splitter.append, Splitter.endField, Splitter.finish,
      Split.count, Piece.item]

theorem behind_step {split : Split (Char × Bool)} {machine : Splitter} (piece : Piece)
    (behind : Behind split machine) : Behind (split.step piece.item) (machine.step piece) := by
  obtain ⟨fewer, openField, outside, remembered⟩ := behind
  obtain ⟨fields, scan⟩ := split
  obtain ⟨done, cur, inIfs, inIfsNonSpace⟩ := machine
  cases scan <;> cases cur <;> cases inIfs <;> cases inIfsNonSpace <;> cases piece <;>
    simp_all [Split.count, Splitter.finish] <;>
    constructor <;>
    simp [Split.step, Splitter.step, Splitter.append, Splitter.endField, Splitter.finish,
      Split.count, Piece.item] <;> omega

theorem behind_run (rest : List Piece) {split : Split (Char × Bool)} {machine : Splitter}
    (behind : Behind split machine) :
    (rest.foldl Splitter.step machine).finish ≠ ((rest.map Piece.item).foldl Split.step split).finish := by
  induction rest generalizing split machine with
  | nil =>
      intro same
      have fewer := behind.fewer
      have length : machine.finish.length = split.finish.length := congrArg List.length same
      rw [Split.length_finish] at length
      omega
  | cons piece rest ih => exact ih (behind_step piece behind)

theorem agree_finish {place : Place} {split : Split (Char × Bool)} {machine : Splitter}
    (agree : Agree place split machine) : machine.finish = split.finish := by
  cases agree <;> simp [Splitter.finish, Split.finish]

theorem agree_run (rest : List Piece) {place : Place} {split : Split (Char × Bool)}
    {machine : Splitter} (agree : Agree place split machine) :
    (rest.foldl Splitter.step machine).finish = ((rest.map Piece.item).foldl Split.step split).finish ↔
      keepsFields place rest = true := by
  induction rest generalizing place split machine with
  | nil => simp [keepsFields, agree_finish agree]
  | cons piece rest ih =>
      simp only [keepsFields, List.map_cons, List.foldl_cons]
      cases stepped : place.next piece with
      | some next => exact ih (agree_step agree stepped)
      | none => simpa using behind_run rest (agree_loses agree stepped)

theorem splitFields_machine {ifs : Option Str} {word : Word} (expanded : isExpanded word = true)
    (nonempty : ifs ≠ some []) :
    ∃ fields, splitFields word ifs = some fields ∧ areExpanded fields = true ∧
      fields.map (quotedText false) =
        ((pieces (ifs.getD defaultIfs) word).foldl Splitter.step Splitter.init).finish := by
  have notEmpty : (ifs.getD defaultIfs).isEmpty = false := by
    cases ifs with
    | none => rfl
    | some ifs => simpa using nonempty
  obtain ⟨after, split, settled, viewed⟩ := @splitFieldsIn_view (ifs.getD defaultIfs) word expanded
    { fields := [], curField := none, ifs := ifs.getD defaultIfs,
      ifsNonSpace := (ifs.getD defaultIfs).filter (!isSpace ·), inIfs := true, inIfsNonSpace := false }
    ⟨rfl, rfl, by simp⟩
  have built := splitFieldsIn_expanded word expanded split ⟨rfl, rfl⟩
  refine ⟨(endCurField after).fields, by simp [splitFields, notEmpty, split],
    (endCurField_expanded built).fields, ?_⟩
  rw [view_finish settled, viewed]
  rfl

/-- Field splitting is that of POSIX exactly for the words of which no field is
lost. -/
theorem splitFields_eq_posixFields_iff {ifs : Option Str} {word : Word}
    (expanded : isExpanded word = true) (nonempty : ifs ≠ some []) :
    (∃ fields, splitFields word ifs = some fields ∧
      fields.map (quotedText false) = posixFields (ifs.getD defaultIfs) word) ↔
    KeepsFields (ifs.getD defaultIfs) word := by
  obtain ⟨fields, split, _, same⟩ := splitFields_machine expanded nonempty
  have keeps := agree_run (pieces (ifs.getD defaultIfs) word) (.unremembered [])
  rw [KeepsFields, ← keeps, posixFields, splitItems]
  constructor
  · rintro ⟨other, splitOther, posix⟩
    cases split.symm.trans splitOther
    exact same.symm.trans posix
  · intro posix
    exact ⟨fields, split, same.trans posix⟩

/-- The value `x y` of a parameter, split at the default delimiters. -/
theorem splitFields_eq_posixFields_iff_space :
    ∃ fields, splitFields (.string ['x', ' ', 'y'] false true .invalid) none = some fields ∧
      fields.map (quotedText false) = posixFields defaultIfs (.string ['x', ' ', 'y'] false true .invalid) :=
  (@splitFields_eq_posixFields_iff none (.string ['x', ' ', 'y'] false true .invalid) rfl (by simp)).mpr
    (show keepsFields _ _ = true by decide)

/-- The value `:a`, split at colons, has an empty first field. -/
theorem splitFields_ne_posixFields : ¬ ∀ (ifs : Option Str) (word : Word), isExpanded word = true →
    ifs ≠ some [] → ∃ fields, splitFields word ifs = some fields ∧
      fields.map (quotedText false) = posixFields (ifs.getD defaultIfs) word := by
  intro claimed
  obtain ⟨fields, split, same⟩ :=
    claimed (some [':']) (.string [':', 'a'] false true .invalid) rfl (by simp)
  have one : fields = [mrshWordListCreate [mrshWordStringCreate ['a'] false] false] := by
    injection split with split
    exact split.symm
  subst one
  revert same
  decide

end Mrsh

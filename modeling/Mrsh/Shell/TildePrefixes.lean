import Mrsh.Data.SegmentPrefixes
import Mrsh.Shell.Word

namespace Mrsh

open Mrsh.Data

/-! # The tilde-prefixes of an assignment value

A value is read as a list of unquoted characters and of words that tilde expansion leaves alone. The
code looks at the pieces of the value one after the other, so that the seams between them matter to it.
-/

inductive WordPart where
  | char (c : Char)
  | kept (word : Word)
  | seam

namespace WordPart

def isShown : WordPart → Bool
  | seam => false
  | _ => true

def isColon : WordPart → Bool
  | char c => c == ':'
  | _ => false

def isTilde : WordPart → Bool
  | char c => c == '~'
  | _ => false

end WordPart

open WordPart

mutual

/-- The parts of a word, with a seam between the children of a list. -/
def wordParts : Word → List WordPart
  | .string str false _ _ => str.map char
  | .list children false _ _ => childrenParts children
  | word => [kept word]

def childrenParts : List Word → List WordPart
  | [] => []
  | child :: children => wordParts child ++ seamedParts children

def seamedParts : List Word → List WordPart
  | [] => []
  | child :: children => seam :: wordParts child ++ seamedParts children

end

/-- What a word consists of, however it is divided into pieces. -/
def shownParts (word : Word) : List WordPart := (wordParts word).filter isShown

def loginName : List WordPart → Str
  | char c :: parts => if isLognameChar c then c :: loginName parts else []
  | _ => []

/-- A slash, a colon, or the end of the value. -/
def endsPrefix : List WordPart → Bool
  | [] => true
  | char c :: _ => c == '/' || c == ':'
  | _ => false

/-- What the code takes for the end of a prefix. -/
def endsAtSlash : List WordPart → Bool
  | [] => true
  | char c :: _ => c == '/'
  | _ => false

section

variable (home : Option Str) (getpwnam : Str → Option Str)

def loginDirectory (name : Str) : Option Str := if name.isEmpty then home else getpwnam name

/-- The directory that a tilde stands for, and the length of the login name behind it. -/
def tildePrefixAt (ends : List WordPart → Bool) (parts : List WordPart) : Option (Str × Nat) :=
  let name := loginName parts
  if ends (parts.drop name.length) then (loginDirectory home getpwnam name).map fun dir => (dir, name.length) else none

/-- The directory is quoted. -/
def readPrefix (ends : List WordPart → Bool) (parts : List WordPart) : Option (WordPart × Nat) :=
  (tildePrefixAt home getpwnam ends parts).map fun (dir, length) => (kept (mrshWordStringCreate dir true), length)

/-- The value after each of its tilde-prefixes was replaced. -/
def expandTildePrefixes (parts : List WordPart) : List WordPart :=
  replacePrefixes isColon isTilde (readPrefix home getpwnam endsPrefix) true 0 parts

/-- The prefixes are all in one piece of the value, at its start if it is the first piece or behind a colon of
that piece, and none ends at a colon. -/
def SeesTildePrefixes (word : Word) : Prop :=
  FindsPrefixes isColon isTilde isShown (readPrefix home getpwnam endsAtSlash) (readPrefix home getpwnam endsPrefix)
    true true (wordParts word)

/-! ## One string -/

/-- What follows a piece: nothing after the last one, and a seam after the others. -/
inductive PieceFollows : Bool → List WordPart → Prop
  | last : PieceFollows true []
  | seam (parts : List WordPart) : PieceFollows false (seam :: parts)

theorem loginName_chars (str : Str) {last : Bool} {tail : List WordPart} (follows : PieceFollows last tail) :
    loginName (str.map char ++ tail) = str.takeWhile isLognameChar := by
  induction str with
  | nil => cases follows <;> rfl
  | cons c str ih =>
      rw [List.map_cons, List.cons_append, loginName, ih, List.takeWhile_cons]

theorem isLognameChar_ne_slash {c : Char} (name : isLognameChar c = true) : c ≠ '/' := by
  rintro rfl
  exact absurd name (by decide)

theorem divides_at_loginName (str : Str) : ∃ name behind, str = name ++ behind ∧ (∀ c ∈ name, isLognameChar c = true) ∧
    ∀ c, behind.head? = some c → isLognameChar c = false := by
  refine ⟨str.takeWhile isLognameChar, str.dropWhile isLognameChar, List.takeWhile_append_dropWhile.symm, ?_, ?_⟩
  · exact List.all_eq_true.mp List.all_takeWhile
  · intro c first
    have stops := List.head?_dropWhile_not isLognameChar str
    rw [first] at stops
    simpa using stops

theorem takeWhile_name {name behind : Str} (names : ∀ c ∈ name, isLognameChar c = true)
    (stops : ∀ c, behind.head? = some c → isLognameChar c = false) :
    (name ++ behind).takeWhile isLognameChar = name := by
  rw [List.takeWhile_append_of_pos names]
  cases behind with
  | nil => simp
  | cons c behind => simp [stops c rfl]

/-- At a tilde the code finds the prefix that ends with the value or at a slash of its piece. -/
theorem expandTildeAt_tilde (rest : Str) (last : Bool) {tail : List WordPart} (follows : PieceFollows last tail) :
    expandTildeAt home getpwnam ('~' :: rest) last =
      (tildePrefixAt home getpwnam endsAtSlash (rest.map char ++ tail)).map fun found => (found.1, found.2 + 1) := by
  obtain ⟨name, behind, rfl, names, stops⟩ := divides_at_loginName rest
  have unslashed : ∀ c ∈ name, (c != '/') = true := fun c member => by
    simpa using isLognameChar_ne_slash (names c member)
  have allNames : name.all isLognameChar = true := List.all_eq_true.mpr names
  have dropped : ((name ++ behind).map char ++ tail).drop name.length = behind.map char ++ tail := by
    rw [List.map_append, List.append_assoc, List.drop_left' (by simp)]
  rw [tildePrefixAt, loginName_chars _ follows, takeWhile_name names stops, dropped, expandTildeAt,
    List.takeWhile_append_of_pos unslashed]
  have found : (do let dir ← if name.isEmpty then home else getpwnam name
                   some (dir, name.length + 1)) =
      ((loginDirectory home getpwnam name).map fun dir => (dir, name.length)).map
        fun found => (found.1, found.2 + 1) := by
    rw [loginDirectory]
    cases name.isEmpty with
    | true => cases home <;> rfl
    | false =>
        cases getpwnam name with
        | none => rfl
        | some dir => rfl
  cases behind with
  | nil =>
      simp only [List.takeWhile_nil, List.append_nil, allNames, if_true, List.map_nil, List.nil_append,
        beq_self_eq_true,
        Bool.true_and]
      cases follows with
      | last => simpa [endsAtSlash] using found
      | seam parts => simp [endsAtSlash]
  | cons c behind =>
      by_cases slash : c = '/'
      · subst slash
        have longer : (name.length == (name ++ '/' :: behind).length) = false := by simp
        simp only [List.takeWhile_cons, bne_self_eq_false, Bool.false_eq_true, if_false, List.append_nil, allNames,
          if_true,
          longer, Bool.false_and, List.map_cons, List.cons_append, endsAtSlash, beq_self_eq_true]
        exact found
      · have stranger : isLognameChar c = false := stops c rfl
        simp [endsAtSlash, slash, stranger]

/-! ## The code on the parts of a value -/

/-- What the code makes of the parts, without the seams. -/
def codeParts (first : Bool) (parts : List WordPart) : List WordPart :=
  (replacePrefixes isColon isTilde (readPrefix home getpwnam endsAtSlash) first 0 parts).filter isShown

theorem codeParts_seam (first : Bool) (parts : List WordPart) :
    codeParts home getpwnam first (seam :: parts) = codeParts home getpwnam false parts := by
  rw [codeParts, replacePrefixes_plain fun _ tilde => absurd tilde Bool.false_ne_true]
  rfl

theorem codeParts_kept (first : Bool) (word : Word) (parts : List WordPart) :
    codeParts home getpwnam first (kept word :: parts) = kept word :: codeParts home getpwnam false parts := by
  rw [codeParts, replacePrefixes_plain fun _ tilde => absurd tilde Bool.false_ne_true]
  rfl

theorem codeParts_tail (first : Bool) {last : Bool} {tail : List WordPart} (follows : PieceFollows last tail) :
    codeParts home getpwnam first tail = codeParts home getpwnam false tail := by
  cases follows with
  | last => rfl
  | seam parts => rw [codeParts_seam, codeParts_seam]

theorem codeParts_append {str : Str} (noColon : ∀ c ∈ str, c ≠ ':') (parts : List WordPart) :
    codeParts home getpwnam false (str.map char ++ parts) = str.map char ++ codeParts home getpwnam false parts := by
  have quiet : ∀ part ∈ str.map char, isColon part = false := by
    intro part member
    obtain ⟨c, inside, rfl⟩ := List.mem_map.mp member
    exact beq_eq_false_iff_ne.mpr (noColon c inside)
  have allShown : (str.map char).filter isShown = str.map char := by
    rw [List.filter_eq_self]
    intro part member
    obtain ⟨c, -, rfl⟩ := List.mem_map.mp member
    rfl
  rw [codeParts, replacePrefixes_append quiet, List.filter_append, allShown]
  rfl

theorem codeParts_unexpanded {part : WordPart} {parts : List WordPart}
    (missing : isTilde part = true → tildePrefixAt home getpwnam endsAtSlash parts = none) :
    codeParts home getpwnam true (part :: parts) = codeParts home getpwnam false (part :: parts) := by
  have unread : true = true → isTilde part = true → readPrefix home getpwnam endsAtSlash parts = none := by
    intro _ tilde
    rw [readPrefix, missing tilde, Option.map_none]
  have unstarted : false = true → isTilde part = true → readPrefix home getpwnam endsAtSlash parts = none := nofun
  rw [codeParts, codeParts, replacePrefixes_plain unread, replacePrefixes_plain unstarted]

theorem codeParts_expanded {parts : List WordPart} {dir : Str} {length : Nat}
    (found : tildePrefixAt home getpwnam endsAtSlash parts = some (dir, length)) :
    codeParts home getpwnam true (char '~' :: parts) =
      kept (mrshWordStringCreate dir true) :: codeParts home getpwnam false (parts.drop length) := by
  have reads : readPrefix home getpwnam endsAtSlash parts = some (kept (mrshWordStringCreate dir true), length) := by
    rw [readPrefix, found, Option.map_some]
  have tilde : isTilde (char '~') = true := rfl
  rw [codeParts, replacePrefixes_marked rfl tilde reads, List.filter_cons_of_pos rfl]
  rfl

theorem codeParts_colon (parts : List WordPart) :
    codeParts home getpwnam false (char ':' :: parts) = char ':' :: codeParts home getpwnam true parts := by
  have unstarted : false = true → isTilde (char ':') = true → readPrefix home getpwnam endsAtSlash parts = none := nofun
  rw [codeParts, replacePrefixes_plain unstarted]
  rfl

/-- What the code puts in the place of a prefix, and the text behind it. -/
def expandedStart (first last : Bool) (str : Str) : List Word × Str :=
  match if first then expandTildeAt home getpwnam str last else none with
  | some (dir, offset) => ([mrshWordStringCreate dir true], str.drop offset)
  | none => ([], str)

theorem codeParts_start (first : Bool) (str : Str) {last : Bool} {tail : List WordPart}
    (follows : PieceFollows last tail) :
    codeParts home getpwnam first (str.map char ++ tail) =
      (expandedStart home getpwnam first last str).1.map kept ++
        codeParts home getpwnam false ((expandedStart home getpwnam first last str).2.map char ++ tail) := by
  cases first with
  | false => rfl
  | true =>
  rw [expandedStart, if_pos rfl]
  cases str with
  | nil => exact codeParts_tail home getpwnam true follows
  | cons c rest =>
      by_cases tilde : c = '~'
      · subst tilde
        rw [expandTildeAt_tilde home getpwnam rest last follows]
        cases found : tildePrefixAt home getpwnam endsAtSlash (rest.map char ++ tail) with
        | none => exact codeParts_unexpanded home getpwnam fun _ => found
        | some prefix_ =>
            obtain ⟨dir, length⟩ := prefix_
            have inside : length ≤ (rest.map char).length := by
              obtain ⟨-, named⟩ := Option.ite_none_right_eq_some.mp found
              obtain ⟨_, -, same⟩ := Option.map_eq_some_iff.mp named
              rw [← (Prod.mk.inj same).2, loginName_chars rest follows, List.length_map]
              exact (List.takeWhile_sublist _).length_le
            rw [List.map_cons, List.cons_append, codeParts_expanded home getpwnam found,
              List.drop_append_of_le_length inside,
              ← List.map_drop]
            rfl
      · have unexpanded : expandTildeAt home getpwnam (c :: rest) last = none := by
          rw [expandTildeAt.eq_def]
          split
          · rename_i same
            exact absurd (List.cons.inj same).1 tilde
          · rfl
        rw [unexpanded]
        exact codeParts_unexpanded home getpwnam fun same => absurd (beq_iff_eq.mp same) tilde

theorem expandTildeColons_colon (last : Bool) (fuel : Nat) {before : Str} (behind : Str) (noColon : ':' ∉ before) :
    expandTildeColons home getpwnam last (fuel + 1) (before ++ ':' :: behind) =
      (mrshWordStringCreate (before ++ [':']) false :: (expandedStart home getpwnam true last behind).1 ++
        (expandTildeColons home getpwnam last fuel (expandedStart home getpwnam true last behind).2).1,
      (expandTildeColons home getpwnam last fuel (expandedStart home getpwnam true last behind).2).2) := by
  have colon : ':' ∈ before ++ ':' :: behind := by simp
  have slice : (before ++ ':' :: behind).takeWhile (· != ':') = before := by
    have plain : ∀ c ∈ before, (c != ':') = true := fun c member => by
      rw [bne_iff_ne]
      rintro rfl
      exact noColon member
    rw [List.takeWhile_append_of_pos plain]
    simp
  have rest : (before ++ ':' :: behind).drop (before ++ [':']).length = behind := by simp
  rw [expandTildeColons, if_pos colon, slice]
  cases expanded : expandTildeAt home getpwnam behind last with
  | none => simp only [rest, expandedStart, if_true, expanded]
  | some found => simp only [rest, expandedStart, if_true, expanded]

theorem expandedStart_shorter (first last : Bool) (str : Str) :
    (expandedStart home getpwnam first last str).2.length ≤ str.length := by
  rw [expandedStart]
  cases (if first then expandTildeAt home getpwnam str last else none) with
  | none => exact Nat.le_refl _
  | some found => exact (List.drop_sublist _ _).length_le

theorem expandedStart_shown (first last : Bool) (str : Str) :
    (expandedStart home getpwnam first last str).1.flatMap shownParts =
      (expandedStart home getpwnam first last str).1.map kept := by
  rw [expandedStart]
  cases (if first then expandTildeAt home getpwnam str last else none) <;> rfl

theorem shownParts_string (str : Str) (splitFields : Bool) (range : Range) :
    shownParts (.string str false splitFields range) = str.map char := by
  rw [shownParts, wordParts, List.filter_eq_self]
  intro part member
  obtain ⟨c, -, rfl⟩ := List.mem_map.mp member
  rfl

theorem seamedParts_shown (children : List Word) :
    (seamedParts children).filter isShown = children.flatMap shownParts := by
  induction children with
  | nil => rfl
  | cons child children ih =>
      rw [seamedParts, List.cons_append, List.filter_cons_of_neg Bool.false_ne_true, List.filter_append, ih,
        List.flatMap_cons, shownParts]

theorem shownParts_list (children : List Word) (lquotePos rquotePos : Position) :
    shownParts (.list children false lquotePos rquotePos) = children.flatMap shownParts := by
  cases children with
  | nil => rfl
  | cons child children =>
      rw [shownParts, wordParts, childrenParts, List.filter_append, seamedParts_shown, List.flatMap_cons, shownParts]

theorem pieceFollows_seamed (children : List Word) {last : Bool} {tail : List WordPart}
    (follows : PieceFollows last tail) :
    PieceFollows (last && children.isEmpty) (seamedParts children ++ tail) := by
  cases children with
  | nil =>
      rw [List.isEmpty_nil, Bool.and_true]
      exact follows
  | cons child children =>
      rw [List.isEmpty_cons, Bool.and_false]
      exact .seam _

theorem expandTildeIn_string_assignment (first last : Bool) (str : Str) (splitFields : Bool) (range : Range) :
    expandTildeIn home getpwnam true first last (.string str false splitFields range) =
      let start := expandedStart home getpwnam first last str
      let colons := expandTildeColons home getpwnam last (start.2.length + 1) start.2
      if (start.1 ++ colons.1).isEmpty then .string str false splitFields range
      else mrshWordListCreate (start.1 ++ colons.1 ++ [mrshWordStringCreate colons.2 false]) false := rfl

theorem expandedStart_unchanged {first last : Bool} {str : Str}
    (unchanged : (expandedStart home getpwnam first last str).1 = []) :
    (expandedStart home getpwnam first last str).2 = str := by
  rw [expandedStart] at unchanged ⊢
  cases found : (if first then expandTildeAt home getpwnam str last else none) with
  | none => rfl
  | some found_ =>
      rw [found] at unchanged
      exact absurd unchanged (List.cons_ne_nil _ _)

theorem expandTildeColons_unchanged {last : Bool} {fuel : Nat} {str : Str}
    (unchanged : (expandTildeColons home getpwnam last fuel str).1 = []) :
    (expandTildeColons home getpwnam last fuel str).2 = str := by
  cases fuel with
  | zero => rfl
  | succ fuel =>
      rw [expandTildeColons] at unchanged ⊢
      by_cases colon : ':' ∈ str
      · rw [if_pos colon] at unchanged
        exact absurd unchanged (List.cons_ne_nil _ _)
      · rw [if_neg colon]

theorem codeParts_colons (fuel : Nat) (str : Str) {last : Bool} {tail : List WordPart}
    (follows : PieceFollows last tail)
    (enough : str.length < fuel) :
    codeParts home getpwnam false (str.map char ++ tail) =
      (expandTildeColons home getpwnam last fuel str).1.flatMap shownParts ++
        ((expandTildeColons home getpwnam last fuel str).2.map char ++ codeParts home getpwnam false tail) := by
  induction fuel generalizing str with
  | zero => omega
  | succ fuel ih =>
      by_cases colon : ':' ∈ str
      · obtain ⟨before, behind, rfl, noColon⟩ := List.eq_append_cons_of_mem colon
        have shorter := expandedStart_shorter home getpwnam true last behind
        have room : (expandedStart home getpwnam true last behind).2.length < fuel := by
          rw [List.length_append, List.length_cons] at enough
          omega
        have copies : codeParts home getpwnam false ((before ++ ':' :: behind).map char ++ tail) =
            (before ++ [':']).map char ++ codeParts home getpwnam true (behind.map char ++ tail) := by
          rw [List.map_append, List.append_assoc, codeParts_append home getpwnam fun c member same =>
            noColon (same ▸ member),
            List.map_append, List.append_assoc]
          exact congrArg _ (codeParts_colon home getpwnam _)
        rw [copies, codeParts_start home getpwnam true behind follows, ih _ room,
          expandTildeColons_colon home getpwnam last fuel behind noColon]
        simp only [List.cons_append, List.flatMap_cons, List.flatMap_append, expandedStart_shown, List.append_assoc]
        rw [mrshWordStringCreate, shownParts_string]
      · rw [expandTildeColons, if_neg colon, codeParts_append home getpwnam fun c member same => colon (same ▸ member)]
        rfl

mutual

theorem codeParts_word : ∀ (word : Word) (first : Bool) {last : Bool} {tail : List WordPart}, PieceFollows last tail →
    codeParts home getpwnam first (wordParts word ++ tail) =
      shownParts (expandTildeIn home getpwnam true first last word) ++ codeParts home getpwnam false tail
  | .string str false splitFields range, first, last, tail, follows => by
      have started := codeParts_start home getpwnam first str follows
      rw [codeParts_colons home getpwnam _ _ follows (Nat.lt_succ_self _), ← expandedStart_shown] at started
      rw [wordParts, started, expandTildeIn_string_assignment]
      dsimp only
      split
      · rename_i unchanged
        obtain ⟨noStart, noColons⟩ := List.append_eq_nil_iff.mp (List.isEmpty_iff.mp unchanged)
        have sameText := expandedStart_unchanged home getpwnam noStart
        rw [noColons, expandTildeColons_unchanged home getpwnam noColons, noStart, sameText, shownParts_string]
        rfl
      · rw [mrshWordListCreate, shownParts_list, mrshWordStringCreate]
        simp only [List.flatMap_append, List.flatMap_cons, List.flatMap_nil, List.append_nil, shownParts_string,
          List.append_assoc]
  | .string str true splitFields range, first, last, tail, follows => codeParts_kept home getpwnam first _ tail
  | .parameter wp, first, last, tail, follows => codeParts_kept home getpwnam first _ tail
  | .command program backQuoted range, first, last, tail, follows => codeParts_kept home getpwnam first _ tail
  | .arithmetic body, first, last, tail, follows => codeParts_kept home getpwnam first _ tail
  | .list children true lquotePos rquotePos, first, last, tail, follows => codeParts_kept home getpwnam first _ tail
  | .list children false _ _, first, last, tail, follows => by
      cases children with
      | nil => exact codeParts_tail home getpwnam first follows
      | cons child children =>
          rw [wordParts, childrenParts, List.append_assoc,
            codeParts_word child first (pieceFollows_seamed children follows), codeParts_seamed children follows,
              expandTildeIn,
            expandTildeChildren, shownParts_list, List.flatMap_cons, List.append_assoc]
  | .null, first, last, tail, follows => codeParts_kept home getpwnam first _ tail

theorem codeParts_seamed : ∀ (children : List Word) {last : Bool} {tail : List WordPart}, PieceFollows last tail →
    codeParts home getpwnam false (seamedParts children ++ tail) =
      (expandTildeChildren home getpwnam true false last children).flatMap shownParts ++
        codeParts home getpwnam false tail
  | [], last, tail, follows => rfl
  | child :: children, last, tail, follows => by
      rw [seamedParts, List.cons_append, List.cons_append, List.append_assoc, codeParts_seam, expandTildeChildren,
        List.flatMap_cons,
        List.append_assoc, ← codeParts_seamed children follows]
      exact codeParts_word child false (pieceFollows_seamed children follows)

end

theorem shownParts_expandTilde (word : Word) :
    shownParts (expandTilde home getpwnam word true) = codeParts home getpwnam true (wordParts word) := by
  have parts := codeParts_word home getpwnam word true .last
  rw [List.append_nil] at parts
  rw [parts, expandTilde]
  exact (List.append_nil _).symm

/-! ## The prefixes that the code sees -/

theorem loginName_shown {parts : List WordPart} (ends : endsAtSlash (parts.drop (loginName parts).length) = true) :
    loginName (parts.filter isShown) = loginName parts ∧
      endsPrefix ((parts.filter isShown).drop (loginName parts).length) = true := by
  induction parts with
  | nil => exact ⟨rfl, rfl⟩
  | cons part parts ih =>
      cases part with
      | char c =>
          rw [loginName] at ends ⊢
          rw [List.filter_cons_of_pos rfl, loginName]
          cases name : isLognameChar c with
          | true =>
              rw [name] at ends
              obtain ⟨same, endsThere⟩ := ih ends
              exact ⟨congrArg (List.cons c) same, endsThere⟩
          | false =>
              rw [name] at ends
              have slash : (c == '/') = true := ends
              refine ⟨rfl, ?_⟩
              change (c == '/' || c == ':') = true
              rw [slash, Bool.true_or]
      | kept word => cases ends
      | seam => cases ends

theorem loginName_quiet (parts : List WordPart) :
    ∀ part ∈ parts.take (loginName parts).length, isShown part = true ∧ isColon part = false := by
  induction parts with
  | nil => exact nofun
  | cons part parts ih =>
      cases part with
      | char c =>
          rw [loginName]
          cases name : isLognameChar c with
          | true =>
              intro part member
              rcases List.mem_cons.mp member with rfl | member
              · refine ⟨rfl, beq_eq_false_iff_ne.mpr ?_⟩
                rintro rfl
                exact absurd name (by decide)
              · exact ih part member
          | false => exact nofun
      | kept word => exact nofun
      | seam => exact nofun

theorem readPrefix_some {ends : List WordPart → Bool} {parts : List WordPart} {replacement : WordPart} {taken : Nat}
    (reads : readPrefix home getpwnam ends parts = some (replacement, taken)) :
    ends (parts.drop taken) = true ∧ taken = (loginName parts).length ∧
      ∃ dir, loginDirectory home getpwnam (loginName parts) = some dir ∧
        replacement = kept (mrshWordStringCreate dir true)
        := by
  obtain ⟨⟨dir, length⟩, found, same⟩ := Option.map_eq_some_iff.mp reads
  obtain ⟨ended, named⟩ := Option.ite_none_right_eq_some.mp found
  obtain ⟨_, isHome, sameHome⟩ := Option.map_eq_some_iff.mp named
  cases same
  cases sameHome
  exact ⟨ended, rfl, dir, isHome, rfl⟩

theorem readsShown : ReadsShown isColon isTilde isShown (readPrefix home getpwnam endsAtSlash)
    (readPrefix home getpwnam endsPrefix) where
  agrees reads := by
    obtain ⟨ended, rfl, dir, isHome, rfl⟩ := readPrefix_some home getpwnam reads
    obtain ⟨same, endsThere⟩ := loginName_shown ended
    rw [readPrefix, tildePrefixAt, same]
    dsimp only
    rw [if_pos endsThere, isHome]
    rfl
  quiet reads := by
    obtain ⟨-, rfl, -⟩ := readPrefix_some home getpwnam reads
    exact loginName_quiet _
  replaces reads := by
    obtain ⟨-, -, dir, -, rfl⟩ := readPrefix_some home getpwnam reads
    exact ⟨rfl, rfl⟩
  hidden part hidden := by
    cases part with
    | seam => exact ⟨rfl, rfl⟩
    | _ => cases hidden
  closed part tilde := by
    cases part with
    | char c =>
        obtain rfl : c = '~' := beq_iff_eq.mp tilde
        rfl
    | _ => cases tilde

/-- All tilde-prefixes of an assignment value are replaced, and nothing else is changed, exactly if each that
names a directory is in one piece, at the start of the value or behind a colon of its piece, and does not end
at a colon. -/
theorem expandTilde_replacesPrefixes_iff (word : Word) :
    shownParts (expandTilde home getpwnam word true) = expandTildePrefixes home getpwnam (shownParts word) ↔
      SeesTildePrefixes home getpwnam word := by
  rw [shownParts_expandTilde]
  exact replacePrefixes_filter_iff (readsShown home getpwnam) (wordParts word) id

end

/-- The value `~:a` is left as it is. -/
theorem expandTilde_beforeColon :
    ¬ ∀ (home : Option Str) (getpwnam : Str → Option Str) (word : Word),
      shownParts (expandTilde home getpwnam word true) = expandTildePrefixes home getpwnam (shownParts word) := by
  intro always
  have same := congrArg (fun parts => parts.head?.map isTilde)
    (always (some ['/', 'h']) (fun _ => none) (.string ['~', ':', 'a'] false false .invalid))
  exact absurd same (by decide)

end Mrsh

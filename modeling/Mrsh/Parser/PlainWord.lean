import Mrsh.Parser.AndOr
import Mrsh.Parser.LiteralWord

namespace Mrsh

open Mrsh.Data

/-! # Commands of one plain word

A word of letters that is neither a keyword nor reserved is a pipeline. Every
production that comes before the simple command leaves it alone.
-/

structure PlainWord (w : Str) : Prop where
  nonempty : w ≠ []
  letters : ∀ c ∈ w, c.isAlpha = true
  notKeyword : w ∉ keywords
  notReserved : w ∉ reservedWords

/-- The text after a word starts with a character that ends it. -/
def EndsWord (tail : Str) : Prop := charAt tail 0 ∈ ['\x00', '\n', '&', '|', ' ', '\t']

theorem isAlpha_ne {c d : Char} (alpha : c.isAlpha = true) (other : d.isAlpha = false) : c ≠ d := by
  rintro rfl
  rw [alpha] at other
  cases other

theorem isAlpha_not_digit {c : Char} (alpha : c.isAlpha = true) : c.isDigit = false := by
  have ranges : (decide (c.val ≥ 'A'.val ∧ c.val ≤ 'Z'.val) ||
      (decide (c.val ≥ 'a'.val) && decide (c.val ≤ 'z'.val))) = true := alpha
  simp only [Char.isDigit, Bool.or_eq_true, Bool.and_eq_true,
    decide_eq_true_eq, Bool.and_eq_false_iff, decide_eq_false_iff_not, UInt32.le_iff_toNat_le] at ranges ⊢
  simp at ranges ⊢
  omega

variable {w tail rest text : Str} {parser : Parser} {sym : SymbolName}

theorem nameLength_letters (inBraces first : Bool) (letters : ∀ c ∈ w, c.isAlpha = true) :
    nameLength inBraces first w = w.length := by
  induction w generalizing first with
  | nil => rfl
  | cons c w ih =>
      rw [List.forall_mem_cons] at letters
      have alphanum : c.isAlphanum = true := by simp [Char.isAlphanum, letters.1]
      simp [nameLength, alphanum, isAlpha_not_digit letters.1, ih false letters.2]

theorem FollowsPipeline.head (follows : FollowsPipeline rest) :
    charAt rest 0 ∈ ['\x00', '\n', '&', '|'] := by
  obtain ⟨sym, starts, member⟩ := follows
  by_contra other
  simp only [List.mem_cons, List.not_mem_nil, or_false, not_or] at other
  obtain ⟨notEnd, notNewline, notAnd, notOr⟩ := other
  simp only [symbolAt, notEnd, notNewline, beq_iff_eq, if_false] at starts
  cases operator : (if isOperatorStart (charAt rest 0) then operatorAt rest else none) with
  | none =>
      rw [operator] at starts
      have token : sym = .token := by
        by_cases skipped : isBlank (charAt rest 0) || charAt rest 0 == '#'
        · simp [skipped] at starts
        · simpa [skipped] using starts.symm
      subst token
      revert member
      decide
  | some name =>
      rw [operator] at starts
      cases starts
      have found : operatorAt rest = some sym := by
        split at operator
        · exact operator
        · cases operator
      obtain ⟨str, listed, tail, rfl⟩ := operatorAt_prefix found
      simp only [operators, List.mem_cons, Prod.mk.injEq, List.not_mem_nil, or_false] at listed member
      rcases member with rfl | rfl | rfl | rfl <;> simp at listed
      · subst listed
        exact notAnd rfl
      · subst listed
        exact notOr rfl

theorem parenFollows_follows {blanks : Str} (blank : ∀ c ∈ blanks, isBlank c = true)
    (follows : FollowsPipeline rest) : parenFollows (blanks ++ rest) = false := by
  rw [parenFollows, List.dropWhile_append_of_pos blank]
  have head := follows.head
  cases rest with
  | nil => rfl
  | cons c rest =>
      simp only [charAt, List.getD_cons_zero, List.mem_cons, List.not_mem_nil, or_false] at head
      rcases head with rfl | rfl | rfl | rfl <;> rfl

theorem FollowsPipeline.endsWord {blanks : Str} (blank : ∀ c ∈ blanks, isBlank c = true)
    (follows : FollowsPipeline rest) : EndsWord (blanks ++ rest) := by
  cases blanks with
  | nil => exact List.mem_append_left [' ', '\t'] follows.head
  | cons c blanks =>
      have first : c = ' ' ∨ c = '\t' := by simpa [isBlank] using blank c (by simp)
      rcases first with rfl | rfl <;> simp [EndsWord, charAt]

/-! ## Before the simple command -/

theorem isAlpha_literal {c : Char} (alpha : c.isAlpha = true) : isLiteral c = true := by
  have ne : ∀ d : Char, d.isAlpha = false → (c == d) = false := fun d other => beq_false_of_ne (isAlpha_ne alpha other)
  simp [isLiteral, isOperatorStart, isBlank, ne]

theorem PlainWord.head_ne (plain : PlainWord w) {c : Char} (notLetter : c.isAlpha = false) : w.head? ≠ some c := by
  intro head
  rw [plain.letters c (List.mem_of_mem_head? head)] at notLetter
  cases notLetter

theorem PlainWord.literal (plain : PlainWord w) : LiteralWord w where
  nonempty := plain.nonempty
  chars c member := isAlpha_literal (plain.letters c member)
  notComment := plain.head_ne (by decide)

theorem EndsWord.ne {c : Char} (ends : EndsWord tail) (other : c ∉ ['\x00', '\n', '&', '|', ' ', '\t']) :
    charAt tail 0 ≠ c := by
  intro same
  exact other (same ▸ ends)

theorem EndsWord.stops (ends : EndsWord tail) : StopsWord tail := by
  simp only [EndsWord, List.mem_cons, List.not_mem_nil, or_false] at ends
  rcases ends with end_ | end_ | end_ | end_ | end_ | end_ <;> simp [StopsWord, end_, isOperatorStart, isBlank]

theorem charAt_append (w tail : Str) : charAt (w ++ tail) w.length = charAt tail 0 := by
  simp [charAt, List.getElem?_append_right]

theorem PlainWord.names (plain : PlainWord w) (ends : EndsWord tail) (noParen : parenFollows tail = false) :
    Names w tail where
  literal := plain.literal
  stops := ends.stops
  notGroup := ⟨plain.head_ne (by decide), plain.head_ne (by decide)⟩
  notOpening isOpening := by
    have keyword : ∀ str ∈ openings, str ∈ keywords := by decide
    exact plain.notKeyword (keyword w isOpening)
  notReserved := plain.notReserved
  afterName _ := by
    rw [nameLength_letters false true plain.letters, charAt_append]
    simp [ends.ne (c := ':') (by decide), ends.ne (c := '=') (by decide)]
  noFunction _ := by
    rw [nameLength_letters false true plain.letters, List.drop_left]
    exact noParen

/-! ## After the name -/

/-- Where the text goes on with something else than a token, the arguments end. -/
theorem cmdSuffix_none {found : Parser} (found_ : At sym text found)
    (symbol : ∀ name, Mrsh.symbol name parser = .done (sym == name) found)
    (follows : sym ∈ [SymbolName.andIf, .orIf, .newline, .eofToken]) (self : Productions) (cmd : SimpleCommand) :
    cmdSuffix self cmd parser = .done none found := by
  have notToken : sym ≠ .token := by
    rintro rfl
    revert follows
    decide
  have noRedirect : ioRedirect self parser = .done none found := by
    have noToken : ∀ str, token str found = .done none found := by
      intro str
      unfold token
      rw [Run.bind_of_done (found_.symbol .token), beq_false_of_ne notToken]
      rfl
    refine found_.facing.ioRedirect_none ?_ (noToken _) (noToken _) ?_ self
    · unfold ioNumber
      rw [Run.bind_of_done (symbol .token), beq_false_of_ne notToken]
      rfl
    · simp only [List.mem_cons, List.not_mem_nil, or_false] at follows
      rcases follows with rfl | rfl | rfl | rfl <;> decide
  have noWord : word self '\x00' found = .done none found := by
    unfold word
    rw [Run.bind_of_done (found_.symbol .token), beq_false_of_ne notToken]
    rfl
  unfold cmdSuffix
  rw [Run.bind_of_done noRedirect]
  exact Run.bind_of_done noWord

theorem simpleCommand_plain {blanks : Str} (at_ : At .token (w ++ (blanks ++ rest)) parser)
    (plain : PlainWord w) (blank : ∀ c ∈ blanks, isBlank c = true) (starts : symbolAt rest = some sym)
    (follows : sym ∈ [SymbolName.andIf, .orIf, .newline, .eofToken]) (self : Productions) (more : self.fuel ≠ 0) :
    ∃ cmd after, simpleCommand self parser = .done (some cmd) after ∧ At sym rest after := by
  obtain ⟨fuel, fuelEq⟩ := Nat.exists_eq_succ_of_ne_zero more
  have ended : FollowsPipeline rest := ⟨sym, starts, follows⟩
  have ends : EndsWord (blanks ++ rest) := ended.endsWord blank
  have names := plain.names ends (parenFollows_follows blank ended)
  obtain ⟨range, named, readName, ready⟩ := at_.cmdName_names names plain.notKeyword self
  obtain ⟨after, found, symbol⟩ := ready.symbol_blanks blank starts
  let empty : SimpleCommand := { name := none, arguments := [], ioRedirects := [], assignments := [] }
  let cmd : SimpleCommand := { empty with name := some (.string w false false range) }
  have noPrefix : repeatPart (cmdPrefix self) self.fuel empty parser = .done empty parser := by
    rw [fuelEq]
    exact Run.bind_of_done (at_.cmdPrefix_names names (by simp [ends.ne]) self empty)
  have noSuffix : repeatPart (cmdSuffix self) self.fuel cmd named = .done cmd after := by
    rw [fuelEq]
    exact Run.bind_of_done (cmdSuffix_none found symbol follows self cmd)
  refine ⟨cmd, after, ?_, found⟩
  unfold simpleCommand
  rw [Run.bind_of_done noPrefix, Run.bind_of_done readName]
  exact Run.bind_of_done noSuffix

theorem PlainWord.pipelineText {blanks : Str} (plain : PlainWord w)
    (blank : ∀ c ∈ blanks, isBlank c = true) : PipelineText (w ++ blanks) := by
  have starts : ∀ rest, symbolAt (w ++ blanks ++ rest) = some .token := by
    intro rest
    rw [List.append_assoc]
    exact plain.literal.symbolAt
  refine ⟨fun rest => ⟨.token, starts rest, by decide⟩, 2, fun fuel large rest parser ready follows => ?_⟩
  obtain ⟨fuel, rfl⟩ : ∃ more, fuel = more + 2 := ⟨fuel - 2, by omega⟩
  obtain ⟨found, at_, symbol⟩ := ready.symbol (starts rest)
  rw [List.append_assoc] at at_
  have ends := follows.endsWord blank
  have noParen := parenFollows_follows blank follows
  obtain ⟨sym, restStarts, follows⟩ := follows
  obtain ⟨cmd, after, readSimple, ended⟩ := simpleCommand_plain at_ plain blank restStarts follows
    (productions (fuel + 2)) (Nat.succ_ne_zero _)
  have noBang : token ['!'] parser = .done none found := by
    rw [← at_.facing.token_head_ne plain.literal ends.stops (plain.head_ne (c := '!') (by decide))]
    unfold token
    rw [Run.bind_of_done (symbol .token), Run.bind_of_done (at_.symbol .token)]
  have noAliases : applyAliases (productions (fuel + 2)) found = .done () found := by
    simp [applyAliases, at_.noAlias]
  have readCommand : command (productions (fuel + 2)) found = .done (some (.simpleCommand cmd)) after := by
    have noCompound := at_.compoundCommand_names (plain.names ends noParen) (productions (fuel + 2))
    have noError : mrshParserError found = .done none found := by simp [mrshParserError, at_.noError]
    unfold command
    rw [Run.bind_of_done noAliases, Run.bind_of_done noCompound]
    apply (Run.bind_of_done noError).trans
    exact Run.bind_of_done readSimple
  have noPipe : token ['|'] after = .done none after := by
    unfold token
    rw [Run.bind_of_done (ended.symbol .token)]
    simp only [List.mem_cons, List.not_mem_nil, or_false] at follows
    rcases follows with rfl | rfl | rfl | rfl <;> rfl
  have readMore : moreCommands (productions (fuel + 2)) (fuel + 1) [.simpleCommand cmd] after =
      .done (some [.simpleCommand cmd]) after := Run.bind_of_done noPipe
  refine ⟨{ commands := [.simpleCommand cmd], bang := false, bangPos := .invalid }, after, ?_,
    ended.ready restStarts⟩
  unfold pipeline
  rw [Run.bind_of_done noBang, Run.bind_of_done readCommand]
  exact Run.bind_of_done readMore

end Mrsh

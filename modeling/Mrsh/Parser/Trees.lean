import Mathlib.Data.List.Forall2
import Mrsh.Data.EndsAlike
import Mrsh.AstRange
import Mrsh.AstWellFormed
import Mrsh.Parser.Footprint

namespace Mrsh

open Mrsh.Data

/-! # The trees that the parser builds

Every node is built from parts that were read, so that no NULL pointer gets into a
tree. The lines of here-documents are the exception: what cannot be expanded in
them is stored all the same. They are recorded apart from the tree, until the whole
program has been read. The positions in a part of the tree are those that the parser
had while it read that part.
-/

/-- The expansions of a here-document line are all read, from the given state on. -/
inductive Expands (self : Productions) : Parser → Prop where
  | finish {parser : Parser} : charAt parser.buf 0 = '\x00' → Expands self parser
  | dollar {parser after : Parser} {child : Word} : charAt parser.buf 0 = '$' →
      expectDollar self parser = .done (some child) after → Expands self after → Expands self parser
  | backQuotes {parser after : Parser} {child : Word} : charAt parser.buf 0 = '\x60' →
      backQuotes self parser = .done (some child) after → Expands self after → Expands self parser
  | char {parser after : Parser} {c : Char} : charAt parser.buf 0 ∉ ['\x00', '$', '\x60'] →
      ¬ (charAt parser.buf 0 = '\\' ∧ charAt parser.buf 1 ∈ ['$', '\x60', '\\']) →
      parserReadChar parser = .done c after → Expands self after → Expands self parser
  | escaped {parser between after : Parser} {c next : Char} : charAt parser.buf 0 = '\\' →
      charAt parser.buf 1 ∈ ['$', '\x60', '\\'] → parserReadChar parser = .done c between →
      parserReadChar between = .done next after → Expands self after → Expands self parser

namespace Expands

variable {self : Productions} {parser : Parser}

theorem dollar_iff (dollar : charAt parser.buf 0 = '$') :
    Expands self parser ↔ ∃ child after, expectDollar self parser = .done (some child) after ∧ Expands self after := by
  refine ⟨fun expands => ?_, fun ⟨_, _, read, rest⟩ => .dollar dollar read rest⟩
  cases expands with
  | finish nul => simp [dollar] at nul
  | dollar _ read rest => exact ⟨_, _, read, rest⟩
  | backQuotes quoted => simp [dollar] at quoted
  | char plain => simp [dollar] at plain
  | escaped backslash => simp [dollar] at backslash

theorem backQuotes_iff (quoted : charAt parser.buf 0 = '\x60') :
    Expands self parser ↔ ∃ child after, Mrsh.backQuotes self parser = .done (some child) after ∧
      Expands self after := by
  refine ⟨fun expands => ?_, fun ⟨_, _, read, rest⟩ => .backQuotes quoted read rest⟩
  cases expands with
  | finish nul => simp [quoted] at nul
  | dollar dollar => simp [quoted] at dollar
  | backQuotes _ read rest => exact ⟨_, _, read, rest⟩
  | char plain => simp [quoted] at plain
  | escaped backslash => simp [quoted] at backslash

theorem char_iff {c : Char} {after : Parser} (plain : charAt parser.buf 0 ∉ ['\x00', '$', '\x60'])
    (unescaped : ¬ (charAt parser.buf 0 = '\\' ∧ charAt parser.buf 1 ∈ ['$', '\x60', '\\']))
    (read : parserReadChar parser = .done c after) : Expands self parser ↔ Expands self after := by
  refine ⟨fun expands => ?_, .char plain unescaped read⟩
  cases expands with
  | finish nul => simp [nul] at plain
  | dollar dollar => simp [dollar] at plain
  | backQuotes quoted => simp [quoted] at plain
  | char _ _ same rest =>
      rw [read] at same
      cases same
      exact rest
  | escaped backslash next => exact absurd ⟨backslash, next⟩ unescaped

theorem escaped_iff {c next : Char} {between after : Parser} (backslash : charAt parser.buf 0 = '\\')
    (quotable : charAt parser.buf 1 ∈ ['$', '\x60', '\\']) (read : parserReadChar parser = .done c between)
    (readNext : parserReadChar between = .done next after) : Expands self parser ↔ Expands self after := by
  refine ⟨fun expands => ?_, .escaped backslash quotable read readNext⟩
  cases expands with
  | finish nul => simp [backslash] at nul
  | dollar dollar => simp [backslash] at dollar
  | backQuotes quoted => simp [backslash] at quoted
  | char _ unescaped => exact absurd ⟨backslash, quotable⟩ unescaped
  | escaped _ _ same sameNext rest =>
      rw [read] at same
      cases same
      rw [readNext] at sameNext
      cases sameNext
      exact rest

end Expands

/-- A line of a here-document, with the state of the parser that reads it and the level
of the recursion that it is on. -/
structure HereLine where
  addr : Address
  text : Str
  expanded : Bool
  fuel : Nat
  before : Parser

namespace HereLine

/-- The parser of the line. -/
def subparser (line : HereLine) : Parser :=
  { mrshParserWithData line.text with nextAddress := line.before.nextAddress, bodies := line.before.bodies }

/-- The word that is stored for the line. -/
def ReadAs (line : HereLine) (word : Word) : Prop :=
  if line.expanded then
    ∃ error after, withSubparser line.text (hereDocumentLine (productions line.fuel)) line.before =
      .done (word, error) after
  else word = mrshWordStringCreate line.text true

def Readable (line : HereLine) : Prop := line.expanded = true → Expands (productions line.fuel) line.subparser

end HereLine

/-- The stored word of a line, with what makes it well-formed. -/
def StoredLine (line : HereLine) (entry : Address × Word) : Prop :=
  entry.1 = line.addr ∧ line.ReadAs entry.2 ∧ (wellFormedWord entry.2 = true ↔ line.Readable)

/-- The lines of the parser that were not stored before are recorded. -/
def Recorded (stored : List (Address × Word)) (parser : Parser) : Prop :=
  ∃ lines entries, parser.bodies = stored ++ entries ∧ List.Forall₂ StoredLine lines entries

theorem Recorded.start (parser : Parser) : Recorded parser.bodies parser := ⟨[], [], (List.append_nil _).symm, .nil⟩

/-- A part of the text that is read, with the lines that were stored before it and
those that the redirections in it get afterwards. -/
structure Stretch where
  stored : List (Address × Word)
  opens : Nat
  closes : Nat
  lines : Address → List Word

namespace Stretch

variable (stretch : Stretch)

def Covers (pos : Position) : Prop := stretch.opens ≤ pos.offset ∧ pos.offset ≤ stretch.closes

/-- What the parser of the stretch recorded lies in it. -/
def Holds (nodes : List NodeRange) : Prop :=
  ∀ node ∈ nodes, node.apart = false →
    stretch.opens ≤ node.range.begin.offset ∧ node.range.finish.offset ≤ stretch.closes

/-- The parser is behind the start, with what is known unless it leaves the stretch. -/
structure At (known : Prop) (parser : Parser) : Prop where
  recorded : Recorded stretch.stored parser
  opens : stretch.opens ≤ parser.pos.offset
  knows : parser.pos.offset ≤ stretch.closes → known

variable {stretch}

@[simp] theorem holds_nil : stretch.Holds [] := fun _ member => by cases member

@[simp] theorem holds_append {first second : List NodeRange} :
    stretch.Holds (first ++ second) ↔ stretch.Holds first ∧ stretch.Holds second := List.forall_mem_append

@[simp] theorem holds_readApart (nodes : List NodeRange) : stretch.Holds (readApart nodes) := by
  intro node member own
  obtain ⟨_, _, rfl⟩ := List.mem_map.mp member
  cases own

@[simp] theorem holds_invalid : stretch.Holds (recorded .invalid) := holds_nil

theorem holds_recorded {range : Range} (begins : range.begin.valid = true → stretch.Covers range.begin)
    (ends : stretch.Covers range.finish) : stretch.Holds (recorded range) := by
  unfold recorded
  split
  next valid => exact fun node member _ => List.mem_singleton.mp member ▸ ⟨(begins valid).1, ends.2⟩
  next => exact holds_nil

theorem At.mono {known weaker : Prop} {parser : Parser} (at_ : stretch.At known parser) (weakens : known → weaker) :
    stretch.At weaker parser := ⟨at_.recorded, at_.opens, fun inside => weakens (at_.knows inside)⟩

end Stretch

/-- A part of a tree that is well-formed and lies in the stretch. -/
structure Good (stretch : Stretch) (wellFormed : Bool) (nodes : List NodeRange) : Prop where
  wellFormed : wellFormed = true
  within : stretch.Holds nodes

variable {α β γ : Type}

/-- What the part of the parser returns is good, and the lines that it stores are recorded. -/
abbrev Builds (stretch : Stretch) (known : Prop) (good : α → Prop) (parse : Parse α) : Prop :=
  Run.EndsAlike (stretch.At known) (fun _ : Stop => True) (fun value => stretch.At (known ∧ good value)) parse parse

abbrev Yields (stretch : Stretch) (known : Prop) (good : α → Prop) (parse : Parse (Option α)) : Prop :=
  Builds stretch known (fun value => ∀ result ∈ value, good result) parse

/-- Reading stores no lines and goes forward. -/
def Forward (before after : Parser) : Prop := after.bodies = before.bodies ∧ before.pos.offset ≤ after.pos.offset

theorem allowsReading_forward : AllowsReading Forward where
  refl := ⟨fun _ => ⟨rfl, Nat.le_refl _⟩⟩
  trans := ⟨fun _ _ _ first second => ⟨second.1.trans first.1, Nat.le_trans first.2 second.2⟩⟩
  readChar parser c _ _ := by
    refine ⟨rfl, ?_⟩
    dsimp only [Position.advance]
    split
    · exact Nat.le_succ _
    · exact Nat.le_succ _
  symbol _ _ _ := ⟨rfl, Nat.le_refl _⟩
  continuation _ := ⟨rfl, Nat.le_refl _⟩
  error _ _ _ := ⟨rfl, Nat.le_refl _⟩

section

variable {stretch : Stretch} {known : Prop} {good : α → Prop} {better : β → Prop}

theorem Recorded.forward {stored : List (Address × Word)} {before after : Parser} (recorded : Recorded stored before)
    (forward : Forward before after) : Recorded stored after := by
  obtain ⟨lines, entries, bodies, ofLines⟩ := recorded
  exact ⟨lines, entries, forward.1.trans bodies, ofLines⟩

theorem Stretch.At.forward {before after : Parser} (at_ : stretch.At known before) (forward : Forward before after) :
    stretch.At known after where
  recorded := at_.recorded.forward forward
  opens := Nat.le_trans at_.opens forward.2
  knows inside := at_.knows (Nat.le_trans forward.2 inside)

namespace Builds

theorem pure {value : α} (isGood : known → good value) : Builds stretch known good (pure value) :=
  Run.EndsAlike.pure fun _ at_ => at_.mono fun knows => ⟨knows, isGood knows⟩

theorem stop (reason : Stop) : Builds stretch known good (Run.stop reason : Parse α) := Run.EndsAlike.stop trivial

theorem bindAs {first : Parse α} {next : α → Parse β} {middle : α → Prop}
    (firstBuilds : Builds stretch known good first)
    (learns : ∀ value, known → good value → middle value) (keeps : ∀ value, middle value → known)
    (nextBuilds : ∀ value, Builds stretch (middle value) better (next value)) :
    Builds stretch known better (first >>= next) :=
  Run.EndsAlike.bind firstBuilds fun value =>
    Run.EndsAlike.consequence (nextBuilds value) (fun _ at_ => at_.mono fun both => learns value both.1 both.2)
      fun _ _ at_ => at_.mono fun both => ⟨keeps value both.1, both.2⟩

theorem bind {first : Parse α} {next : α → Parse β} (firstBuilds : Builds stretch known good first)
    (nextBuilds : ∀ value, Builds stretch (known ∧ good value) better (next value)) :
    Builds stretch known better (first >>= next) :=
  firstBuilds.bindAs (fun _ => And.intro) (fun _ => And.left) nextBuilds

theorem ite {condition : Prop} [Decidable condition] {yes no : Parse α}
    (yesBuilds : condition → Builds stretch known good yes) (noBuilds : ¬ condition → Builds stretch known good no) :
    Builds stretch known good (if condition then yes else no) :=
  Run.EndsAlike.ite yesBuilds noBuilds

theorem quiet {first : Parse α} {next : α → Parse β} (respects : Run.Respects Forward first)
    (nextBuilds : ∀ value, Builds stretch known better (next value)) :
    Builds stretch known better (first >>= next) := by
  have firstBuilds : Builds stretch known (fun _ => True) first := by
    refine fun parser at_ => ⟨rfl, ?_⟩
    have forward := respects parser
    cases ended : first parser with
    | done value after =>
        rw [ended] at forward
        exact (at_.forward forward).mono fun knows => ⟨knows, trivial⟩
    | stopped reason after => trivial
  exact firstBuilds.bindAs (fun _ knows _ => knows) (fun _ knows => knows) nextBuilds

theorem done {parse : Parse α} (builds : Builds stretch known good parse) {parser after : Parser} {value : α}
    (at_ : stretch.At known parser) (ended : parse parser = .done value after) :
    stretch.At (known ∧ good value) after := by
  have reached := (builds parser at_).2
  rw [ended] at reached
  exact reached

/-- What is built in every stretch is built in the one that is read. -/
theorem reaches {part : Stretch → α → Prop} {parse : Parse α}
    (builds : ∀ stretch, Builds stretch True (part stretch) parse)
    {stored : List (Address × Word)} (lines : Address → List Word) {parser after : Parser} {value : α}
    (recorded : Recorded stored parser) (ended : parse parser = .done value after) :
    Recorded stored after ∧ parser.pos.offset ≤ after.pos.offset ∧
      part ⟨stored, parser.pos.offset, after.pos.offset, lines⟩ value := by
  have reached := (builds ⟨stored, parser.pos.offset, after.pos.offset, lines⟩).done
    ⟨recorded, Nat.le_refl _, fun _ => trivial⟩ ended
  exact ⟨reached.recorded, reached.opens, (reached.knows (Nat.le_refl _)).2⟩

end Builds

namespace Yields

theorem nothing : Yields stretch known good (pure none) := Builds.pure fun _ _ member => by cases member

theorem some {value : α} (isGood : known → good value) : Yields stretch known good (pure (some value)) :=
  Builds.pure fun knows _ member => by cases member; exact isGood knows

theorem bind {first : Parse (Option α)} {next : Option α → Parse β} (firstYields : Yields stretch known good first)
    (noneBuilds : Builds stretch known better (next none))
    (someBuilds : ∀ value, Builds stretch (known ∧ good value) better (next (Option.some value))) :
    Builds stretch known better (first >>= next) := by
  let middle : Option α → Prop := fun value => value.elim known fun value => known ∧ good value
  have learns : ∀ value, known → (∀ result ∈ value, good result) → middle value := fun value knows isGood =>
    match value with
    | none => knows
    | Option.some value => ⟨knows, isGood value rfl⟩
  have keeps : ∀ value, middle value → known := fun value knows =>
    match value with
    | none => knows
    | Option.some _ => knows.1
  refine firstYields.bindAs learns keeps fun value => ?_
  match value with
  | none => exact noneBuilds
  | Option.some value => exact someBuilds value

theorem weaken {worse : α → Prop} {first : Parse (Option α)} (firstYields : Yields stretch known good first)
    (weaker : ∀ value, good value → worse value) : Yields stretch known worse first :=
  Run.EndsAlike.consequence firstYields (fun _ at_ => at_) fun _ _ at_ =>
    at_.mono fun both => ⟨both.1, fun result member => weaker result (both.2 result member)⟩

theorem map {change : α → β} {first : Parse (Option α)} (firstYields : Yields stretch known good first)
    (keeps : ∀ value, good value → better (change value)) :
    Yields stretch known better (do pure ((← first).map change)) :=
  bind firstYields nothing fun value => some fun knows => keeps value knows.2

end Yields

/-! ## Positions and tokens -/

theorem gets_builds {read : Parser → α} {next : α → Parse β}
    (nextBuilds : ∀ value, Builds stretch known better (next value)) :
    Builds stretch known better (Run.gets read >>= next) :=
  Builds.quiet (allowsReading_forward.gets _) nextBuilds

theorem getPos_builds {next : Position → Parse β}
    (nextBuilds : ∀ pos, Builds stretch (known ∧ stretch.Covers pos) better (next pos)) :
    Builds stretch known better (getPos >>= next) := by
  refine Run.EndsAlike.gets_bind fun parser at_ => ?_
  refine Run.EndsAlike.consequence (nextBuilds parser.pos) ?_ fun _ _ ended => ended.mono fun both => ⟨both.1.1, both.2⟩
  rintro state rfl
  exact ⟨at_.recorded, at_.opens, fun inside => ⟨at_.knows inside, at_.opens, inside⟩⟩

theorem readChar_builds {next : Char → Parse β} (nextBuilds : ∀ c, Builds stretch known better (next c)) :
    Builds stretch known better (parserReadChar >>= next) :=
  Builds.quiet (parserReadChar_respects allowsReading_forward) nextBuilds

theorem modify_builds {change : Parser → Parser} {next : Unit → Parse β}
    (kept : ∀ parser, (change parser).bodies = parser.bodies ∧ (change parser).pos = parser.pos)
    (nextBuilds : ∀ value, Builds stretch known better (next value)) :
    Builds stretch known better (Run.modify change >>= next) :=
  Builds.quiet (.modify fun parser => ⟨(kept parser).1, (kept parser).2 ▸ Nat.le_refl _⟩) nextBuilds

theorem assert_builds {condition : Bool} {next : Unit → Parse β}
    (nextBuilds : ∀ value, Builds stretch known better (next value)) :
    Builds stretch known better (assert condition >>= next) :=
  Builds.quiet (assert_respects allowsReading_forward _) nextBuilds

theorem symbol_builds {sym : SymbolName} {next : Bool → Parse β}
    (nextBuilds : ∀ value, Builds stretch known better (next value)) :
    Builds stretch known better (symbol sym >>= next) :=
  Builds.quiet (symbol_respects allowsReading_forward _) nextBuilds

theorem consumeSymbol_builds {next : Unit → Parse β} (nextBuilds : ∀ value, Builds stretch known better (next value)) :
    Builds stretch known better (consumeSymbol >>= next) :=
  Builds.quiet (consumeSymbol_respects allowsReading_forward) nextBuilds

theorem continuationLine_builds {next : Unit → Parse β}
    (nextBuilds : ∀ value, Builds stretch known better (next value)) :
    Builds stretch known better (readContinuationLine >>= next) :=
  Builds.quiet (readContinuationLine_respects allowsReading_forward) nextBuilds

theorem failed_yields (msg : Str) : Yields stretch known good (do parserSetError msg; pure none) :=
  Builds.quiet (parserSetError_respects allowsReading_forward _) fun _ => Yields.nothing

abbrev GoodRange (stretch : Stretch) (range : Range) : Prop := stretch.Holds (recorded range)

theorem token_consumed_yields {begin : Position} (begins : known → stretch.Covers begin) :
    Yields stretch known (GoodRange stretch) (token.consumed begin) :=
  getPos_builds fun _ => consumeSymbol_builds fun _ =>
    Yields.some fun ⟨knows, covered⟩ => Stretch.holds_recorded (fun _ => begins knows) covered

theorem token_wholeWord_yields {str : Str} {begin : Position} (begins : known → stretch.Covers begin) :
    Yields stretch known (GoodRange stretch) (token.wholeWord str begin) := by
  refine Builds.quiet (peekWord_respects allowsReading_forward _) fun wordLen => gets_builds fun buf => ?_
  refine Builds.ite (fun _ => ?_) fun _ => Yields.nothing
  exact Builds.quiet (parserRead_respects allowsReading_forward _) fun _ => token_consumed_yields begins

theorem token_yields (str : Str) : Yields stretch known (GoodRange stretch) (token str) := by
  refine symbol_builds fun _ => Builds.ite (fun _ => getPos_builds fun begin => ?_) fun _ => Yields.nothing
  match str with
  | [] => exact token_wholeWord_yields And.right
  | [c] =>
      refine Builds.ite (fun _ => token_wholeWord_yields And.right) fun _ => gets_builds fun next => ?_
      exact Builds.ite (fun _ => readChar_builds fun _ => token_consumed_yields And.right) fun _ => Yields.nothing
  | _ :: _ :: _ => exact token_wholeWord_yields And.right

theorem tokenOr_yields (str msg : Str) : Yields stretch known (GoodRange stretch) (tokenOr str msg) :=
  (token_yields str).bind (failed_yields _) fun _ => Yields.some And.right

theorem expectToken_yields (str : Str) : Yields stretch known (GoodRange stretch) (expectToken str) :=
  tokenOr_yields str _

theorem readToken_yields (len : Nat) : Yields stretch known (fun name => GoodRange stretch name.2) (readToken len) := by
  refine symbol_builds fun _ => Builds.ite (fun _ => getPos_builds fun begin => ?_) fun _ => Yields.nothing
  refine Builds.quiet (parserRead_respects allowsReading_forward _) fun _ => getPos_builds fun finish => ?_
  exact consumeSymbol_builds fun _ =>
    Yields.some fun ⟨⟨_, begins⟩, ends⟩ => Stretch.holds_recorded (fun _ => begins) ends

/-! ## Words -/

abbrev GoodWord (stretch : Stretch) (word : Word) : Prop :=
  Good stretch (wellFormedWord word) (wordRanges (fillWord stretch.lines word))

abbrev GoodWords (stretch : Stretch) (words : List Word) : Prop :=
  Good stretch (wellFormedWords words) (wordsRanges (fillWords stretch.lines words))

abbrev GoodProgram (stretch : Stretch) (program : Program) : Prop :=
  Good stretch (wellFormedProgram program) (listsRanges (fillProgram stretch.lines program).body)

abbrev GoodAndOr (stretch : Stretch) (andOrList : AndOrList) : Prop :=
  Good stretch (wellFormedAndOrList andOrList) (andOrListRanges (fillAndOrList stretch.lines andOrList))

abbrev GoodCommand (stretch : Stretch) (cmd : Command) : Prop :=
  Good stretch (wellFormedCommand cmd) (commandRanges (fillCommand stretch.lines cmd))

/-- The recursive calls build trees. -/
structure Builders (calls : Productions) : Prop where
  level : ∃ fuel, calls = productions fuel
  word : ∀ {stretch known} stop, Yields stretch known (GoodWord stretch) (calls.word stop)
  arithmeticWord : ∀ {stretch known} stop, Yields stretch known (GoodWord stretch) (calls.arithmeticWord stop)
  mrshParseProgram : ∀ {stretch known}, Yields stretch known (GoodProgram stretch) calls.mrshParseProgram
  andOr : ∀ {stretch known}, Yields stretch known (GoodAndOr stretch) calls.andOr
  elsePart : ∀ {stretch known}, Yields stretch known (GoodCommand stretch) calls.elsePart
  compoundCommand : ∀ {stretch known}, Yields stretch known (GoodCommand stretch) calls.compoundCommand

theorem wordsRanges_fill_append (lines : Address → List Word) (first second : List Word) :
    wordsRanges (fillWords lines (first ++ second)) =
      wordsRanges (fillWords lines first) ++ wordsRanges (fillWords lines second) := by
  induction first with
  | nil => rfl
  | cons word words ih => simp only [List.cons_append, fillWords, wordsRanges, ih, List.append_assoc]

theorem Good.and {first second : Bool} {nodes more : List NodeRange} (isGood : Good stretch first nodes)
    (moreGood : Good stretch second more) : Good stretch (first && second) (nodes ++ more) :=
  ⟨by rw [isGood.wellFormed, moreGood.wellFormed]; rfl, Stretch.holds_append.mpr ⟨isGood.within, moreGood.within⟩⟩

theorem GoodWords.append {first second : List Word} (isGood : GoodWords stretch first)
    (moreGood : GoodWords stretch second) :
    GoodWords stretch (first ++ second) := by
  have both := isGood.and moreGood
  rwa [← wellFormedWords_append, ← wordsRanges_fill_append] at both

theorem GoodWord.alone {word : Word} (isGood : GoodWord stretch word) : GoodWords stretch [word] :=
  ⟨by simp [wellFormedWords, isGood.wellFormed], by simp [fillWords, wordsRanges, isGood.within]⟩

structure GoodBuilder (stretch : Stretch) (builder : WordBuilder) : Prop where
  children : GoodWords stretch builder.children
  begins : builder.childBegin.valid = true → stretch.Covers builder.childBegin

namespace GoodBuilder

variable {builder : WordBuilder}

theorem empty : GoodBuilder stretch .empty := ⟨⟨rfl, Stretch.holds_nil⟩, fun valid => by cases valid⟩

theorem startAt (isGood : GoodBuilder stretch builder) {pos : Position} (covered : stretch.Covers pos) :
    GoodBuilder stretch (builder.startAt pos) := by
  unfold WordBuilder.startAt
  split
  · exact isGood
  · exact ⟨isGood.children, fun _ => covered⟩

theorem appendChar (isGood : GoodBuilder stretch builder) (c : Char) : GoodBuilder stretch (builder.appendChar c) :=
  ⟨isGood.children, isGood.begins⟩

theorem push (isGood : GoodBuilder stretch builder) {pos : Position} (covered : stretch.Covers pos) :
    GoodBuilder stretch (builder.push pos) := by
  unfold WordBuilder.push
  split
  · exact ⟨isGood.children, fun valid => by cases valid⟩
  · have text : GoodWord stretch (.string builder.buf false false ⟨builder.childBegin, pos⟩) :=
      ⟨rfl, Stretch.holds_recorded isGood.begins covered⟩
    exact ⟨isGood.children.append text.alone, fun valid => by cases valid⟩

theorem add (isGood : GoodBuilder stretch builder) {child : Word} (childGood : GoodWord stretch child) :
    GoodBuilder stretch (builder.add child) :=
  ⟨isGood.children.append childGood.alone, isGood.begins⟩

end GoodBuilder

theorem GoodWords.only {child : Word} (isGood : GoodWords stretch [child]) : GoodWord stretch child :=
  ⟨by simpa [wellFormedWords] using isGood.wellFormed, by simpa [fillWords, wordsRanges] using isGood.within⟩

theorem GoodWords.list {children : List Word} (isGood : GoodWords stretch children) :
    GoodWord stretch (mrshWordListCreate children false) := isGood

theorem GoodBuilder.word {builder : WordBuilder} (isGood : GoodBuilder stretch builder) :
    GoodWord stretch builder.word := by
  have children := isGood.children
  unfold WordBuilder.word
  split
  next child only =>
      rw [only] at children
      exact children.only
  next => exact children.list

theorem nestedWord_yields {builder : WordBuilder} (isGood : known → GoodBuilder stretch builder)
    {child : Parse (Option Word)} {continue_ : WordBuilder → Parse (Option Word)}
    (childYields : ∀ {known}, Yields stretch known (GoodWord stretch) child)
    (rest : ∀ {known builder}, (known → GoodBuilder stretch builder) →
      Yields stretch known (GoodWord stretch) (continue_ builder)) :
    Yields stretch known (GoodWord stretch) (nestedWord builder child continue_) :=
  getPos_builds fun _ => childYields.bind Yields.nothing fun _ =>
    rest fun ⟨⟨knows, covered⟩, childGood⟩ => ((isGood knows).push covered).add childGood

theorem finishWord_yields {builder : WordBuilder} (isGood : known → GoodBuilder stretch builder) :
    Yields stretch known (GoodWord stretch) (finishWord builder) :=
  getPos_builds fun _ => consumeSymbol_builds fun _ =>
    Yields.some fun ⟨knows, covered⟩ => ((isGood knows).push covered).word

theorem singleQuotesLoop_yields {begin : Position} (begins : known → stretch.Covers begin) (fuel : Nat) (buf : Str) :
    Yields stretch known (GoodWord stretch) (singleQuotesLoop begin fuel buf) := by
  induction fuel generalizing buf with
  | zero => exact Builds.stop _
  | succ fuel ih =>
      refine gets_builds fun c => Builds.ite (fun _ => failed_yields _) fun _ => Builds.ite (fun _ => ?_) fun _ => ?_
      · refine readChar_builds fun _ => getPos_builds fun _ => Yields.some fun ⟨knows, ends⟩ => ?_
        exact ⟨rfl, Stretch.holds_recorded (fun _ => begins knows) ends⟩
      refine Builds.ite (fun _ => ?_) fun _ => readChar_builds fun _ => ih _
      exact continuationLine_builds fun _ => ih _

theorem singleQuotes_yields : Yields stretch known (GoodWord stretch) singleQuotes :=
  getPos_builds fun _ => readChar_builds fun _ => assert_builds fun _ => gets_builds fun _ =>
    singleQuotesLoop_yields And.right _ _

theorem readBlanks_respects {relation : Parser → Parser → Prop} (allows : AllowsReading relation) (fuel : Nat)
    (buf : Str) : Run.Respects relation (readBlanks fuel buf) := by
  induction fuel generalizing buf with
  | zero => exact allows.stop _
  | succ fuel ih =>
      refine allows.bind (allows.gets _) fun c => .ite (fun _ => ?_) fun _ => allows.pure _
      exact allows.bind (parserReadChar_respects allows) fun _ => ih _

theorem wordListLoop_builds (stop : Char) {f : Char → Parse (Option Word)}
    (yields : ∀ {known}, Yields stretch known (GoodWord stretch) (f stop)) (fuel : Nat) {children : List Word}
    (isGood : known → GoodWords stretch children) :
    Builds stretch known (GoodWords stretch) (wordListLoop stop f fuel children) := by
  induction fuel generalizing children known with
  | zero => exact Builds.stop _
  | succ fuel ih =>
      refine gets_builds fun c => Builds.ite (fun _ => Builds.pure isGood) fun _ => ?_
      refine yields.bind (Builds.pure isGood) fun child => getPos_builds fun begin => gets_builds fun _ => ?_
      refine Builds.quiet (readBlanks_respects allowsReading_forward _ _) fun buf => ?_
      refine Builds.ite (fun _ => Builds.pure ?_) fun _ => getPos_builds fun finish => ih ?_
      · exact fun ⟨⟨knows, childGood⟩, _⟩ => (isGood knows).append childGood.alone
      · rintro ⟨⟨⟨knows, childGood⟩, begins⟩, ends⟩
        have blanks : GoodWord stretch (.string buf false false ⟨begin, finish⟩) :=
          ⟨rfl, Stretch.holds_recorded (fun _ => begins) ends⟩
        exact (isGood knows).append (childGood.alone.append blanks.alone)

theorem wordList_yields (stop : Char) {f : Char → Parse (Option Word)}
    (yields : ∀ {known}, Yields stretch known (GoodWord stretch) (f stop)) :
    Yields stretch known (GoodWord stretch) (wordList stop f) := by
  have empty : known → GoodWords stretch [] := fun _ => ⟨rfl, Stretch.holds_nil⟩
  refine gets_builds fun fuel => Builds.bind (wordListLoop_builds stop yields fuel empty) fun children => ?_
  rcases children with _ | ⟨first, _ | ⟨second, rest⟩⟩
  · exact Yields.nothing
  · exact Yields.some fun knows => knows.2.only
  · exact Yields.some fun knows => knows.2.list

/-! ## Expansions -/

theorem expectParameterOp_respects {relation : Parser → Parser → Prop} (allows : AllowsReading relation) :
    Run.Respects relation expectParameterOp := by
  refine allows.bind (parserReadChar_respects allows) fun first => ?_
  refine .ite (fun _ => allows.bind (parserReadChar_respects allows) fun c => ?_) fun _ =>
    allows.bind (allows.pure _) fun c => ?_
  all_goals
    have failed : ∀ msg, Run.Respects relation
      (do parserSetError msg; pure none : Parse (Option (ParameterOp × Bool))) :=
      fun msg => allows.bind (parserSetError_respects allows _) fun _ => allows.pure _
    refine .ite (fun _ => allows.pure _) fun _ => .ite (fun _ => failed _) fun _ => ?_
    refine allows.bind (allows.gets _) fun next => ?_
    dsimp only
    generalize (if (c == '%') = true then some (if (c == next) = true then ParameterOp.dpercent else .percent)
      else if (c == '#') = true then some (if (c == next) = true then ParameterOp.dhash else .hash)
      else none) = operation
    match operation with
    | none => exact failed _
    | some op =>
        exact .ite (fun _ => allows.bind (parserReadChar_respects allows) fun _ => allows.pure _) fun _ => allows.pure _

variable {self : Productions} (builders : Builders self)
include builders

theorem parameterOperation_yields {op : ParameterOp} {opRange : Range} (isGood : known → GoodRange stretch opRange) :
    Yields stretch known (fun operation => GoodRange stretch operation.2.2.1 ∧
      ∀ arg ∈ operation.2.2.2, GoodWord stretch arg) (parameterOperation self op opRange) := by
  refine gets_builds fun c => Builds.ite (fun _ => ?_) fun _ =>
    Yields.some fun knows => ⟨isGood knows, fun _ member => by cases member⟩
  refine getPos_builds fun begin => Builds.quiet (expectParameterOp_respects allowsReading_forward) fun operation => ?_
  match operation with
  | none => exact Yields.nothing
  | some (op, colon) =>
      refine getPos_builds fun finish => Builds.bind (wordList_yields '}' (builders.word '}')) fun arg => ?_
      exact Yields.some fun ⟨⟨⟨_, begins⟩, ends⟩, argGood⟩ => ⟨Stretch.holds_recorded (fun _ => begins) ends, argGood⟩

omit builders in
theorem goodWord_parameter {wp : WordParameter} (name : GoodRange stretch wp.nameRange)
    (op : GoodRange stretch wp.opRange)
    (arg : ∀ arg ∈ wp.arg, GoodWord stretch arg) : GoodWord stretch (.parameter wp) := by
  obtain ⟨_, _, _, argument, _, _, _, _, _⟩ := wp
  cases argument with
  | none => exact ⟨rfl, by simp [fillWord, fillParameter, wordRanges, name, op]⟩
  | some word =>
      have argGood := arg word rfl
      exact ⟨argGood.wellFormed, by simp [fillWord, fillParameter, wordRanges, name, op, argGood.within]⟩

theorem expectParameterExpression_yields (dollarPos : Position) :
    Yields stretch known (GoodWord stretch) (expectParameterExpression self dollarPos) := by
  refine gets_builds fun lbracePos => readChar_builds fun c => ?_
  refine assert_builds fun _ => gets_builds fun leading => getPos_builds fun opBegin => ?_
  have operation {known : Prop} {op : ParameterOp} {opRange : Range} (isGood : known → GoodRange stretch opRange) :
      Builds stretch known (fun operation => GoodRange stretch operation.2) (pure (op, opRange) : Parse _) :=
        Builds.pure isGood
  refine Builds.ite (fun _ => readChar_builds fun _ => getPos_builds fun finish =>
    Builds.bind (operation fun knows => Stretch.holds_recorded (fun _ => knows.1.2) knows.2) fun operation => ?_)
      fun _ =>
    Builds.bind (operation fun _ => Stretch.holds_invalid) fun operation => ?_
  all_goals
    obtain ⟨op, opRange⟩ := operation
    refine Builds.quiet (peekName_respects allowsReading_forward _) fun nameLen =>
      Builds.ite (fun _ => failed_yields _) fun _ => ?_
    refine (readToken_yields _).bind Yields.nothing fun name => ?_
    refine (parameterOperation_yields builders fun knows => knows.1.2).bind Yields.nothing fun operation => ?_
    refine gets_builds fun rbracePos => readChar_builds fun c => Builds.ite (fun _ => failed_yields _) fun _ => ?_
    exact Yields.some fun ⟨⟨_, nameGood⟩, operationGood⟩ => goodWord_parameter nameGood operationGood.1 operationGood.2

theorem expectWordCommand_yields : Yields stretch known (GoodWord stretch) (expectWordCommand self) := by
  refine readChar_builds fun c => assert_builds fun _ => symbol_builds fun isToken => assert_builds fun _ => ?_
  refine consumeSymbol_builds fun _ => gets_builds fun aliasFunc => modify_builds (fun _ => ⟨rfl, rfl⟩) fun _ => ?_
  refine Builds.bind builders.mrshParseProgram fun prog => modify_builds (fun _ => ⟨rfl, rfl⟩) fun _ => ?_
  refine gets_builds fun error => ?_
  match error, prog with
  | some _, _ => exact Yields.nothing
  | none, none => exact failed_yields _
  | none, some prog =>
      refine (expectToken_yields _).bind Yields.nothing fun _ => Yields.some fun ⟨⟨_, isGood⟩, _⟩ => ?_
      have progGood := isGood prog rfl
      obtain ⟨body⟩ := prog
      exact ⟨progGood.wellFormed, progGood.within⟩

theorem expectWordArithmetic_yields : Yields stretch known (GoodWord stretch) (expectWordArithmetic self) := by
  refine readChar_builds fun c => assert_builds fun _ => readChar_builds fun c => assert_builds fun _ => ?_
  refine modify_builds (fun _ => ⟨rfl, rfl⟩) fun _ => ?_
  refine (wordList_yields '\x00' (builders.arithmeticWord '\x00')).bind (gets_builds fun error => ?_) fun body => ?_
  · match error with
    | some _ => exact Yields.nothing
    | none => exact failed_yields _
  · refine (expectToken_yields _).bind Yields.nothing fun _ => (expectToken_yields _).bind Yields.nothing fun _ => ?_
    exact Yields.some fun ⟨⟨⟨_, isGood⟩, _⟩, _⟩ => isGood

theorem expectDollar_yields : Yields stretch known (GoodWord stretch) (expectDollar self) := by
  refine gets_builds fun dollarPos => readChar_builds fun c => assert_builds fun _ => gets_builds fun c => ?_
  refine Builds.ite (fun _ => expectParameterExpression_yields builders dollarPos) fun _ => ?_
  refine Builds.ite (fun _ => gets_builds fun next => ?_) fun _ => ?_
  · exact Builds.ite (fun _ => expectWordArithmetic_yields builders) fun _ => expectWordCommand_yields builders
  refine Builds.quiet (peekName_respects allowsReading_forward _) fun nameLen =>
    Builds.ite (fun _ => failed_yields _) fun _ => ?_
  refine (readToken_yields _).bind Yields.nothing fun name => Yields.some fun knows => ?_
  exact goodWord_parameter knows.2 Stretch.holds_invalid fun _ member => by cases member

omit builders in
theorem withSubparser_builds (buf : Str) {part : Stretch → α → Prop} {parse : Parse α}
    (builds : ∀ stretch, Builds stretch True (part stretch) parse) :
    Builds stretch known (fun result : α × Option Str => ∃ opens closes,
      part { stretch with opens, closes } result.1) (withSubparser buf parse) := by
  refine fun parser at_ => ⟨rfl, ?_⟩
  unfold withSubparser
  cases ended : parse { mrshParserWithData buf with nextAddress := parser.nextAddress, bodies := parser.bodies } with
  | done value sub =>
      have started : Recorded stretch.stored
          { mrshParserWithData buf with nextAddress := parser.nextAddress, bodies := parser.bodies } := at_.recorded
      obtain ⟨recorded, _, isPart⟩ := Builds.reaches builds stretch.lines started ended
      exact ⟨recorded, at_.opens, fun inside => ⟨at_.knows inside, _, _, isPart⟩⟩
  | stopped reason sub => trivial

omit builders in
theorem backQuotesText_respects {relation : Parser → Parser → Prop} (allows : AllowsReading relation) (fuel : Nat)
    (buf : Str) : Run.Respects relation (backQuotesText fuel buf) := by
  induction fuel generalizing buf with
  | zero => exact allows.stop _
  | succ fuel ih =>
      have read : ∀ c, Run.Respects relation (parserReadChar >>= fun _ => backQuotesText fuel (buf ++ [c])) := fun c =>
        allows.bind (parserReadChar_respects allows) fun _ => ih _
      have continued : ∀ c, Run.Respects relation (readContinuationLine >>= fun _ =>
        backQuotesText fuel (buf ++ [c])) :=
        fun c => allows.bind (readContinuationLine_respects allows) fun _ => ih _
      refine allows.bind (allows.gets _) fun c => .ite (fun _ => ?_) fun _ => .ite (fun _ => ?_) fun _ => ?_
      · exact allows.bind (parserSetError_respects allows _) fun _ => allows.pure _
      · exact allows.bind (parserReadChar_respects allows) fun _ => allows.pure _
      refine allows.bind (allows.gets _) fun next => .ite (fun _ => ?_) fun _ => ?_
      · refine allows.bind (parserReadChar_respects allows) fun _ => ?_
        exact .ite (fun _ => continued _) fun _ => read _
      · exact .ite (fun _ => continued _) fun _ => read _

theorem backQuotes_yields : Yields stretch known (GoodWord stretch) (backQuotes self) := by
  refine getPos_builds fun begin => readChar_builds fun c => assert_builds fun _ => gets_builds fun fuel => ?_
  refine Builds.quiet (backQuotesText_respects allowsReading_forward _ _) fun text => ?_
  match text with
  | none => exact Yields.nothing
  | some buf =>
      refine Builds.bind (withSubparser_builds buf fun _ => builders.mrshParseProgram) fun parsed => ?_
      obtain ⟨prog, error⟩ := parsed
      cases error with
      | some errMsg => exact failed_yields _
      | none =>
          refine getPos_builds fun finish => Yields.some ?_
          rintro ⟨⟨⟨_, begins⟩, _, _, isGood⟩, ends⟩
          have within : GoodRange stretch ⟨begin, finish⟩ := Stretch.holds_recorded (fun _ => begins) ends
          cases prog with
          | none => exact ⟨rfl, within⟩
          | some prog =>
              have progGood := isGood prog rfl
              obtain ⟨body⟩ := prog
              exact ⟨progGood.wellFormed, by simp [fillWord, fillProgram, wordRanges, within]⟩

theorem doubleQuotesLoop_yields (lquotePos : Position) (fuel : Nat) {builder : WordBuilder}
    (isGood : known → GoodBuilder stretch builder) :
    Yields stretch known (GoodWord stretch) (doubleQuotesLoop self lquotePos fuel builder) := by
  induction fuel generalizing builder known with
  | zero => exact Builds.stop _
  | succ fuel ih =>
      refine getPos_builds fun pos => ?_
      have started : known ∧ stretch.Covers pos → GoodBuilder stretch (builder.startAt pos) :=
        fun ⟨knows, covered⟩ => (isGood knows).startAt covered
      refine gets_builds fun c => Builds.ite (fun _ => failed_yields _) fun _ => Builds.ite (fun _ => ?_) fun _ => ?_
      · refine readChar_builds fun _ => Yields.some fun knows => ?_
        exact ((started knows).push knows.2).children
      refine Builds.ite (fun _ => nestedWord_yields started (expectDollar_yields builders) ih) fun _ => ?_
      refine Builds.ite (fun _ => nestedWord_yields started (backQuotes_yields builders) ih) fun _ => ?_
      refine gets_builds fun next => Builds.ite (fun _ => readChar_builds fun _ => ?_) fun _ => ?_
      · exact continuationLine_builds fun _ => ih started
      refine Builds.ite (fun _ => readChar_builds fun _ => ?_) fun _ => ?_
      · exact readChar_builds fun _ => ih fun knows => (started knows).appendChar _
      · exact readChar_builds fun _ => ih fun knows => (started knows).appendChar _

theorem doubleQuotes_yields : Yields stretch known (GoodWord stretch) (doubleQuotes self) :=
  gets_builds fun _ => readChar_builds fun _ => assert_builds fun _ => gets_builds fun _ =>
    doubleQuotesLoop_yields builders _ _ fun _ => .empty

theorem wordLoop_yields (stop : Char) (fuel : Nat) {builder : WordBuilder}
    (isGood : known → GoodBuilder stretch builder) :
    Yields stretch known (GoodWord stretch) (wordLoop self stop fuel builder) := by
  induction fuel generalizing builder known with
  | zero => exact Builds.stop _
  | succ fuel ih =>
      refine getPos_builds fun pos => ?_
      have started : known ∧ stretch.Covers pos → GoodBuilder stretch (builder.startAt pos) :=
        fun ⟨knows, covered⟩ => (isGood knows).startAt covered
      have appended (c : Char) (knows : known ∧ stretch.Covers pos) := (started knows).appendChar c
      refine gets_builds fun c => Builds.ite (fun _ => finishWord_yields started) fun _ => ?_
      refine Builds.ite (fun _ => nestedWord_yields started (expectDollar_yields builders) ih) fun _ => ?_
      refine Builds.ite (fun _ => nestedWord_yields started (backQuotes_yields builders) ih) fun _ => ?_
      refine Builds.ite (fun _ => nestedWord_yields started singleQuotes_yields ih) fun _ => ?_
      refine Builds.ite (fun _ => nestedWord_yields started (doubleQuotes_yields builders) ih) fun _ => ?_
      refine Builds.ite (fun _ => readChar_builds fun _ => gets_builds fun c => ?_) fun _ => ?_
      · refine Builds.ite (fun _ => ?_) fun _ => readChar_builds fun _ => ih (appended _)
        exact continuationLine_builds fun _ => ih started
      · exact Builds.ite (fun _ => finishWord_yields started) fun _ => readChar_builds fun _ => ih (appended _)

theorem word_yields (stop : Char) : Yields stretch known (GoodWord stretch) (word self stop) := by
  refine symbol_builds fun isToken => Builds.ite (fun _ => gets_builds fun c => ?_) fun _ => Yields.nothing
  exact Builds.ite (fun _ => Yields.nothing) fun _ => gets_builds fun _ => wordLoop_yields builders stop _ fun _ =>
    .empty

omit builders in
theorem countParen_respects {relation : Parser → Parser → Prop} (allows : AllowsReading relation)
    (counts : ∀ (parser : Parser) nested, relation parser { parser with arithNestedParens := nested }) (c : Char) :
    Run.Respects relation (countParen c) := by
  refine .ite (fun _ => ?_) fun _ => .ite (fun _ => allows.bind (allows.gets _) fun nested => ?_) fun _ => allows.pure _
  · exact allows.bind (.modify fun parser => counts parser _) fun _ => allows.pure _
  refine .ite (fun _ => allows.pure _) fun _ => ?_
  exact allows.bind (.modify fun parser => counts parser _) fun _ => allows.pure _

omit builders in
theorem readArithmeticChar_yields {builder : WordBuilder} (isGood : known → GoodBuilder stretch builder) (c : Char)
    {continue_ : WordBuilder → Parse (Option Word)}
    (rest : ∀ {builder}, (known → GoodBuilder stretch builder) →
      Yields stretch known (GoodWord stretch) (continue_ builder)) :
    Yields stretch known (GoodWord stretch) (readArithmeticChar builder c continue_) := by
  refine Builds.quiet (countParen_respects allowsReading_forward (fun _ _ => ⟨rfl, Nat.le_refl _⟩) c)
    fun unmatched => ?_
  exact Builds.ite (fun _ => failed_yields _) fun _ => readChar_builds fun _ => rest fun knows =>
    (isGood knows).appendChar c

theorem arithmeticWordLoop_yields (fuel : Nat) {builder : WordBuilder} (isGood : known → GoodBuilder stretch builder) :
    Yields stretch known (GoodWord stretch) (arithmeticWordLoop self fuel builder) := by
  induction fuel generalizing builder known with
  | zero => exact Builds.stop _
  | succ fuel ih =>
      refine getPos_builds fun pos => ?_
      have started : known ∧ stretch.Covers pos → GoodBuilder stretch (builder.startAt pos) :=
        fun ⟨knows, covered⟩ => (isGood knows).startAt covered
      refine gets_builds fun c => gets_builds fun next => gets_builds fun atEnd => ?_
      refine Builds.ite (fun _ => finishWord_yields started) fun _ => ?_
      refine Builds.ite (fun _ => nestedWord_yields started (expectDollar_yields builders) ih) fun _ => ?_
      refine Builds.ite (fun _ => nestedWord_yields started (backQuotes_yields builders) ih) fun _ => ?_
      refine Builds.ite (fun _ => nestedWord_yields started singleQuotes_yields ih) fun _ => ?_
      refine Builds.ite (fun _ => nestedWord_yields started (doubleQuotes_yields builders) ih) fun _ => ?_
      refine Builds.ite (fun _ => readChar_builds fun _ => gets_builds fun c => ?_) fun _ => ?_
      · refine Builds.ite (fun _ => ?_) fun _ => readArithmeticChar_yields started _ ih
        exact continuationLine_builds fun _ => ih started
      refine Builds.ite (fun _ => readChar_builds fun _ => ?_) fun _ => readArithmeticChar_yields started _ ih
      exact readArithmeticChar_yields (fun knows => (started knows).appendChar c) _ ih

theorem arithmeticWord_yields (stop : Char) : Yields stretch known (GoodWord stretch) (arithmeticWord self stop) :=
  gets_builds fun _ => Builds.ite (fun _ => Yields.nothing) fun _ =>
    gets_builds fun _ => arithmeticWordLoop_yields builders _ fun _ => .empty

/-! ## Here-documents -/

omit builders in
theorem wellFormedWords_pushBuffer (children : List Word) (buf : Str) :
    wellFormedWords (pushBufferWordString children buf) = wellFormedWords children := by
  unfold pushBufferWordString
  split
  · rfl
  · simp [wellFormedWords_append, wellFormedWords, mrshWordStringCreate, wellFormedWord]

omit builders in
theorem done_of_bind {first : Parse α} {next : α → Parse β} {parser after : Parser} {value : β}
    (ended : (first >>= next) parser = .done value after) :
    ∃ middle between, first parser = .done middle between ∧ next middle between = .done value after :=
  Run.bind_done.mp ended

omit builders in
theorem Recorded.read {stored : List (Address × Word)} {parser after : Parser} {c : Char}
    (recorded : Recorded stored parser) (read : parserReadChar parser = .done c after) : Recorded stored after :=
  recorded.forward ((parserReadChar_respects allowsReading_forward).done read)

theorem hereDocumentLineLoop_wellFormed (fuel : Nat) {children : List Word} {buf : Str} {parser after : Parser}
    {word : Word} {stored : List (Address × Word)} (recorded : Recorded stored parser)
    (ended : hereDocumentLineLoop self fuel children buf parser = .done word after) :
    Recorded stored after ∧ (wellFormedWord word = true ↔ wellFormedWords children = true ∧ Expands self parser) := by
  induction fuel generalizing children buf parser with
  | zero => cases ended
  | succ fuel ih =>
      rw [hereDocumentLineLoop, parserPeekChar, parserPeekAt, Run.gets_bind] at ended
      by_cases nul : charAt parser.buf 0 = '\x00'
      · rw [if_pos (beq_iff_eq.mpr nul)] at ended
        have wordIs : wellFormedWord word = wellFormedWords (pushBufferWordString children buf) ∧ after = parser := by
          generalize pushBufferWordString children buf = pushed at ended ⊢
          match pushed with
          | [] =>
              cases ended
              exact ⟨rfl, rfl⟩
          | [child] =>
              cases ended
              simp [wellFormedWords]
          | _ :: _ :: _ =>
              cases ended
              exact ⟨rfl, rfl⟩
        rw [wordIs.1, wordIs.2, wellFormedWords_pushBuffer]
        exact ⟨recorded, ⟨fun isGood => ⟨isGood, .finish nul⟩, And.left⟩⟩
      rw [if_neg (by simpa using nul)] at ended
      by_cases dollar : charAt parser.buf 0 = '$'
      · rw [if_pos (beq_iff_eq.mpr dollar)] at ended
        obtain ⟨child, between, read, ended⟩ := done_of_bind ended
        obtain ⟨recordedBetween, _, childGood⟩ :=
          Builds.reaches (fun _ => expectDollar_yields builders) (fun _ => []) recorded read
        rw [Expands.dollar_iff dollar]
        cases child with
        | none =>
            cases ended
            refine ⟨recordedBetween, fun isGood => (by cases isGood), ?_⟩
            rintro ⟨_, child, _, same, _⟩
            rw [read] at same
            cases same
        | some child =>
            obtain ⟨recordedAfter, isGood⟩ := ih recordedBetween ended
            refine ⟨recordedAfter, isGood.trans ?_⟩
            rw [wellFormedWords_append, wellFormedWords_pushBuffer]
            simp [wellFormedWords, (childGood child rfl).wellFormed, read]
      rw [if_neg (by simpa using dollar)] at ended
      by_cases quoted : charAt parser.buf 0 = '\x60'
      · rw [if_pos (beq_iff_eq.mpr quoted)] at ended
        obtain ⟨child, between, read, ended⟩ := done_of_bind ended
        obtain ⟨recordedBetween, _, childGood⟩ :=
          Builds.reaches (fun _ => backQuotes_yields builders) (fun _ => []) recorded read
        obtain ⟨recordedAfter, isGood⟩ := ih recordedBetween ended
        refine ⟨recordedAfter, isGood.trans ?_⟩
        rw [Expands.backQuotes_iff quoted, wellFormedWords_append, wellFormedWords_pushBuffer]
        cases child with
        | none => simp [wellFormedWords, wellFormedWord, read]
        | some child => simp [wellFormedWords, (childGood child rfl).wellFormed, read]
      rw [if_neg (by simpa using quoted)] at ended
      have plain : charAt parser.buf 0 ∉ ['\x00', '$', '\x60'] := by simp [nul, dollar, quoted]
      rw [parserPeekAt, Run.gets_bind] at ended
      by_cases escaped : charAt parser.buf 0 = '\\' ∧ charAt parser.buf 1 ∈ ['$', '\x60', '\\']
      · rw [if_pos (by simpa [or_assoc] using escaped)] at ended
        obtain ⟨c, between, read, ended⟩ := done_of_bind ended
        obtain ⟨next, last, readNext, ended⟩ := done_of_bind ended
        rw [Expands.escaped_iff escaped.1 escaped.2 read readNext]
        exact ih ((recorded.read read).read readNext) ended
      · rw [if_neg (by simpa [or_assoc] using escaped)] at ended
        obtain ⟨c, between, read, ended⟩ := done_of_bind ended
        rw [Expands.char_iff plain escaped read]
        exact ih (recorded.read read) ended

end

end Mrsh

import Mathlib.Algebra.Ring.Nat
import Mathlib.Data.List.Forall2
import Mrsh.Parser.Expansions
import Mrsh.Parser.OneLine
import Mrsh.Parser.Quoting

namespace Mrsh

open Mrsh.Data

/-! # Here-documents after a command line

The bodies of here-documents start after the newline of the command line. One
document at the end of the text is read as it is written. Where more text
follows, the parser expects a newline of its own after every document.
-/

variable {rest : Str} {parser : Parser}

/-! ## The body of a document -/

/-- The word is what the line of a here-document is read as. -/
def LineWord (self : Productions) (line : Str) (word : Word) : Prop :=
  ∃ before error after, withSubparser line (hereDocumentLine self) before = .done (word, error) after

/-- The word is what is stored for the line. -/
def StoredAs (self : Productions) (expandLines : Bool) (line : Str) (word : Word) : Prop :=
  if expandLines then LineWord self line word else word = mrshWordStringCreate line true

/-- The line can be read on its own, and has no here-document in it. -/
def Readable (self : Productions) (line : Str) : Prop :=
  ∀ parser, ∃ word error nextAddress,
    withSubparser line (hereDocumentLine self) parser = .done (word, error) { parser with nextAddress }

/-- The line as it is compared with the delimiter, and stored. -/
def storedLine (redir : IoRedirect) (line : Str) : Str :=
  if redir.op == .dlessdash then line.dropWhile (· == '\t') else line

structure HereDocument where
  redir : IoRedirect
  delim : Str
  lines : List Str

namespace HereDocument

def text (doc : HereDocument) : Str := doc.lines.flatMap (· ++ ['\n']) ++ doc.delim ++ ['\n']

/-- A document with a plain delimiter, which is none of its lines. -/
structure Plain (doc : HereDocument) : Prop where
  name : ∃ splitFields range, doc.redir.name = .string doc.delim false splitFields range
  delim : LineText doc.delim
  delimStart : ∃ c rest, doc.delim = c :: rest ∧ isBlank c = false ∧ c ≠ '#'
  lines : ∀ line ∈ doc.lines, LineText line ∧ storedLine doc.redir line ≠ doc.delim

end HereDocument

/-! ## What a line spelled -/

section

variable {self : Productions}

/-- What a text says: its characters, where a backslash quotes `$`, a back quote and itself, and its
expansions, each as it is read where it begins. -/
inductive Spells (self : Productions) : Str → List (Char ⊕ Word) → Prop where
  | finish {text} (ends : charAt text 0 = '\x00') : Spells self text []
  | char {c text pieces} (plain : c ∉ ['\x00', '$', '\x60'])
      (unescaped : ¬ (c = '\\' ∧ charAt text 0 ∈ ['$', '\x60', '\\'])) (behind : Spells self text pieces) :
      Spells self (c :: text) (.inl c :: pieces)
  | escaped {c text pieces} (quotable : c ∈ ['$', '\x60', '\\']) (behind : Spells self text pieces) :
      Spells self ('\\' :: c :: text) (.inl c :: pieces)
  | dollar {before after : Parser} {child pieces} (starts : charAt before.buf 0 = '$')
      (reads : expectDollar self before = .done (some child) after) (behind : Spells self after.buf pieces) :
      Spells self before.buf (.inr child :: pieces)
  | backQuotes {before after : Parser} {child pieces} (starts : charAt before.buf 0 = '\x60')
      (reads : backQuotes self before = .done (some child) after) (behind : Spells self after.buf pieces) :
      Spells self before.buf (.inr child :: pieces)

def saidChild : Word → List (Char ⊕ Word)
  | .string str _ _ _ => str.map .inl
  | child => [.inr child]

/-- What the word of a line says. -/
def said : Word → List (Char ⊕ Word)
  | .list children _ _ _ => children.flatMap saidChild
  | word => saidChild word

def isList : Word → Bool
  | .list _ _ _ _ => true
  | _ => false

theorem saidChild_expansion {child : Word} (expansion : isExpansion child = true) : saidChild child = [.inr child] := by
  cases child <;> first | rfl | cases expansion

theorem isList_expansion {child : Word} (expansion : isExpansion child = true) : isList child = false := by
  cases child <;> first | rfl | cases expansion

theorem said_wordOf {children : List Word} (parts : ∀ child ∈ children, isList child = false) :
    said (wordOf children) = children.flatMap saidChild := by
  rcases children with _ | ⟨child, _ | ⟨second, children⟩⟩
  · rfl
  · have single := parts child List.mem_cons_self
    rw [List.flatMap_singleton]
    cases child with
    | list _ _ _ _ => cases single
    | _ => rfl
  · rfl

theorem Spells.expansions {text : Str} {pieces : List (Char ⊕ Word)} (spells : Spells self text pieces) {child : Word}
    (member : .inr child ∈ pieces) : isExpansion child = true := by
  induction spells with
  | finish ends => cases member
  | char plain unescaped behind ih => exact ih (by simpa using member)
  | escaped quotable behind ih => exact ih (by simpa using member)
  | dollar starts reads behind ih =>
      rcases List.mem_cons.mp member with same | later
      · cases same
        exact expectDollar_expansion _ _ _ reads _ rfl
      · exact ih later
  | backQuotes starts reads behind ih =>
      rcases List.mem_cons.mp member with same | later
      · cases same
        exact backQuotes_expansion _ _ _ reads _ rfl
      · exact ih later

/-- A line without special characters says its characters. -/
theorem spells_literal_iff {line : Str} (literal : ∀ c ∈ line, c ∉ ['\x00', '$', '\x60', '\\'])
    {pieces : List (Char ⊕ Word)} : Spells self line pieces ↔ pieces = line.map .inl := by
  have special {text : Str} {c : Char} (literal : ∀ c ∈ text,
    c ∉ ['\x00', '$', '\x60', '\\']) (starts : charAt text 0 = c)
      (nonempty : c ≠ '\x00') (isSpecial : c ∈ ['\x00', '$', '\x60', '\\']) : False := by
    cases text with
    | nil => exact nonempty starts.symm
    | cons d text =>
        obtain rfl : d = c := starts
        exact literal d List.mem_cons_self isSpecial
  constructor
  · intro spells
    induction spells with
    | @finish text ends =>
        cases text with
        | nil => rfl
        | cons c text => exact absurd ends fun nul => literal c List.mem_cons_self (by simp [show c = '\x00' from nul])
    | char plain unescaped behind ih =>
        rw [ih fun c member => literal c (List.mem_cons_of_mem _ member)]
        rfl
    | escaped quotable behind ih => exact (literal '\\' List.mem_cons_self (by decide)).elim
    | dollar starts reads behind ih => exact (special literal starts (by decide) (by decide)).elim
    | backQuotes starts reads behind ih => exact (special literal starts (by decide) (by decide)).elim
  · rintro rfl
    induction line with
    | nil => exact .finish rfl
    | cons c line ih =>
        obtain ⟨first, literal⟩ := List.forall_mem_cons.mp literal
        refine .char (fun member => first ?_) (fun escaped => first (by simp [escaped.1])) (ih literal)
        simp only [List.mem_cons, List.not_mem_nil, or_false] at member ⊢
        tauto

/-- What is pushed onto the children says what is in the buffer. -/
theorem pushBufferWordString_spells (children : List Word) (buf : Str) :
    ∃ front, pushBufferWordString children buf = children ++ front ∧ (∀ child ∈ front, isList child = false) ∧
      front.flatMap saidChild = buf.map .inl := by
  cases buf with
  | nil => exact ⟨[], (List.append_nil _).symm, by simp, rfl⟩
  | cons c buf =>
      refine ⟨[mrshWordStringCreate (c :: buf) false], rfl, ?_, ?_⟩
      · rintro child member
        rw [List.mem_singleton.mp member]
        rfl
      · rw [List.flatMap_singleton]
        rfl

/-- The word has the given children first, and is read from a text that expands, or has a NULL in it. -/
def SpelledBy (self : Productions) (children : List Word) (buf : Str) (parser : Parser) (word : Word) : Prop :=
  (Expands self parser ∧ ∃ more pieces, word = wordOf (children ++ more) ∧ (∀ child ∈ more, isList child = false) ∧
    more.flatMap saidChild = buf.map .inl ++ pieces ∧ Spells self parser.buf pieces) ∨
  ¬ Expands self parser ∧ (word = .null ∨ ∃ more, word = wordOf (children ++ more) ∧ .null ∈ more)

theorem SpelledBy.child {children : List Word} {buf : Str} {between : Parser} {child word : Word}
    (spelled : SpelledBy self (pushBufferWordString children buf ++ [child]) [] between word)
    (expansion : isExpansion child = true)
    (expands : Expands self parser ↔ Expands self between)
    (spells : ∀ pieces, Spells self between.buf pieces → Spells self parser.buf (.inr child :: pieces)) :
    SpelledBy self children buf parser word := by
  obtain ⟨front, pushed, parts, frontSpelled⟩ := pushBufferWordString_spells children buf
  rw [pushed] at spelled
  rcases spelled with ⟨expandsBetween, more, pieces, same, moreParts, moreSpelled, behind⟩ | ⟨fails, null⟩
  · refine .inl ⟨expands.mpr expandsBetween, front ++ child :: more, .inr child :: pieces, ?_, ?_, ?_, spells _ behind⟩
    · rw [same]
      simp only [List.append_assoc, List.singleton_append]
    · intro part member
      rcases List.mem_append.mp member with member | member
      · exact parts part member
      · rcases List.mem_cons.mp member with rfl | member
        · exact isList_expansion expansion
        · exact moreParts part member
    · rw [List.flatMap_append, List.flatMap_cons, frontSpelled, saidChild_expansion expansion, moreSpelled]
      rfl
  · refine .inr ⟨fun parserExpands => fails (expands.mp parserExpands), null.imp_right ?_⟩
    rintro ⟨more, same, member⟩
    refine ⟨front ++ child :: more, ?_, by simp [member]⟩
    rw [same]
    simp only [List.append_assoc, List.singleton_append]

/-- A failure in back quotes is stored as a child. -/
theorem SpelledBy.null {children : List Word} {buf : Str} {between : Parser} {word : Word}
    (spelled : SpelledBy self (pushBufferWordString children buf ++ [.null]) [] between word)
    (fails : ¬ Expands self parser) :
    SpelledBy self children buf parser word := by
  obtain ⟨front, pushed, _, _⟩ := pushBufferWordString_spells children buf
  rw [pushed] at spelled
  have added : word = .null ∨ ∃ more, word = wordOf (children ++ (front ++ .null :: more)) := by
    rcases spelled with ⟨_, more, _, same, _⟩ | ⟨_, null | ⟨more, same, _⟩⟩
    · exact .inr ⟨more, by rw [same]; simp only [List.append_assoc, List.singleton_append]⟩
    · exact .inl null
    · exact .inr ⟨more, by rw [same]; simp only [List.append_assoc, List.singleton_append]⟩
  refine .inr ⟨fails, added.imp_right ?_⟩
  rintro ⟨more, same⟩
  exact ⟨_, same, by simp⟩

theorem SpelledBy.char {children : List Word} {buf : Str} {c : Char} {between : Parser} {word : Word}
    (spelled : SpelledBy self children (buf ++ [c]) between word) (expands : Expands self parser ↔ Expands self between)
    (spells : ∀ pieces, Spells self between.buf pieces → Spells self parser.buf (.inl c :: pieces)) :
    SpelledBy self children buf parser word := by
  rcases spelled with ⟨expandsBetween, more, pieces, same, parts, moreSpelled, behind⟩ | ⟨fails, null⟩
  · refine .inl ⟨expands.mpr expandsBetween, more, .inl c :: pieces, same, parts, ?_, spells _ behind⟩
    rw [moreSpelled]
    simp
  · exact .inr ⟨fun parserExpands => fails (expands.mp parserExpands), null⟩

theorem hereDocumentLineLoop_spells (fuel : Nat) {children : List Word} {buf : Str} {parser after : Parser}
    {word : Word}
    (ended : hereDocumentLineLoop self fuel children buf parser = .done word after) :
    SpelledBy self children buf parser word := by
  induction fuel generalizing children buf parser with
  | zero => cases ended
  | succ fuel ih =>
      rw [hereDocumentLineLoop, parserPeekChar, parserPeekAt, Run.gets_bind] at ended
      by_cases nul : charAt parser.buf 0 = '\x00'
      · rw [if_pos (beq_iff_eq.mpr nul)] at ended
        obtain ⟨front, pushed, parts, spelled⟩ := pushBufferWordString_spells children buf
        refine .inl ⟨.finish nul, front, [], ?_, parts, by rw [spelled, List.append_nil], .finish nul⟩
        rw [← pushed]
        generalize pushBufferWordString children buf = words at ended
        rcases words with _ | ⟨first, _ | ⟨second, rest⟩⟩ <;> (cases ended; rfl)
      rw [if_neg (by simpa using nul)] at ended
      by_cases dollar : charAt parser.buf 0 = '$'
      · rw [if_pos (beq_iff_eq.mpr dollar)] at ended
        obtain ⟨child, between, read, ended⟩ := Run.bind_done.mp ended
        cases child with
        | none =>
            cases ended
            refine .inr ⟨?_, .inl rfl⟩
            rw [Expands.dollar_iff dollar]
            rintro ⟨child, _, same, _⟩
            rw [read] at same
            cases same
        | some child =>
            refine (ih ended).child (expectDollar_expansion _ _ _ read _ rfl) ?_ fun _ => .dollar dollar read
            rw [Expands.dollar_iff dollar]
            simp [read]
      rw [if_neg (by simpa using dollar)] at ended
      by_cases quoted : charAt parser.buf 0 = '\x60'
      · rw [if_pos (beq_iff_eq.mpr quoted)] at ended
        obtain ⟨child, between, read, ended⟩ := Run.bind_done.mp ended
        cases child with
        | none =>
            refine (ih ended).null ?_
            rw [Expands.backQuotes_iff quoted]
            rintro ⟨child, _, same, _⟩
            rw [read] at same
            cases same
        | some child =>
            refine (ih ended).child (backQuotes_expansion _ _ _ read _ rfl) ?_ fun _ => .backQuotes quoted read
            rw [Expands.backQuotes_iff quoted]
            simp [read]
      rw [if_neg (by simpa using quoted)] at ended
      have plain : charAt parser.buf 0 ∉ ['\x00', '$', '\x60'] := by simp [nul, dollar, quoted]
      rw [parserPeekAt, Run.gets_bind] at ended
      by_cases escaped : charAt parser.buf 0 = '\\' ∧ charAt parser.buf 1 ∈ ['$', '\x60', '\\']
      · rw [if_pos (by simpa [or_assoc] using escaped)] at ended
        obtain ⟨c, between, read, ended⟩ := Run.bind_done.mp ended
        obtain ⟨next, last, readNext, ended⟩ := Run.bind_done.mp ended
        have whole : parser.buf = '\\' :: next :: last.buf := by
          have first := escaped.1
          rw [parserReadChar_buf read] at first
          rw [parserReadChar_buf read, parserReadChar_buf readNext, show c = '\\' from first]
        have second : charAt parser.buf 1 = next := by
          rw [whole]
          rfl
        rw [if_pos (by simpa [or_assoc] using escaped), second] at ended
        refine (ih ended).char (Expands.escaped_iff escaped.1 escaped.2 read readNext) fun pieces behind => ?_
        rw [whole]
        exact .escaped (second ▸ escaped.2) behind
      · rw [if_neg (by simpa [or_assoc] using escaped)] at ended
        obtain ⟨c, between, read, ended⟩ := Run.bind_done.mp ended
        have first : charAt parser.buf 0 = c := by
          rw [parserReadChar_buf read]
          rfl
        have second : charAt parser.buf 1 = charAt between.buf 0 := by
          rw [parserReadChar_buf read]
          rfl
        rw [if_neg (by simpa [or_assoc] using escaped), first] at ended
        refine (ih ended).char (Expands.char_iff plain escaped read) fun pieces behind => ?_
        rw [first] at plain escaped
        rw [second] at escaped
        rw [parserReadChar_buf read]
        exact .char plain escaped behind

/-- The parser of a line. -/
def lineParser (line : Str) (before : Parser) : Parser :=
  { mrshParserWithData line with nextAddress := before.nextAddress, bodies := before.bodies }

/-- The word of a line says what the line says if and only if all expansions of the line are read. -/
theorem hereDocumentLine_spells {line : Str} {before after : Parser} {word : Word} {error : Option Str}
    (read : withSubparser line (hereDocumentLine self) before = .done (word, error) after) :
    Spells self line (said word) ↔ Expands self (lineParser line before) := by
  unfold withSubparser at read
  split at read
  case h_2 => cases read
  rename_i value sub ended
  cases read
  have loop : hereDocumentLineLoop self (line.length + 1) [] [] (lineParser line before) = .done word sub := ended
  rcases hereDocumentLineLoop_spells _ loop with ⟨expands, more, pieces, rfl, parts, spelled, spells⟩ | ⟨fails, null⟩
  · rw [List.nil_append, said_wordOf parts, spelled]
    exact iff_of_true spells expands
  · refine iff_of_false (fun spells => ?_) fails
    have member : .inr .null ∈ said word := by
      rcases null with rfl | ⟨more, rfl, member⟩
      · exact List.mem_singleton.mpr rfl
      · rw [List.nil_append]
        rcases more with _ | ⟨child, _ | ⟨second, more⟩⟩
        · cases member
        · rw [← List.mem_singleton.mp member]
          exact List.mem_singleton.mpr rfl
        · exact List.mem_flatMap.mpr ⟨.null, member, List.mem_singleton.mpr rfl⟩
    cases spells.expansions member

end

/-- A line without special characters is one string. -/
def literalLine (line : Str) : Word :=
  if line.isEmpty then mrshWordListCreate [] false else mrshWordStringCreate line false

theorem hereDocumentLineLoop_literal {self : Productions} (line : Str)
    (literal : ∀ c ∈ line, c ≠ '\x00' ∧ c ≠ '$' ∧ c ≠ '\x60' ∧ c ≠ '\\') (fuel : Nat) (enough : line.length < fuel)
    (read : Str) (starts : parser.buf = line) :
    ∃ pos continuationLine, hereDocumentLineLoop self fuel [] read parser =
      .done (literalLine (read ++ line)) (parser.moved [] pos continuationLine) := by
  induction line generalizing parser fuel read with
  | nil =>
      obtain ⟨fuel, rfl⟩ : ∃ more, fuel = more + 1 := ⟨fuel - 1, by simp at enough; omega⟩
      have peeked : parserPeekChar parser = .done '\x00' parser := by
        simp [parserPeekChar, parserPeekAt, starts, charAt]
      refine ⟨parser.pos, parser.continuationLine, ?_⟩
      rw [parser.moved_self starts, hereDocumentLineLoop, Run.bind_of_done peeked, List.append_nil]
      cases read with
      | nil => rfl
      | cons c read => rfl
  | cons c line ih =>
      obtain ⟨⟨visible, notDollar, notQuote, notBackslash⟩, literal⟩ := List.forall_mem_cons.mp literal
      obtain ⟨fuel, rfl⟩ : ∃ more, fuel = more + 1 := ⟨fuel - 1, by simp at enough; omega⟩
      obtain ⟨pos, continuationLine, readRest⟩ := @ih (parser.moved line (parser.pos.advance c) false) literal fuel
        (by simpa using enough) (read ++ [c]) rfl
      refine ⟨pos, continuationLine, ?_⟩
      rw [hereDocumentLineLoop, Run.bind_of_done (parserPeekChar_cons starts)]
      simp only [beq_iff_eq, visible, notDollar, notQuote, if_false]
      have next : parserPeekAt 1 parser = .done (charAt parser.buf 1) parser := rfl
      have noBackslash : (c == '\\') = false := by simpa using notBackslash
      rw [Run.bind_of_done next]
      simp only [noBackslash, Bool.false_and, Bool.false_eq_true, if_false]
      rw [Run.bind_of_done (parserReadChar_cons starts visible)]
      rw [List.append_assoc] at readRest
      exact readRest

theorem hereDocumentLine_literal {self : Productions} {line : Str}
    (literal : ∀ c ∈ line, c ≠ '\x00' ∧ c ≠ '$' ∧ c ≠ '\x60' ∧ c ≠ '\\') (parser : Parser) :
    withSubparser line (hereDocumentLine self) parser = .done (literalLine line, none) parser := by
  obtain ⟨pos, continuationLine, run⟩ := @hereDocumentLineLoop_literal
    { mrshParserWithData line with nextAddress := parser.nextAddress, bodies := parser.bodies } self line literal
    (line.length + 1) (Nat.lt_succ_self _) [] rfl
  have whole : hereDocumentLine self
      { mrshParserWithData line with nextAddress := parser.nextAddress, bodies := parser.bodies } = _ := run
  rw [withSubparser, whole]
  rfl

theorem readLine_line (line : Str) (text : LineText line) (ends : charAt rest 0 = '\n' ∨ charAt rest 0 = '\x00')
    (fuel : Nat) (enough : line.length < fuel) (buf : Str) (starts : parser.buf = line ++ rest) :
    ∃ pos continuationLine,
      readLine fuel buf parser = .done (buf ++ line) (parser.moved rest pos continuationLine) := by
  induction line generalizing parser fuel buf with
  | nil =>
      obtain ⟨fuel, rfl⟩ : ∃ more, fuel = more + 1 := ⟨fuel - 1, by simp at enough; omega⟩
      refine ⟨parser.pos, parser.continuationLine, ?_⟩
      rw [List.nil_append] at starts
      have peeked : parserPeekChar parser = .done (charAt rest 0) parser := by rw [← starts]; rfl
      rw [parser.moved_self starts, readLine, Run.bind_of_done peeked, if_pos (by simpa [or_comm] using ends),
        List.append_nil]
      rfl
  | cons c line ih =>
      obtain ⟨⟨notNewline, visible⟩, text⟩ := text.cons
      obtain ⟨fuel, rfl⟩ : ∃ more, fuel = more + 1 := ⟨fuel - 1, by simp at enough; omega⟩
      have read := parserReadChar_cons starts visible
      obtain ⟨pos, continuationLine, readRest⟩ := @ih
        (parser.moved (line ++ rest) (parser.pos.advance c) false) text fuel (by simpa using enough) (buf ++ [c]) rfl
      refine ⟨pos, continuationLine, ?_⟩
      rw [readLine, Run.bind_of_done (parserPeekChar_cons starts), if_neg (by simp [notNewline, visible]),
        Run.bind_of_done read]
      rw [List.append_assoc] at readRest
      exact readRest

variable {self : Productions}

theorem storedLine_delim {doc : HereDocument} (plain : doc.Plain) : storedLine doc.redir doc.delim = doc.delim := by
  obtain ⟨c, rest, shape, notBlank, _⟩ := plain.delimStart
  have notTab : (c == '\t') = false := by
    rw [isBlank, Bool.or_eq_false_iff] at notBlank
    exact notBlank.2
  rw [shape, storedLine]
  split
  · rw [List.dropWhile_cons, notTab]
    rfl
  · rfl

theorem hereDocumentLines_step (redir : IoRedirect) (expandLines : Bool) (delim line : Str) (text : LineText line)
    (ends : charAt rest 0 = '\n' ∨ charAt rest 0 = '\x00') (fuel : Nat) (buf : parser.buf = line ++ rest) :
    ∃ pos continuationLine, hereDocumentLines self redir expandLines delim (fuel + 1) parser =
      (if storedLine redir line == delim then do
        if charAt rest 0 == '\n' then
          let _ ← parserReadChar
        pure true
      else if charAt rest 0 == '\x00' then do
        parserSetError "unterminated here-document".toList
        pure false
      else do
        readContinuationLine
        if expandLines then
          let (word, _) ← withSubparser (storedLine redir line) (hereDocumentLine self)
          addHereDocumentLine redir word
        else addHereDocumentLine redir (mrshWordStringCreate (storedLine redir line) true)
        hereDocumentLines self redir expandLines delim fuel : Parse Bool)
      (parser.moved rest pos continuationLine) := by
  obtain ⟨pos, continuationLine, read⟩ := readLine_line line text ends (parser.buf.length + 1)
    (by rw [buf, List.length_append]; omega) [] buf
  refine ⟨pos, continuationLine, ?_⟩
  have peeked : parserPeekChar (parser.moved rest pos continuationLine) =
      .done (charAt rest 0) (parser.moved rest pos continuationLine) := rfl
  have fuelRead : bufferFuel parser = .done (parser.buf.length + 1) parser := rfl
  rw [hereDocumentLines, Run.bind_of_done fuelRead, Run.bind_of_done read]
  exact Run.bind_of_done peeked

/-- What is stored for a line that is read from the given state, and the next address. -/
def StoresLine (self : Productions) (expandLines : Bool) (line : Str) (parser : Parser) (word : Word)
    (nextAddress : Nat) : Prop :=
  if expandLines then
    ∃ error, withSubparser line (hereDocumentLine self) parser = .done (word, error) { parser with nextAddress }
  else word = mrshWordStringCreate line true ∧ nextAddress = parser.nextAddress

/-- The entries are stored for the lines, one after the other. -/
inductive StoresLines (self : Productions) (redir : IoRedirect) (expandLines : Bool) :
    Parser → List Str → List (Address × Word) → Prop where
  | nil (parser : Parser) : StoresLines self redir expandLines parser [] []
  | cons {parser : Parser} {line lines word nextAddress entries}
      (first : StoresLine self expandLines (storedLine redir line) parser word nextAddress)
      (others : StoresLines self redir expandLines
        { parser with nextAddress, bodies := parser.bodies ++ [(redir.addr, word)] } lines entries) :
      StoresLines self redir expandLines parser (line :: lines) ((redir.addr, word) :: entries)

section

variable {redir : IoRedirect} {expandLines : Bool} {lines : List Str} {entries : List (Address × Word)}

theorem withSubparser_congr {α : Type} {text : Str} {parse : Parse α} {result : α × Option Str} {nextAddress : Nat}
    {other : Parser} (sameAddress : other.nextAddress = parser.nextAddress) (sameBodies : other.bodies = parser.bodies)
    (read : withSubparser text parse parser = .done result { parser with nextAddress }) :
    withSubparser text parse other = .done result { other with nextAddress } := by
  unfold withSubparser at read ⊢
  rw [sameAddress, sameBodies]
  cases ended : parse
      { mrshParserWithData text with nextAddress := parser.nextAddress, bodies := parser.bodies } with
  | stopped reason after =>
      rw [ended] at read
      cases read
  | done value sub =>
      rw [ended] at read
      obtain ⟨rfl, after⟩ := Outcome.done.inj read
      have address := congrArg Parser.nextAddress after
      have bodies := congrArg Parser.bodies after
      dsimp only at address bodies ⊢
      rw [address, bodies, ← sameBodies]

/-- Only the next address and the lines that are stored already are looked at. -/
theorem StoresLines.congr {other : Parser} (stores : StoresLines self redir expandLines parser lines entries)
    (sameAddress : other.nextAddress = parser.nextAddress) (sameBodies : other.bodies = parser.bodies) :
    StoresLines self redir expandLines other lines entries := by
  induction stores generalizing other with
  | nil parser => exact .nil other
  | @cons parser line lines word nextAddress entries first others ih =>
      have firstOther : StoresLine self expandLines (storedLine redir line) other word nextAddress := by
        unfold StoresLine at first ⊢
        split at first
        · obtain ⟨error, read⟩ := first
          rw [if_pos ‹_›]
          exact ⟨error, withSubparser_congr sameAddress sameBodies read⟩
        · rw [if_neg ‹_›]
          exact ⟨first.1, first.2.trans sameAddress.symm⟩
      exact .cons firstOther (ih rfl (congrArg (· ++ _) sameBodies))

theorem StoresLines.storedAs (stores : StoresLines self redir expandLines parser lines entries) :
    List.Forall₂ (fun line entry => entry.1 = redir.addr ∧ StoredAs self expandLines (storedLine redir line) entry.2)
      lines entries := by
  induction stores with
  | nil parser => exact .nil
  | @cons parser line lines word nextAddress entries first others ih =>
      refine .cons ⟨rfl, ?_⟩ ih
      unfold StoresLine at first
      unfold StoredAs
      split at first
      · obtain ⟨error, read⟩ := first
        rw [if_pos ‹_›]
        exact ⟨_, _, _, read⟩
      · rw [if_neg ‹_›]
        exact first.1

theorem storesLines_of_readable (readable : expandLines = true → ∀ line ∈ lines, Readable self (storedLine redir line))
    (parser : Parser) : ∃ entries, StoresLines self redir expandLines parser lines entries := by
  induction lines generalizing parser with
  | nil => exact ⟨[], .nil parser⟩
  | cons line lines ih =>
      have later := ih fun expands other member => readable expands other (List.mem_cons_of_mem _ member)
      obtain ⟨word, nextAddress, first⟩ : ∃ word nextAddress,
          StoresLine self expandLines (storedLine redir line) parser word nextAddress := by
        unfold StoresLine
        split
        · obtain ⟨word, error, nextAddress, read⟩ := readable ‹_› line List.mem_cons_self parser
          exact ⟨word, nextAddress, error, read⟩
        · exact ⟨_, _, rfl, rfl⟩
      obtain ⟨entries, others⟩ := later { parser with nextAddress, bodies := parser.bodies ++ [(redir.addr, word)] }
      exact ⟨_, .cons first others⟩

theorem hereDocumentLines_reads {last : Str}
    (lineTexts : ∀ line ∈ lines, LineText line ∧ storedLine redir line ≠ storedLine redir last)
    (lastText : LineText last) (stores : StoresLines self redir expandLines parser lines entries)
    (fuel : Nat) (enough : lines.length < fuel)
    (buf : parser.buf = lines.flatMap (· ++ ['\n']) ++ last ++ '\n' :: rest) :
    ∃ pos nextAddress, hereDocumentLines self redir expandLines (storedLine redir last) fuel parser =
      .done true { parser.moved rest pos false with nextAddress, bodies := parser.bodies ++ entries } := by
  obtain ⟨fuel, rfl⟩ : ∃ more, fuel = more + 1 := ⟨fuel - 1, by omega⟩
  induction lines generalizing parser entries fuel with
  | nil =>
      cases stores
      have starts : parser.buf = last ++ '\n' :: rest := by simpa using buf
      obtain ⟨pos, continuationLine, step⟩ :=
        @hereDocumentLines_step _ _ self redir expandLines (storedLine redir last) last lastText (.inl rfl) fuel starts
      refine ⟨pos.advance '\n', parser.nextAddress, ?_⟩
      have isNewline : (charAt ('\n' :: rest) 0 == '\n') = true := rfl
      have read := @parserReadChar_cons rest (parser.moved ('\n' :: rest) pos continuationLine) '\n' rfl (by decide)
      rw [step, if_pos (beq_self_eq_true _), if_pos isNewline, Run.bind_of_done read, List.append_nil]
      rfl
  | cons line lines ih =>
      obtain ⟨fuel, rfl⟩ : ∃ more, fuel = more + 1 := ⟨fuel - 1, by simp at enough; omega⟩
      rw [List.forall_mem_cons] at lineTexts
      obtain ⟨⟨text, different⟩, lineTexts⟩ := lineTexts
      cases stores with
      | @cons _ _ _ word nextAddress entries first others =>
          let left := lines.flatMap (· ++ ['\n']) ++ last ++ '\n' :: rest
          have starts : parser.buf = line ++ '\n' :: left := by simpa [left] using buf
          obtain ⟨pos, continuationLine, step⟩ := @hereDocumentLines_step _ _ self redir expandLines
            (storedLine redir last) line text (.inl rfl) (fuel + 1) starts
          have notEnd : ¬ (charAt ('\n' :: left) 0 == '\x00') = true := by simp [charAt]
          have read : readContinuationLine (parser.moved ('\n' :: left) pos continuationLine) =
              .done () (parser.moved left (pos.advance '\n') true) := rfl
          rw [if_neg (by simpa using different), if_neg notEnd, Run.bind_of_done read] at step
          -- The word of the line is stored, and the others are read from there.
          have next : hereDocumentLines self redir expandLines (storedLine redir last) (fuel + 2) parser =
              hereDocumentLines self redir expandLines (storedLine redir last) (fuel + 1)
                { parser.moved left (pos.advance '\n') true with
                  nextAddress, bodies := parser.bodies ++ [(redir.addr, word)] } := by
            unfold StoresLine at first
            split at first
            · obtain ⟨error, readLine⟩ := first
              have moved :=
                @withSubparser_congr parser _ _ _ _ _ (parser.moved left (pos.advance '\n') true) rfl rfl readLine
              rw [step, if_pos ‹_›, Run.bind_of_done moved]
              rfl
            · obtain ⟨rfl, rfl⟩ := first
              rw [step, if_neg ‹_›]
              rfl
          obtain ⟨posAfter, nextAfter, run⟩ := @ih
            { parser.moved left (pos.advance '\n') true with
              nextAddress, bodies :=
                parser.bodies ++ [(redir.addr, word)] } entries lineTexts (others.congr rfl rfl) rfl fuel
            (by simpa using enough)
          refine ⟨posAfter, nextAfter, (next.trans run).trans ?_⟩
          simp [Parser.moved]

theorem lines_length_le (lines : List Str) : lines.length ≤ (lines.flatMap (· ++ ['\n'])).length := by
  induction lines with
  | nil => exact Nat.le_refl 0
  | cons line lines ih =>
      simp only [List.length_cons, List.flatMap_cons, List.length_append, List.length_nil]
      omega

theorem expectHereDocument_lines {quoted : Bool} (isQuoted : isWordQuoted redir.name = some quoted) {last : Str}
    (lineTexts : ∀ line ∈ lines, LineText line ∧ storedLine redir line ≠ storedLine redir last)
    (lastText : LineText last) (stores : StoresLines self redir (!quoted) parser lines entries)
    (buf : parser.buf = lines.flatMap (· ++ ['\n']) ++ last ++ '\n' :: rest) :
    ∃ pos nextAddress, expectHereDocument self redir (storedLine redir last) parser =
      .done true { parser.moved rest pos false with
        hasSym := false, nextAddress, bodies := parser.bodies ++ entries } := by
  have enough : lines.length < parser.buf.length + 1 := by
    have bounded := lines_length_le lines
    rw [buf]
    simp only [List.length_append]
    omega
  obtain ⟨pos, nextAddress, run⟩ := hereDocumentLines_reads lineTexts lastText
    (@StoresLines.congr parser self redir
      (!quoted) lines entries { parser with continuationLine := true } stores rfl rfl)
    _ enough buf
  refine ⟨pos, nextAddress, ?_⟩
  simp [expectHereDocument, isQuoted, orAbort, bufferFuel, run, consumeSymbol, Parser.moved]

end

/-! ## Lines that can be read -/

/-- The entries say what the lines say. -/
def Holds (self : Productions) (addr : Address) (lines : List Str) (entries : List (Address × Word)) : Prop :=
  List.Forall₂ (fun line entry => entry.1 = addr ∧ Spells self line (said entry.2)) lines entries

/-- The lines are read one after the other, and so are all expansions in them. -/
def Legible (self : Productions) (redir : IoRedirect) : List Str → Parser → Prop
  | [], _ => True
  | line :: lines, parser => ∃ word error nextAddress,
      withSubparser (storedLine redir line) (hereDocumentLine self) parser =
        .done (word, error) { parser with nextAddress } ∧
      Expands self (lineParser (storedLine redir line) parser) ∧
      Legible self redir lines { parser with nextAddress, bodies := parser.bodies ++ [(redir.addr, word)] }

theorem legible_iff {redir : IoRedirect} {lines : List Str} :
    Legible self redir lines parser ↔
      ∃ entries, StoresLines self redir true parser lines entries ∧
        Holds self redir.addr (lines.map (storedLine redir)) entries := by
  induction lines generalizing parser with
  | nil => exact iff_of_true trivial ⟨[], .nil parser, .nil⟩
  | cons line lines ih =>
      constructor
      · rintro ⟨word, error, nextAddress, read, expands, later⟩
        obtain ⟨entries, stores, holds⟩ := ih.mp later
        exact ⟨_, .cons ⟨error, read⟩ stores, .cons ⟨rfl, (hereDocumentLine_spells read).mpr expands⟩ holds⟩
      · rintro ⟨entries, stores, holds⟩
        cases stores with
        | cons first others =>
            obtain ⟨error, read⟩ := first
            obtain ⟨⟨_, spells⟩, holds⟩ := List.forall₂_cons.mp holds
            exact ⟨_, error, _, read, (hereDocumentLine_spells read).mp spells, ih.mpr ⟨_, others, holds⟩⟩

theorem expands_literal {line : Str} (literal : ∀ c ∈ line, c ∉ ['\x00', '$', '\x60', '\\']) (buf : parser.buf = line) :
    Expands self parser := by
  induction line generalizing parser with
  | nil => exact .finish (by rw [buf]; rfl)
  | cons c line ih =>
      obtain ⟨first, literal⟩ := List.forall_mem_cons.mp literal
      have visible : c ≠ '\x00' := fun nul => first (by simp [nul])
      have peeked : charAt parser.buf 0 = c := by rw [buf]; rfl
      refine .char ?_ ?_ (parserReadChar_cons buf visible) (ih literal rfl)
      · rw [peeked]
        exact fun member => first (List.mem_append_left ['\\'] member)
      · rw [peeked]
        exact fun escaped => first (by simp [escaped.1])

theorem legible_literal {redir : IoRedirect} {lines : List Str}
    (literal : ∀ line ∈ lines, ∀ c ∈ storedLine redir line, c ∉ ['\x00', '$', '\x60', '\\']) :
    Legible self redir lines parser := by
  induction lines generalizing parser with
  | nil => trivial
  | cons line lines ih =>
      obtain ⟨first, literal⟩ := List.forall_mem_cons.mp literal
      have read :=
        @hereDocumentLine_literal self (storedLine redir line) (fun c member => by simpa using first c member) parser
      exact ⟨_, _, parser.nextAddress, read, expands_literal first rfl, ih literal⟩

/-! ## Reading without knowing that it ends -/

section

variable {fuel : Nat} {redir : IoRedirect} {lines : List Str} {last : Str}

theorem LineText.storedLine {line : Str} (text : LineText line) : LineText (Mrsh.storedLine redir line) := by
  unfold Mrsh.storedLine
  split
  · exact fun c member => text c (List.dropWhile_sublist _ |>.mem member)
  · exact text

theorem hereDocumentLines_storesLines
    (lineTexts : ∀ line ∈ lines, LineText line ∧ storedLine redir line ≠ storedLine redir last)
    (lineFuel : Nat) (buf : parser.buf = lines.flatMap (· ++ ['\n']) ++ last ++ '\n' :: rest) {after : Parser}
    (read : hereDocumentLines (productions fuel) redir true (storedLine redir last) lineFuel parser =
      .done true after) :
    ∃ entries, StoresLines (productions fuel) redir true parser lines entries := by
  induction lines generalizing parser lineFuel with
  | nil => exact ⟨[], .nil parser⟩
  | cons line lines ih =>
      cases lineFuel with
      | zero => cases read
      | succ lineFuel =>
          rw [List.forall_mem_cons] at lineTexts
          obtain ⟨⟨text, different⟩, lineTexts⟩ := lineTexts
          let left := lines.flatMap (· ++ ['\n']) ++ last ++ '\n' :: rest
          have starts : parser.buf = line ++ '\n' :: left := by simpa [left] using buf
          obtain ⟨pos, continuationLine, step⟩ := @hereDocumentLines_step _ _ (productions fuel) redir true
            (storedLine redir last) line text (.inl rfl) lineFuel starts
          have notEnd : ¬ (charAt ('\n' :: left) 0 == '\x00') = true := by simp [charAt]
          have continued : readContinuationLine (parser.moved ('\n' :: left) pos continuationLine) =
              .done () (parser.moved left (pos.advance '\n') true) := rfl
          rw [step, if_neg (by simpa using different), if_neg notEnd, Run.bind_of_done continued, if_pos rfl] at read
          obtain ⟨⟨word, error⟩, expanded, readLine, read⟩ := Run.bind_done.mp read
          have oneLine := hereDocumentLine_oneLine (fun member => (text.storedLine _ member).1 rfl) readLine
          rw [oneLine] at readLine
          have first :=
            @withSubparser_congr (parser.moved left (pos.advance '\n') true) _ _ _ _ _ parser rfl rfl readLine
          have buf : expanded.buf = left := congrArg Parser.buf oneLine
          have bodies : expanded.bodies = parser.bodies := (congrArg Parser.bodies oneLine).trans rfl
          obtain ⟨entries, others⟩ := @ih
            { expanded with bodies := expanded.bodies ++ [(redir.addr, word)] } lineTexts lineFuel buf read
          exact ⟨_, .cons ⟨error, first⟩ (others.congr rfl (congrArg (· ++ _) bodies.symm))⟩

theorem expectHereDocument_inv {delim : Str} {quoted : Bool} (isQuoted : isWordQuoted redir.name = some quoted)
    {parser after : Parser} (read : expectHereDocument (productions fuel) redir delim parser = .done true after) :
    ∃ lineFuel between, hereDocumentLines (productions fuel) redir (!quoted) delim lineFuel
        { parser with continuationLine := true } = .done true between ∧ after.bodies = between.bodies := by
  rw [expectHereDocument, isQuoted] at read
  obtain ⟨_, _, asked, read⟩ := Run.bind_done.mp read
  cases asked
  obtain ⟨_, _, continued, read⟩ := Run.bind_done.mp read
  cases continued
  obtain ⟨lineFuel, _, sized, read⟩ := Run.bind_done.mp read
  cases sized
  obtain ⟨found, between, lines, read⟩ := Run.bind_done.mp read
  cases found with
  | false => cases read
  | true =>
      cases read
      exact ⟨_, between, lines, rfl⟩

/-- A document that is read at all has been read up to its last line. -/
theorem expectHereDocument_plain {doc : HereDocument} (plain : doc.Plain) (buf : parser.buf = doc.text ++ rest)
    {after : Parser} (read : expectHereDocument (productions fuel) doc.redir doc.delim parser = .done true after) :
    ∃ entries pos nextAddress, StoresLines (productions fuel) doc.redir true parser doc.lines entries ∧
      after = { parser.moved rest pos false with
        hasSym := false, nextAddress, bodies := parser.bodies ++ entries } := by
  obtain ⟨splitFields, range, name⟩ := plain.name
  have unquoted : isWordQuoted doc.redir.name = some false := by rw [name]; rfl
  have same := storedLine_delim plain
  have lineTexts : ∀ line ∈ doc.lines, LineText line ∧ storedLine doc.redir line ≠ storedLine doc.redir doc.delim :=
    fun line member => ⟨(plain.lines line member).1, by rw [same]; exact (plain.lines line member).2⟩
  have whole : parser.buf = doc.lines.flatMap (· ++ ['\n']) ++ doc.delim ++ '\n' :: rest := by
    rw [buf, HereDocument.text]
    simp
  obtain ⟨lineFuel, between, linesRead, _⟩ := expectHereDocument_inv unquoted read
  rw [← same] at linesRead
  obtain ⟨entries, stores⟩ :=
    @hereDocumentLines_storesLines rest { parser with continuationLine := true } fuel doc.redir
    doc.lines doc.delim lineTexts lineFuel whole between linesRead
  have storesHere := @StoresLines.congr { parser with continuationLine := true } _ _ _ _ _ parser stores rfl rfl
  obtain ⟨pos, nextAddress, run⟩ := expectHereDocument_lines unquoted lineTexts plain.delim storesHere whole
  rw [same, read] at run
  exact ⟨entries, pos, nextAddress, storesHere, (Outcome.done.inj run).2⟩

end

/-! ## The documents of a command line -/

def documentsText (docs : List HereDocument) : Str := docs.flatMap HereDocument.text

theorem mrshWordStr_plain {doc : HereDocument} (plain : doc.Plain) :
    (orAbort (mrshWordStr doc.redir.name) : Parse Str) = pure doc.delim := by
  obtain ⟨splitFields, range, name⟩ := plain.name
  rw [name]
  rfl

theorem newline_delim {doc : HereDocument} (plain : doc.Plain) (idle : parser.hasSym = false)
    (buf : parser.buf = doc.delim ++ rest) {after : Parser} : newline parser ≠ .done true after := by
  obtain ⟨c, delimRest, shape, notBlank, notComment⟩ := plain.delimStart
  have notNewline : c ≠ '\n' := (plain.delim c (by rw [shape]; exact List.mem_cons_self)).1
  have starts : parser.buf = c :: (delimRest ++ rest) := by rw [buf, shape]; rfl
  cases found : symbolAt parser.buf with
  | none =>
      rw [starts] at found
      rcases symbolAt_eq_none found with blank | comment
      · rw [notBlank] at blank
        cases blank
      · exact absurd comment notComment
  | some sym =>
      have notNewlineSym : sym ≠ .newline := by
        intro isNewline
        have first := (symbolAt_char found).2 isNewline
        rw [starts] at first
        exact notNewline first
      have next := nextSymbolWithin_of_symbolAt parser parser.buf.length found
      simp [newline, symbol, getSymbol, idle, nextSymbol, bufferFuel, next, notNewlineSym]

theorem hereDocumentNewline_inv {after : Parser} (read : hereDocumentNewline parser = .done true after) :
    newline parser = .done true after := by
  obtain ⟨isNewline, between, ends, read⟩ := Run.bind_done.mp read
  cases isNewline with
  | true =>
      cases read
      exact ends
  | false =>
      obtain ⟨_, _, _, read⟩ := Run.bind_done.mp read
      cases read

theorem expectHereDocuments_cons {doc : HereDocument} {redirs : List IoRedirect} {after : Parser}
    (plain : doc.Plain)
    (read : expectHereDocuments self hereDocumentNewline (doc.redir :: redirs) parser = .done true after) :
    ∃ started between, newline parser = .done true started ∧
      expectHereDocument self doc.redir doc.delim started = .done true between ∧
      expectHereDocuments self hereDocumentNewline redirs between = .done true after := by
  obtain ⟨isNewline, started, ends, read⟩ := Run.bind_done.mp read
  cases isNewline with
  | false => cases read
  | true =>
      simp only [if_true, mrshWordStr_plain plain, pure_bind] at read
      obtain ⟨ok, between, first, read⟩ := Run.bind_done.mp read
      cases ok with
      | false => cases read
      | true => exact ⟨started, between, hereDocumentNewline_inv ends, first, read⟩

theorem laterDocuments_lose_lines {fuel : Nat} (docs : List HereDocument) (plain : ∀ doc ∈ docs, doc.Plain)
    (idle : parser.hasSym = false) (buf : parser.buf = documentsText docs ++ rest) {after : Parser}
    (read : expectHereDocuments (productions fuel) hereDocumentNewline (docs.map (·.redir)) parser = .done true after) :
    ∃ entries, after.bodies = parser.bodies ++ entries ∧
      entries.length + docs.length = (docs.map (·.lines.length)).sum := by
  induction docs generalizing parser with
  | nil =>
      cases read
      exact ⟨[], (List.append_nil _).symm, rfl⟩
  | cons doc docs ih =>
      rw [List.forall_mem_cons] at plain
      obtain ⟨plainDoc, plain⟩ := plain
      obtain ⟨redir, delim, lines⟩ := doc
      obtain ⟨started, between, ends, first, read⟩ := expectHereDocuments_cons plainDoc read
      cases lines with
      | nil =>
          have starts : parser.buf = delim ++ ('\n' :: (documentsText docs ++ rest)) := by
            simpa [documentsText, HereDocument.text] using buf
          exact absurd ends (newline_delim plainDoc idle starts)
      | cons line lines =>
          let shorter : HereDocument := ⟨redir, delim, lines⟩
          have starts : parser.buf = line ++ '\n' :: (shorter.text ++ (documentsText docs ++ rest)) := by
            simpa [documentsText, HereDocument.text, shorter] using buf
          have plainShorter : shorter.Plain :=
            { plainDoc with lines := fun other member => plainDoc.lines other (List.mem_cons_of_mem _ member) }
          rcases newline_line line (plainDoc.lines line List.mem_cons_self).1 idle starts with
            ⟨pos, skipped⟩ | ⟨_, kept, _⟩
          · obtain ⟨_, rfl⟩ := Outcome.done.inj (skipped.symm.trans ends)
            obtain ⟨entries, pos, nextAddress, stores, rfl⟩ := @expectHereDocument_plain _
              { parser.moved (shorter.text ++ (documentsText docs ++ rest)) pos false with
                hasSym := false, sym := .newline } fuel shorter plainShorter rfl _ first
            obtain ⟨more, bodies, count⟩ := ih plain rfl rfl read
            refine ⟨entries ++ more, ?_, ?_⟩
            · exact bodies.trans (List.append_assoc _ _ _)
            · have size := stores.storedAs.length_eq
              simp only [List.length_append, List.length_cons, List.map_cons, List.sum_cons]
              change lines.length = entries.length at size
              omega
          · rw [ends] at kept
            cases kept

theorem expectHereDocument_legible {doc : HereDocument} (plain : doc.Plain) (buf : parser.buf = doc.text ++ rest)
    {entries : List (Address × Word)} (stores : StoresLines self doc.redir true parser doc.lines entries) :
    ∃ pos nextAddress, expectHereDocument self doc.redir doc.delim parser =
      .done true { parser.moved rest pos false with
        hasSym := false, nextAddress, bodies := parser.bodies ++ entries } := by
  obtain ⟨splitFields, range, name⟩ := plain.name
  have same := storedLine_delim plain
  have run := @expectHereDocument_lines rest parser self doc.redir doc.lines entries false (by rw [name]; rfl) doc.delim
    (fun line member => ⟨(plain.lines line member).1, by rw [same]; exact (plain.lines line member).2⟩) plain.delim
    stores (by rw [buf, HereDocument.text]; simp)
  rwa [same] at run

/-- The first document starts behind the newline of the command line. -/
theorem firstDocument_starts {doc : HereDocument} (plain : doc.Plain)
    (settled : parser.hasSym = true → parser.sym = .newline) (buf : parser.buf = '\n' :: (doc.text ++ rest))
    (redirs : List IoRedirect) :
    ∃ started, started.buf = doc.text ++ rest ∧ started.nextAddress = parser.nextAddress ∧
      started.bodies = parser.bodies ∧
      expectHereDocuments self hereDocumentNewline (doc.redir :: redirs) parser =
        (do
          if ← expectHereDocument self doc.redir doc.delim then
            expectHereDocuments self hereDocumentNewline redirs
          else pure false : Parse Bool) started := by
  obtain ⟨found, got, foundBuf, foundBodies, _, foundAddress⟩ := getSymbol_newline settled buf
  have ends := newline_of_symbol got foundBuf
  refine ⟨{ found.moved (doc.text ++ rest) (found.pos.advance '\n') false with hasSym := false }, rfl, foundAddress,
    foundBodies, ?_⟩
  rw [expectHereDocuments, Run.bind_apply, hereDocumentNewline, Run.bind_of_done ends]
  simp only [if_true, Run.pure_apply, Outcome.andThen_done, mrshWordStr_plain plain, pure_bind]

/-! ## The command line -/

def Parser.begun (parser : Parser) : Parser := { parser with error := none, continuationLine := false }

/-- The commands of a line are read, up to its newline. -/
structure CommandLine (reader : Productions) (parser : Parser) (cmds : List CommandList) (read : Parser) : Prop where
  commands : ∃ sym found l between, getSymbol parser.begun = .done sym found ∧ sym ≠ .eofToken ∧ sym ≠ .newline ∧
    list reader found = .done (some l) between ∧ collect (list reader) reader.fuel [l] between = .done cmds read
  settled : read.hasSym = true → read.sym = .newline

/-- The entries say what the lines of the documents say. -/
def HoldsAll (self : Productions) (docs : List HereDocument) (entries : List (Address × Word)) : Prop :=
  List.Forall₂ (fun line entry => entry.1 = line.1 ∧ Spells self line.2 (said entry.2))
    (docs.flatMap fun doc => doc.lines.map fun line => (doc.redir.addr, storedLine doc.redir line)) entries

/-- `mrsh_parse_line` returns the line with its documents, and leaves the text after them. -/
def LineRead (fuel : Nat) (parser : Parser) (cmds : List CommandList) (read : Parser) (docs : List HereDocument)
    (rest : Str) : Prop :=
  ∃ entries after,
    mrshParseLine fuel parser = .done (some (fillProgram (hereDocumentOf after) ⟨cmds⟩)) after ∧
    after.buf = rest ∧ after.bodies = read.bodies ++ entries ∧ HoldsAll (productions fuel) docs entries

/-- The parser before the text after the documents. -/
def Parser.afterDocuments (parser : Parser) (docs : List HereDocument) (rest : Str) (nextAddress : Nat)
    (entries : List (Address × Word)) : Parser :=
  { parser with
    buf := rest
    pos := ('\n' :: documentsText docs).foldl Position.advance parser.pos
    hasSym := false
    hereDocuments := []
    continuationLine := false
    nextAddress
    bodies := parser.bodies ++ entries }

/-- `mrsh_parse_program` returns the commands of the line and those of the text after its documents. -/
def WholeRead (fuel : Nat) (parser : Parser) (cmds : List CommandList) (read : Parser) (docs : List HereDocument)
    (rest : Str) : Prop :=
  ∃ entries nextAddress more last after,
    HoldsAll (productions fuel) docs entries ∧
    program (productions fuel) (read.afterDocuments docs rest nextAddress entries) = .done (some ⟨more⟩) last ∧
    mrshParseProgram fuel parser = .done (some (fillProgram (hereDocumentOf after) ⟨cmds ++ more⟩)) after ∧
    after.bodies = last.bodies

theorem completeCommand_documents {found between read : Parser} {l : CommandList} {cmds : List CommandList}
    {redirs : List IoRedirect} (first : list self found = .done (some l) between)
    (others : collect (list self) self.fuel [l] between = .done cmds read)
    (pending : read.hereDocuments = redirs) (some : redirs ≠ []) :
    completeCommand self found =
      (do
        if ← expectHereDocuments self hereDocumentNewline redirs then
          clearHereDocuments
          pure (cmds, true)
        else pure (cmds, false) : Parse (List CommandList × Bool)) read := by
  have nonempty : redirs.isEmpty = false := by simpa using some
  rw [completeCommand, Run.bind_of_done first]
  simp only []
  rw [Run.bind_of_done others, Run.gets_bind, pending]
  simp only [nonempty, Bool.false_eq_true, if_false]

theorem parseLine_commands {sym : SymbolName} {found : Parser} (got : getSymbol parser.begun = .done sym found)
    (notEnd : sym ≠ .eofToken) (notNewline : sym ≠ .newline) :
    parseLine self parser =
      (do
        match ← expectCompleteCommand self with
        | none => parseLineError
        | some body => do
            let ended ← eof
            let ended ← if ended then pure true else newline
            if ended then pure (some ⟨body⟩)
            else do
              parserSetError "expected a newline".toList
              parseLineError : Parse (Option Program)) found := by
  have started : parserBegin parser = .done () parser.begun := rfl
  have notEof : eof parser.begun = .done false found := by
    rw [eof, symbol_of_getSymbol got]
    simp [notEnd]
  rw [parseLine, Run.bind_of_done started, Run.bind_of_done notEof]
  exact Run.bind_of_done (newline_other (getSymbol_again got) notNewline)

theorem parseProgram_commands {sym : SymbolName} {found : Parser} (got : getSymbol parser.begun = .done sym found)
    (notEnd : sym ≠ .eofToken) (notNewline : sym ≠ .newline) :
    parseProgram self parser =
      (do
        match ← expectCompleteCommand self with
        | none => pure none
        | some body => do
            let body ← programLines self self.fuel body
            pure (some ⟨body⟩) : Parse (Option Program)) found := by
  have started : parserBegin parser = .done () parser.begun := rfl
  have notEof : eof found = .done false found := by
    rw [eof, symbol_of_getSymbol (getSymbol_again got)]
    simp [notEnd]
  rw [parseProgram, Run.bind_of_done started, program, Run.bind_of_done (linebreak_other got notNewline)]
  exact Run.bind_of_done notEof

theorem parseLineError_inv {program : Option Program} {after : Parser}
    (ended : parseLineError parser = .done program after) : program = none := by
  obtain ⟨_, _, _, ended⟩ := Run.bind_done.mp ended
  obtain ⟨_, _, _, ended⟩ := Run.bind_done.mp ended
  obtain ⟨_, _, _, ended⟩ := Run.bind_done.mp ended
  exact (Outcome.done.inj ended).1.symm

/-- A line is returned where its commands end at the end of the text or at a newline. -/
theorem parseLine_inv {sym : SymbolName} {found last : Parser} {program : Program}
    (got : getSymbol parser.begun = .done sym found) (notEnd : sym ≠ .eofToken) (notNewline : sym ≠ .newline)
    (parsed : parseLine self parser = .done (some program) last) :
    ∃ body ended, completeCommand self found = .done (body, true) ended ∧
      ∃ sym tested, getSymbol ended = .done sym tested ∧
        ((sym = .eofToken ∧ last = tested) ∨ (Advances tested last ∧ last.buf.length < tested.buf.length)) := by
  rw [parseLine_commands got notEnd notNewline] at parsed
  obtain ⟨body, ended, expected, parsed⟩ := Run.bind_done.mp parsed
  obtain ⟨⟨cmds, ok⟩, complete, completed, expected⟩ := Run.bind_done.mp expected
  cases ok with
  | false =>
      obtain ⟨_, _, _, expected⟩ := Run.bind_done.mp expected
      obtain ⟨rfl, rfl⟩ := Outcome.done.inj expected
      exact absurd (parseLineError_inv parsed) (by simp)
  | true =>
      obtain ⟨rfl, rfl⟩ := Outcome.done.inj expected
      refine ⟨cmds, complete, completed, ?_⟩
      obtain ⟨isEnd, tested, atEnd, parsed⟩ := Run.bind_done.mp parsed
      obtain ⟨sym, gotEnd, rfl⟩ := symbol_inv atEnd
      refine ⟨sym, tested, gotEnd, ?_⟩
      by_cases ends : sym = .eofToken
      · subst ends
        exact .inl ⟨rfl, (Outcome.done.inj parsed).2.symm⟩
      · have goesOn : (sym == SymbolName.eofToken) = false := by simpa using ends
        simp only [goesOn, Bool.false_eq_true, if_false] at parsed
        obtain ⟨isNewline, after, atNewline, parsed⟩ := Run.bind_done.mp parsed
        obtain ⟨_, between, gotNewline, advanced⟩ := newline_inv atNewline
        cases isNewline with
        | false =>
            obtain ⟨_, _, _, parsed⟩ := Run.bind_done.mp parsed
            exact absurd (parseLineError_inv parsed) (by simp)
        | true =>
            obtain ⟨_, rfl⟩ := Outcome.done.inj parsed
            have first := getSymbol_advances gotNewline
            exact .inr ⟨first.trans advanced.1, Nat.lt_of_lt_of_le advanced.2 first.2⟩

section

variable {fuel : Nat} {cmds : List CommandList} {read : Parser} {docs : List HereDocument}

theorem holdsAll_single {self : Productions} {doc : HereDocument} {entries : List (Address × Word)} :
    HoldsAll self [doc] entries ↔ Holds self doc.redir.addr (doc.lines.map (storedLine doc.redir)) entries := by
  have same : ([doc].flatMap fun doc => doc.lines.map fun line => (doc.redir.addr, storedLine doc.redir line)) =
      (doc.lines.map (storedLine doc.redir)).map fun line => (doc.redir.addr, line) := by simp
  rw [HoldsAll, same, List.forall₂_map_left_iff]
  rfl

theorem completeCommand_single {found between : Parser} {l : CommandList} {doc : HereDocument}
    {entries : List (Address × Word)} (first : list self found = .done (some l) between)
    (others : collect (list self) self.fuel [l] between = .done cmds read)
    (settled : read.hasSym = true → read.sym = .newline) (pending : read.hereDocuments = [doc.redir])
    (plain : doc.Plain) (buf : read.buf = '\n' :: doc.text)
    (stores : StoresLines self doc.redir true read doc.lines entries) :
    ∃ ended, completeCommand self found = .done (cmds, true) ended ∧ ended.buf = [] ∧ ended.hasSym = false ∧
      ended.bodies = read.bodies ++ entries := by
  obtain ⟨started, startedBuf, address, bodies, run⟩ :=
    @firstDocument_starts [] read self doc plain settled (by rw [buf, List.append_nil]) []
  obtain ⟨pos, nextAddress, document⟩ := expectHereDocument_legible plain startedBuf (stores.congr address bodies)
  rw [Run.bind_of_done document] at run
  refine ⟨{ started.moved [] pos false with
    hasSym := false, nextAddress, bodies := started.bodies ++ entries, hereDocuments := [] }, ?_, rfl, rfl,
    congrArg (· ++ entries) bodies⟩
  rw [completeCommand_documents first others pending (by simp), Run.bind_of_done run]
  rfl

theorem hereDocuments_single {doc : HereDocument} (commandLine : CommandLine (productions fuel) parser cmds read)
    (pending : read.hereDocuments = [doc.redir]) (plain : doc.Plain) (buf : read.buf = '\n' :: doc.text)
    (legible : Legible (productions fuel) doc.redir doc.lines read) :
    LineRead fuel parser cmds read [doc] [] ∧ WholeRead fuel parser cmds read [doc] [] := by
  obtain ⟨sym, found, l, between, got, notEnd, notNewline, first, others⟩ := commandLine.commands
  obtain ⟨entries, stores, holds⟩ := legible_iff.mp legible
  obtain ⟨ended, complete, endedBuf, idle, bodies⟩ :=
    completeCommand_single first others commandLine.settled pending plain buf stores
  have expected : expectCompleteCommand (productions fuel) found = .done (some cmds) ended := by
    rw [expectCompleteCommand, Run.bind_of_done complete]
    rfl
  have atEnd := getSymbol_end idle endedBuf
  have ends : eof ended = .done true { ended with hasSym := true, sym := .eofToken } := symbol_of_getSymbol atEnd _
  have alone : program (productions fuel) (read.afterDocuments [doc] [] read.nextAddress entries) =
      .done (some ⟨[]⟩)
        { read.afterDocuments [doc] [] read.nextAddress entries with hasSym := true, sym := .eofToken } := by
    have atText := @getSymbol_end (read.afterDocuments [doc] [] read.nextAddress entries) rfl rfl
    have nothing := symbol_of_getSymbol (getSymbol_again atText) .eofToken
    rw [program, Run.bind_of_done (linebreak_other atText (by simp))]
    exact Run.bind_of_done nothing
  refine ⟨⟨entries, { ended with hasSym := true, sym := .eofToken }, ?_, endedBuf, bodies, holdsAll_single.mpr holds⟩,
    entries, read.nextAddress, [], _, { ended with hasSym := true, sym := .eofToken }, holdsAll_single.mpr holds, alone,
    ?_, bodies⟩
  · have line : parseLine (productions fuel) parser =
        .done (some ⟨cmds⟩) { ended with hasSym := true, sym := .eofToken } := by
      rw [parseLine_commands got notEnd notNewline, Run.bind_of_done expected]
      exact Run.bind_of_done ends
    rw [mrshParseLine, withHereDocuments, Run.bind_of_done line]
    rfl
  · have lines : programLines (productions fuel) (productions fuel).fuel cmds ended =
        .done cmds { ended with hasSym := true, sym := .eofToken } := by
      cases size : (productions fuel).fuel with
      | zero =>
          rw [size] at others
          cases others
      | succ more =>
          have noNewline : newlineList ended = .done false { ended with hasSym := true, sym := .eofToken } := by
            rw [newlineList, Run.bind_of_done (newline_other atEnd (by simp))]
            rfl
          rw [programLines, Run.bind_of_done noNewline]
          exact Run.bind_of_done (linebreak_other (getSymbol_again atEnd) (by simp))
    have whole : parseProgram (productions fuel) parser =
        .done (some ⟨cmds⟩) { ended with hasSym := true, sym := .eofToken } := by
      rw [parseProgram_commands got notEnd notNewline, Run.bind_of_done expected]
      exact Run.bind_of_done lines
    rw [mrshParseProgram, withHereDocuments, Run.bind_of_done whole, List.append_nil]
    rfl

/-- The line is read as it is written only if it has a single document, which ends the text and can be read. -/
theorem single_of_lineRead (commandLine : CommandLine (productions fuel) parser cmds read)
    (pending : read.hereDocuments = docs.map (·.redir)) (someDocument : docs ≠ [])
    (plain : ∀ doc ∈ docs, doc.Plain) (buf : read.buf = '\n' :: (documentsText docs ++ rest))
    (visible : ∀ c ∈ rest, c ≠ '\x00') (line : LineRead fuel parser cmds read docs rest) :
    docs.length = 1 ∧ rest = [] ∧ ∀ doc ∈ docs, Legible (productions fuel) doc.redir doc.lines read := by
  obtain ⟨entries, after, run, afterBuf, bodies, holds⟩ := line
  obtain ⟨sym, found, l, between, got, notEnd, notNewline, first, others⟩ := commandLine.commands
  obtain ⟨program?, last, parsed, filled⟩ := Run.bind_done.mp run
  obtain ⟨_, _, same, filled⟩ := Run.bind_done.mp filled
  cases same
  obtain ⟨isSome, rfl⟩ := Outcome.done.inj filled
  cases program? with
  | none => cases isSome
  | some program =>
      obtain ⟨body, ended, completed, symEnd, tested, gotEnd, ends⟩ := parseLine_inv got notEnd notNewline parsed
      rw [completeCommand_documents first others pending (by simpa using someDocument)] at completed
      obtain ⟨ok, stored, documents, completed⟩ := Run.bind_done.mp completed
      cases ok with
      | false => cases completed
      | true =>
          obtain ⟨_, rfl⟩ := Outcome.done.inj completed
          cases docs with
          | nil => exact absurd rfl someDocument
          | cons doc docs =>
              rw [List.forall_mem_cons] at plain
              obtain ⟨started, startedBuf, address, startedBodies, starts⟩ :=
                @firstDocument_starts (documentsText docs ++ rest) read _ doc plain.1 commandLine.settled
                  (by rw [buf]; simp [documentsText]) (docs.map (·.redir))
              obtain ⟨ok, betweenDocs, document, later⟩ := Run.bind_done.mp (starts.symm.trans documents)
              cases ok with
              | false => cases later
              | true =>
                  obtain ⟨entriesFirst, pos, nextAddress, stores, rfl⟩ :=
                    expectHereDocument_plain plain.1 startedBuf document
                  obtain ⟨more, storedBodies, count⟩ := laterDocuments_lose_lines docs plain.2 rfl rfl later
                  have lastBodies : last.bodies = stored.bodies := by
                    have advances := getSymbol_advances gotEnd
                    rcases ends with ⟨_, rfl⟩ | ⟨advanced, _⟩
                    · exact advances.1
                    · exact (advances.trans advanced).1
                  have same : entries = entriesFirst ++ more := by
                    rw [lastBodies, storedBodies, startedBodies, List.append_assoc] at bodies
                    exact (List.append_cancel_left bodies).symm
                  -- The documents after the first one have lost lines.
                  have noLater : docs = [] := by
                    have size := holds.length_eq
                    have sizeFirst := stores.storedAs.length_eq
                    simp only [List.flatMap_cons, List.length_append, List.length_map, List.length_flatMap] at size
                    rw [same, List.length_append] at size
                    exact List.eq_nil_of_length_eq_zero (by omega)
                  subst noLater
                  obtain rfl : more = [] := List.eq_nil_of_length_eq_zero (by simpa using count)
                  rw [List.append_nil] at same
                  subst same
                  have legible : Legible (productions fuel) doc.redir doc.lines read :=
                    legible_iff.mpr ⟨_, stores.congr address.symm startedBodies.symm, holdsAll_single.mp holds⟩
                  refine ⟨rfl, ?_, by simpa using legible⟩
                  obtain ⟨_, rfl⟩ := Outcome.done.inj later
                  rcases ends with ⟨isEnd, rfl⟩ | ⟨_, shorter⟩
                  · have nul := (getSymbol_inv rfl gotEnd).2.2.2 isEnd
                    rw [afterBuf] at nul
                    cases rest with
                    | nil => rfl
                    | cons c rest => exact absurd nul (visible c List.mem_cons_self)
                  · have advances : tested.buf.length ≤ (documentsText [] ++ rest).length :=
                      (getSymbol_advances gotEnd).2
                    rw [afterBuf] at shorter
                    simp only [documentsText, List.flatMap_nil, List.nil_append] at advances
                    omega

/-- `mrsh_parse_line` and `mrsh_parse_program` read a line with here-documents as it is written if and only if it has
a single one, at the end of the text, and the expansions in its lines can be read. -/
theorem hereDocuments_read_iff (commandLine : CommandLine (productions fuel) parser cmds read)
    (pending : read.hereDocuments = docs.map (·.redir)) (someDocument : docs ≠ [])
    (plain : ∀ doc ∈ docs, doc.Plain) (buf : read.buf = '\n' :: (documentsText docs ++ rest))
    (visible : ∀ c ∈ rest, c ≠ '\x00') :
    (LineRead fuel parser cmds read docs rest ∧ WholeRead fuel parser cmds read docs rest) ↔
      docs.length = 1 ∧ rest = [] ∧ ∀ doc ∈ docs, Legible (productions fuel) doc.redir doc.lines read := by
  constructor
  · rintro ⟨line, _⟩
    exact single_of_lineRead commandLine pending someDocument plain buf visible line
  · rintro ⟨single, rfl, legible⟩
    obtain ⟨doc, rfl⟩ := List.length_eq_one_iff.mp single
    rw [List.forall_mem_singleton] at plain legible
    apply hereDocuments_single commandLine pending plain _ legible
    rw [buf]
    simp [documentsText]

end

/-- The document with one line `x`, after a command line for it. -/
def oneDocument (self : Productions) (parser : Parser) : Option (List CommandList × Parser × IoRedirect) :=
  match getSymbol parser.begun with
  | .done .token found =>
      match list self found with
      | .done (some l) between =>
          match collect (list self) self.fuel [l] between with
          | .done cmds read =>
              match read.hereDocuments with
              | [redir] => some (cmds, read, redir)
              | _ => none
          | _ => none
      | _ => none
  | _ => none

def isPlainName (word : Word) (delim : Str) : Bool :=
  match word with
  | .string str false _ _ => str == delim
  | _ => false

theorem oneDocument_commandLine {self : Productions} {cmds : List CommandList} {read : Parser} {redir : IoRedirect}
    (found : oneDocument self parser = some (cmds, read, redir)) (sym : read.sym = .newline) :
    CommandLine self parser cmds read ∧ read.hereDocuments = [redir] := by
  unfold oneDocument at found
  split at found
  · rename_i start got
    split at found
    · rename_i l between first
      split at found
      · rename_i others
        split at found
        · rename_i single
          cases found
          exact ⟨⟨⟨.token, start, l, between, got, by decide, by decide, first, others⟩, fun _ => sym⟩, single⟩
        · cases found
      · cases found
    · cases found
  · cases found

theorem isPlainName_shape {word : Word} {delim : Str} (plain : isPlainName word delim = true) :
    ∃ splitFields range, word = .string delim false splitFields range := by
  unfold isPlainName at plain
  split at plain
  · rename_i str splitFields range
    exact ⟨splitFields, range, by rw [beq_iff_eq.mp plain]⟩
  · cases plain

/-- `cat <<A` with one line. -/
theorem hereDocuments_read_one : ∃ cmds read redir,
    oneDocument (productions 5) (mrshParserWithData "cat <<A\nx\nA\n".toList) = some (cmds, read, redir) ∧
    LineRead 5 (mrshParserWithData "cat <<A\nx\nA\n".toList) cmds read [⟨redir, ['A'], [['x']]⟩] [] := by
  have checked : ((oneDocument (productions 5) (mrshParserWithData "cat <<A\nx\nA\n".toList)).any
      fun (_, read, redir) => read.sym == .newline && read.buf == "\nx\nA\n".toList &&
        redir.op == .dless && isPlainName redir.name ['A']) = true := by
    decide +kernel
  obtain ⟨⟨cmds, read, redir⟩, found, shape⟩ := (Option.any_eq_true _ _).mp checked
  simp only [Bool.and_eq_true, beq_iff_eq] at shape
  obtain ⟨⟨⟨sym, buf⟩, op⟩, name⟩ := shape
  obtain ⟨commandLine, pending⟩ := oneDocument_commandLine found sym
  have same : storedLine redir ['x'] = ['x'] := by simp [storedLine, op]
  have plain : HereDocument.Plain ⟨redir, ['A'], [['x']]⟩ :=
    { name := isPlainName_shape name
      delim := by simp [LineText]
      delimStart := ⟨'A', [], rfl, rfl, by decide⟩
      lines := by
        intro line member
        obtain rfl := List.mem_singleton.mp member
        simp only [same]
        exact ⟨by simp [LineText], by decide⟩ }
  have legible : Legible (productions 5) redir [['x']] read := by
    apply legible_literal
    intro line member
    rw [List.mem_singleton.mp member, same]
    decide
  have whole := (@hereDocuments_read_iff [] _ _ _ _ [⟨redir, ['A'], [['x']]⟩] commandLine pending (by simp)
    (by simpa using plain) buf (by simp)).mpr ⟨rfl, rfl, by simpa using legible⟩
  exact ⟨cmds, read, redir, found, whole.1⟩

/-- Text after the document makes the line an error. -/
theorem hereDocument_rejects_next_line :
    let ended := mrshParseLine 5 (mrshParserWithData "cat <<A\nx\nA\necho y\n".toList)
    ended.value?.map (·.isNone) = some true ∧
      ended.state.error.map Prod.fst = some "expected a newline".toList := by
  decide +kernel

end Mrsh

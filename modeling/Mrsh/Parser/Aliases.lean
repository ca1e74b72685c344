import Mrsh.Data.LeadingWords
import Mrsh.Parser.Segments

namespace Mrsh

open Mrsh.Data

/-! # When alias substitution ends

`apply_aliases` replaces the word that leads the rest of the text, and stops when the alias
that it replaced last comes up again. The words and texts are those of the general
replacement of leading words.
-/

/-! ## The word that leads a text -/

variable {name rest text after : Str}

theorem isAliasChar_ne {c d : Char} (allowed : isAliasChar c = true) (other : isAliasChar d = false) : c ≠ d := by
  rintro rfl
  rw [allowed] at other
  cases other

theorem isAliasChar_plain {c : Char} (allowed : isAliasChar c = true) :
    isOperatorStart c = false ∧ isBlank c = false ∧ c ≠ '\x00' ∧ c ≠ '\n' ∧ c ≠ '#' := by
  have ne : ∀ d : Char, isAliasChar d = false → c ≠ d := fun d other => isAliasChar_ne allowed other
  refine ⟨?_, ?_, ne _ (by decide), ne _ (by decide), ne _ (by decide)⟩
  · simp (disch := decide) [isOperatorStart, ne]
  · simp (disch := decide) [isBlank, ne]

/-- Text at which a word ends. -/
def EndsAlias (text : Str) : Prop := wordLength '\x00' text = some 0

theorem wordLength_aliasChars (allowed : ∀ c ∈ name, isAliasChar c = true) (ends : EndsAlias rest) :
    wordLength '\x00' (name ++ rest) = some name.length := by
  induction name with
  | nil => exact ends
  | cons c name ih =>
      rw [List.forall_mem_cons] at allowed
      have ne : ∀ d : Char, isAliasChar d = false → c ≠ d := fun d other => isAliasChar_ne allowed.1 other
      simp (disch := decide) [wordLength, isOperatorStart, isBlank, ne, ih allowed.2]

theorem wordLength_drop {n : Nat} (found : wordLength '\x00' text = some n) :
    n ≤ text.length ∧ EndsAlias (text.drop n) := by
  induction text generalizing n with
  | nil =>
      cases found
      exact ⟨Nat.le_refl _, rfl⟩
  | cons c text ih =>
      have whole := found
      rw [wordLength] at found
      split at found
      · cases found
        exact ⟨Nat.zero_le _, whole⟩
      · split at found
        · cases found
        · split at found
          · cases found
            exact ⟨Nat.zero_le _, whole⟩
          · obtain ⟨m, foundRest, rfl⟩ := Option.map_eq_some_iff.mp found
            obtain ⟨short, ends⟩ := ih foundRest
            exact ⟨by simpa using short, ends⟩

theorem EndsAlias.other {c : Char} (ends : EndsAlias (c :: rest)) (other : Str) : EndsAlias (c :: other) := by
  unfold EndsAlias at ends ⊢
  rw [wordLength] at ends ⊢
  split
  · rfl
  · split
    · simp_all
    · split
      · rfl
      · simp_all

theorem EndsAlias.cons {c : Char} (ends : EndsAlias (c :: rest)) : isAliasChar c = false := by
  by_contra other
  have allowed : isAliasChar c = true := by simpa using other
  have one := @wordLength_aliasChars [c] [] (by simpa using allowed) rfl
  rw [List.append_nil, ends.other []] at one
  cases one

theorem EndsAlias.append (first : EndsAlias text) (second : EndsAlias after) : EndsAlias (text ++ after) := by
  cases text with
  | nil => exact second
  | cons c text => exact first.other _

/-- The alias name that the text starts with, and the text after it. -/
def aliasAt (text : Str) : Option (Str × Str) :=
  let n := (wordLength '\x00' text).getD 0
  if n ≠ 0 ∧ (text.take n).all isAliasChar = true then some (text.take n, text.drop n) else none

/-- The alias name that leads the text, behind its blanks. -/
def leadingAlias (text : Str) : Option (Str × Str) :=
  if symbolAt (text.dropWhile isBlank) = some .token then aliasAt (text.dropWhile isBlank) else none

theorem symbolAt_aliasChar {c : Char} (allowed : isAliasChar c = true) : symbolAt (c :: rest) = some .token := by
  obtain ⟨notOperator, notBlank, notNul, notNewline, notComment⟩ := isAliasChar_plain allowed
  simp [symbolAt, charAt, notOperator, notBlank, notNul, notNewline, notComment]

theorem aliasAt_iff : aliasAt text = some (name, rest) ↔
    text = name ++ rest ∧ name ≠ [] ∧ (∀ c ∈ name, isAliasChar c = true) ∧ EndsAlias rest := by
  unfold aliasAt
  simp only [Option.ite_none_right_eq_some, Option.some.injEq, Prod.mk.injEq]
  constructor
  · rintro ⟨⟨some, allowed⟩, rfl, rfl⟩
    cases length : wordLength '\x00' text with
    | none =>
        rw [length] at some
        exact absurd rfl some
    | some n =>
        rw [length] at some allowed
        simp only [Option.getD_some] at some allowed ⊢
        obtain ⟨short, ends⟩ := wordLength_drop length
        refine ⟨(List.take_append_drop _ _).symm, ?_, List.all_eq_true.mp allowed, ends⟩
        rw [ne_eq, List.take_eq_nil_iff]
        rintro (zero | empty)
        · exact some zero
        · rw [empty] at short
          exact some (Nat.le_zero.mp short)
  · rintro ⟨rfl, nonempty, allowed, ends⟩
    rw [wordLength_aliasChars allowed ends]
    refine ⟨⟨by simpa using nonempty, ?_⟩, ?_, ?_⟩
    · rw [Option.getD_some, List.take_left, List.all_eq_true]
      exact allowed
    · rw [Option.getD_some, List.take_left]
    · rw [Option.getD_some, List.drop_left]

theorem leadingAlias_iff : leadingAlias text = some (name, rest) ↔
    text.dropWhile isBlank = name ++ rest ∧ name ≠ [] ∧ (∀ c ∈ name, isAliasChar c = true) ∧ EndsAlias rest := by
  rw [leadingAlias, Option.ite_none_right_eq_some, aliasAt_iff, and_iff_right_iff_imp]
  rintro ⟨found, nonempty, allowed, -⟩
  obtain ⟨c, more, rfl⟩ := List.exists_cons_of_ne_nil nonempty
  rw [found]
  exact symbolAt_aliasChar (allowed c List.mem_cons_self)

theorem leadingAlias_of_aliasAt (starts : aliasAt text = some (name, rest)) :
    leadingAlias text = some (name, rest) := by
  obtain ⟨rfl, nonempty, allowed, ends⟩ := aliasAt_iff.mp starts
  refine leadingAlias_iff.mpr ⟨?_, nonempty, allowed, ends⟩
  obtain ⟨c, more, rfl⟩ := List.exists_cons_of_ne_nil nonempty
  have notBlank := (isAliasChar_plain (allowed c List.mem_cons_self)).2.1
  exact List.dropWhile_cons_of_neg (by simp [notBlank])

theorem leadingAlias_append (leads : leadingAlias text = some (name, rest)) (ends : EndsAlias after) :
    leadingAlias (text ++ after) = some (name, rest ++ after) := by
  obtain ⟨found, nonempty, allowed, endsRest⟩ := leadingAlias_iff.mp leads
  refine leadingAlias_iff.mpr ⟨?_, nonempty, allowed, endsRest.append ends⟩
  rw [List.dropWhile_append, found]
  simp [nonempty]

theorem leadingAlias_none (none : leadingAlias text = none) (ends : EndsAlias after) :
    text.dropWhile isBlank = [] ∨ leadingAlias (text ++ after) = Option.none := by
  by_cases blank : text.dropWhile isBlank = []
  · exact .inl blank
  · refine .inr (Option.eq_none_iff_forall_ne_some.mpr ?_)
    rintro ⟨name, rest⟩ leads
    obtain ⟨found, nonempty, allowed, endsRest⟩ := leadingAlias_iff.mp leads
    rw [List.dropWhile_append, if_neg (by simpa using blank)] at found
    rcases List.append_eq_append_iff.mp found with ⟨more, same, rfl⟩ | ⟨more, same, rfl⟩
    · -- the name reaches into the text after, which starts with no character of a name
      cases more with
      | nil =>
          rw [List.append_nil] at same
          have leadsText := leadingAlias_iff.mpr ⟨(same.symm.trans (List.append_nil _).symm), nonempty, allowed, rfl⟩
          rw [none] at leadsText
          cases leadsText
      | cons c more =>
          have inName := allowed c (by simp [same])
          rw [ends.cons] at inName
          cases inName
    · have endsMore : EndsAlias more := by
        cases more with
        | nil => rfl
        | cons c more => exact endsRest.other _
      have leadsText := leadingAlias_iff.mpr ⟨same, nonempty, allowed, endsMore⟩
      rw [none] at leadsText
      cases leadsText

/-- The words of the shell, for the replacement of leading words. -/
def aliasWords : LeadingWord Char Str where
  leading := leadingAlias
  delimited := EndsAlias
  blank text := text.dropWhile isBlank = []
  size text := (text.dropWhile isBlank).length
  delimited_nil := rfl
  delimited_append := EndsAlias.append
  delimited_rest leads := (leadingAlias_iff.mp leads).2.2.2
  leading_append := leadingAlias_append
  leading_none := leadingAlias_none
  leading_blank {text} blank := by
    apply Option.eq_none_iff_forall_ne_some.mpr
    rintro ⟨name, rest⟩ leads
    obtain ⟨found, nonempty, -, -⟩ := leadingAlias_iff.mp leads
    rw [blank] at found
    exact nonempty (List.append_eq_nil_iff.mp found.symm).1
  size_rest {text name rest} leads := by
    obtain ⟨found, nonempty, -, -⟩ := leadingAlias_iff.mp leads
    have shorter := (rest.dropWhile_suffix isBlank).length_le
    have some := List.length_pos_iff.mpr nonempty
    rw [found, List.length_append]
    omega
  size_blank {text after} blank := by rw [List.dropWhile_append, blank]; rfl

/-! ## The loop -/

variable {parser : Parser} {table : Str → Option Str} {last : Option Str}

theorem dropWhile_of_symbolAt {sym : SymbolName} (starts : symbolAt text = some sym) :
    text.dropWhile isBlank = text := by
  cases text with
  | nil => rfl
  | cons c text =>
      apply List.dropWhile_cons_of_neg
      intro blank
      rw [symbolAt_blank blank] at starts
      cases starts

theorem nextSymbolWithin_token (fuel : Nat) (parser : Parser) (enough : parser.buf.length < fuel) :
    ∃ found, nextSymbolWithin fuel parser = .done () found ∧ found.hasSym = true ∧
      if symbolAt (parser.buf.dropWhile isBlank) = some .token then
        found.sym = .token ∧ found.buf = parser.buf.dropWhile isBlank
      else found.sym ≠ .token := by
  induction fuel generalizing parser with
  | zero => omega
  | succ fuel ih =>
      cases starts : symbolAt parser.buf with
      | some sym =>
          have whole := dropWhile_of_symbolAt starts
          refine ⟨_, nextSymbolWithin_of_symbolAt parser fuel starts, rfl, ?_⟩
          rw [whole, starts]
          by_cases isToken : sym = .token
          · simp [isToken]
          · simp [isToken]
      | none =>
          cases buf : parser.buf with
          | nil =>
              rw [buf] at starts
              cases starts
          | cons c rest =>
              have skip := nextSymbolWithin_of_none fuel buf starts
              by_cases blank : isBlank c = true
              · rw [if_pos blank] at skip
                have read := @parserReadChar_cons rest { parser with hasSym := true } c buf (isBlank_visible blank)
                obtain ⟨found, finds, hasSym, isToken⟩ :=
                  ih (({ parser with hasSym := true } : Parser).moved rest (parser.pos.advance c) false)
                    (by rw [buf, List.length_cons] at enough; exact Nat.lt_of_succ_lt_succ enough)
                refine ⟨found, ?_, hasSym, ?_⟩
                · rw [skip, Run.bind_of_done read]
                  exact finds
                · rw [List.dropWhile_cons_of_pos blank]
                  exact isToken
              · rw [if_neg blank] at skip
                obtain ⟨between, skipped, ends⟩ :=
                  skipComment_ends (parser.buf.length + 1) { parser with hasSym := true }
                  (Nat.lt_succ_self _)
                rw [Run.bind_of_done skipped] at skip
                obtain ⟨more, rfl⟩ : ∃ more, fuel = more + 1 :=
                  ⟨fuel - 1, by rw [buf, List.length_cons] at enough; omega⟩
                obtain ⟨sym, notToken, startsAfter⟩ : ∃ sym, sym ≠ .token ∧ symbolAt between.buf = some sym := by
                  rcases ends with ends | ends
                  · exact ⟨.eofToken, by decide, by simp [symbolAt, ends]⟩
                  · exact ⟨.newline, by decide, by simp [symbolAt, ends]⟩
                refine ⟨_, skip.trans (nextSymbolWithin_of_symbolAt between more startsAfter), rfl, ?_⟩
                rw [List.dropWhile_cons_of_neg blank, ← buf, starts]
                simpa using notToken

theorem symbol_token (idle : parser.hasSym = false) : ∃ found, found.hasSym = true ∧
    if symbolAt (parser.buf.dropWhile isBlank) = some .token then
      symbol .token parser = .done true found ∧ found.sym = .token ∧ found.buf = parser.buf.dropWhile isBlank
    else symbol .token parser = .done false found := by
  obtain ⟨found, finds, hasSym, isToken⟩ := nextSymbolWithin_token (parser.buf.length + 1) parser (Nat.lt_succ_self _)
  refine ⟨found, hasSym, ?_⟩
  have symbol_eq : symbol .token parser = .done (found.sym == .token) found := by
    simp [symbol, getSymbol, idle, nextSymbol, bufferFuel, finds]
  by_cases starts : symbolAt (parser.buf.dropWhile isBlank) = some .token
  · rw [if_pos starts] at isToken ⊢
    refine ⟨?_, isToken⟩
    rw [symbol_eq, isToken.1]
    rfl
  · rw [if_neg starts] at isToken ⊢
    rw [symbol_eq, beq_false_of_ne isToken]

/-- The characters that may be an alias are those of the alias name in front. -/
theorem peekAlias_found {found : Parser} (hasSym : found.hasSym = true) (sym : found.sym = .token) :
    ∃ n, peekAlias found = .done n found ∧
      aliasAt found.buf = if n = 0 then none else some (found.buf.take n, found.buf.drop n) := by
  have kept : symbol .token found = .done true found := by simp [symbol, getSymbol, hasSym, sym]
  refine ⟨if (found.buf.take ((wordLength '\x00' found.buf).getD 0)).all isAliasChar then
    (wordLength '\x00' found.buf).getD 0 else 0, by simp [peekAlias, peekWord, kept], ?_⟩
  rw [aliasAt]
  generalize (wordLength '\x00' found.buf).getD 0 = n
  by_cases allowed : (found.buf.take n).all isAliasChar = true
  · rw [if_pos allowed]
    by_cases zero : n = 0
    · rw [if_pos zero, if_neg fun both : n ≠ 0 ∧ _ => both.1 zero]
    · rw [if_neg zero, if_pos ⟨zero, allowed⟩]
  · rw [if_neg allowed, if_pos rfl, if_neg fun both : n ≠ 0 ∧ _ => allowed both.2]

theorem applyAliasesLoop_token {found : Parser} (isToken : symbol .token parser = .done true found)
    (hasSym : found.hasSym = true) (sym : found.sym = .token) (fuel : Nat) :
    applyAliasesLoop table (fuel + 1) last parser =
      match aliasAt found.buf with
      | none => .done () found
      | some (name, rest) =>
          match table name with
          | none => .done () found
          | some value =>
              if last = some name then .done () found
              else applyAliasesLoop table fuel (some name) { found with buf := value ++ rest, hasSym := false } := by
  obtain ⟨n, peeked, starts⟩ := peekAlias_found hasSym sym
  rw [applyAliasesLoop, Run.bind_of_done isToken, if_pos rfl, Run.bind_of_done peeked, starts]
  by_cases zero : n = 0
  · simp [zero]
  · rw [if_neg (by simpa using zero), if_neg zero, Run.gets_bind]
    dsimp only
    cases table (found.buf.take n) with
    | none => rfl
    | some value =>
        by_cases again : last = some (found.buf.take n)
        · simp [again]
        · simp [again, consumeSymbol]

theorem aliasAt_loop {found : Parser} (isToken : symbol .token parser = .done true found)
    (hasSym : found.hasSym = true) (sym : found.sym = .token)
    (leads : ∀ name rest, aliasAt found.buf = some (name, rest) → leadingAlias parser.buf = some (name, rest)) :
    (∃ after, ∀ fuel, applyAliasesLoop table (fuel + 1) last parser = .done () after) ∨
      ∃ name next, aliasWords.Replaces table (last, parser.buf) (some name, next.buf) ∧ next.hasSym = false ∧
        ∀ fuel, applyAliasesLoop table (fuel + 1) last parser = applyAliasesLoop table fuel (some name) next := by
  have loop := fun fuel => @applyAliasesLoop_token parser table last found isToken hasSym sym fuel
  cases starts : aliasAt found.buf with
  | none => exact .inl ⟨found, fun fuel => by rw [loop, starts]⟩
  | some word =>
      obtain ⟨name, rest⟩ := word
      cases known : table name with
      | none => exact .inl ⟨found, fun fuel => by simp only [loop, starts, known]⟩
      | some value =>
          by_cases again : last = some name
          · exact .inl ⟨found, fun fuel => by simp only [loop, starts, known, if_pos again]⟩
          · refine .inr ⟨name, { found with buf := value ++ rest, hasSym := false }, ?_, rfl, ?_⟩
            · exact .replace (leads name rest starts) known again
            · intro fuel
              simp only [loop, starts, known, if_neg again]

theorem applyAliasesLoop_step (parser : Parser) (last : Option Str) :
    (∃ after, ∀ fuel, applyAliasesLoop table (fuel + 1) last parser = .done () after) ∨
      ∃ name next, aliasWords.Replaces table (last, parser.buf) (some name, next.buf) ∧ next.hasSym = false ∧
        ∀ fuel, applyAliasesLoop table (fuel + 1) last parser = applyAliasesLoop table fuel (some name) next := by
  have returns : ∀ {found}, symbol .token parser = .done false found →
      ∃ after, ∀ fuel, applyAliasesLoop table (fuel + 1) last parser = .done () after := by
    intro found notToken
    refine ⟨found, fun fuel => ?_⟩
    rw [applyAliasesLoop, Run.bind_of_done notToken]
    rfl
  cases idle : parser.hasSym with
  | true =>
      by_cases sym : parser.sym = .token
      · have isToken : symbol .token parser = .done true parser := by simp [symbol, getSymbol, idle, sym]
        exact aliasAt_loop isToken idle sym fun name rest => leadingAlias_of_aliasAt
      · exact .inl (@returns parser (by simp [symbol, getSymbol, idle, sym]))
  | false =>
      obtain ⟨found, hasSym, finds⟩ := symbol_token idle
      by_cases starts : symbolAt (parser.buf.dropWhile isBlank) = some .token
      · rw [if_pos starts] at finds
        obtain ⟨isToken, sym, buf⟩ := finds
        apply aliasAt_loop isToken hasSym sym
        intro name rest leads
        rw [leadingAlias, if_pos starts, ← buf]
        exact leads
      · rw [if_neg starts] at finds
        exact .inl (returns finds)

/-- The symbol that was found is the one that the text starts with. -/
def Settled (parser : Parser) : Prop := parser.hasSym = true → symbolAt parser.buf = some parser.sym

/-- Where the leading word is to be replaced, the next iteration replaces it. -/
theorem applyAliasesLoop_replaces {name : Str} (settled : Settled parser)
    (replaces : aliasWords.Replaces table (last, parser.buf) (some name, text)) :
    ∃ next, next.buf = text ∧ next.hasSym = false ∧
      ∀ fuel, applyAliasesLoop table (fuel + 1) last parser = applyAliasesLoop table fuel (some name) next := by
  cases replaces with
  | @replace _ _ rest value _ leads known fresh =>
      have leadsAlias : leadingAlias parser.buf = some (name, rest) := leads
      obtain ⟨found, hasSym, isToken, sym, startsAlias⟩ : ∃ found : Parser, found.hasSym = true ∧
          symbol .token parser = .done true found ∧ found.sym = .token ∧ aliasAt found.buf = some (name, rest) := by
        rw [leadingAlias, Option.ite_none_right_eq_some] at leadsAlias
        obtain ⟨starts, startsAlias⟩ := leadsAlias
        cases idle : parser.hasSym with
        | true =>
            have noBlanks := dropWhile_of_symbolAt (settled idle)
            rw [noBlanks, settled idle] at starts
            have sym := Option.some.inj starts
            rw [noBlanks] at startsAlias
            exact ⟨parser, idle, by simp [symbol, getSymbol, idle, sym], sym, startsAlias⟩
        | false =>
            obtain ⟨found, hasSym, finds⟩ := symbol_token idle
            rw [if_pos starts] at finds
            obtain ⟨isToken, sym, buf⟩ := finds
            exact ⟨found, hasSym, isToken, sym, buf ▸ startsAlias⟩
      refine ⟨{ found with buf := value ++ rest, hasSym := false }, rfl, rfl, fun fuel => ?_⟩
      rw [applyAliasesLoop_token isToken hasSym sym, startsAlias]
      simp only [known, if_neg fresh]

/-! ## Termination -/

theorem applyAliasesLoop_returns (ends : aliasWords.Terminates table (last, parser.buf)) :
    ∃ fuel after, applyAliasesLoop table fuel last parser = .done () after := by
  generalize situation_eq : (last, parser.buf) = situation at ends
  induction ends generalizing last parser with
  | intro situation _ ih =>
      subst situation_eq
      rcases @applyAliasesLoop_step table parser last with ⟨after, returns⟩ | ⟨name, next, replaces, -, goesOn⟩
      · exact ⟨1, after, returns 0⟩
      · obtain ⟨fuel, after, returns⟩ := ih _ replaces rfl
        exact ⟨fuel + 1, after, (goesOn fuel).trans returns⟩

theorem terminates_of_returns {fuel : Nat} {ended : Parser} (settled : Settled parser)
    (returns : applyAliasesLoop table fuel last parser = .done () ended) :
    aliasWords.Terminates table (last, parser.buf) := by
  induction fuel generalizing last parser with
  | zero => cases returns
  | succ fuel ih =>
      refine .intro _ ?_
      rintro ⟨final, text⟩ replaces
      obtain ⟨name, rfl⟩ : ∃ name, final = some name := by
        cases replaces
        exact ⟨_, rfl⟩
      obtain ⟨next, rfl, nextIdle, goesOn⟩ := applyAliasesLoop_replaces settled replaces
      exact ih (fun hasSym => absurd (nextIdle.symm.trans hasSym) Bool.false_ne_true) ((goesOn fuel).symm.trans returns)

/-- `apply_aliases` comes to an end. -/
def AliasesEnd (parser : Parser) : Prop := ∃ fuel after, applyAliases (productions fuel) parser = .done () after

theorem applyAliases_succ (aliases : parser.aliasFunc = some table) (fuel : Nat) :
    applyAliases (productions (fuel + 1)) parser = applyAliasesLoop table fuel none parser := by
  rw [applyAliases, Run.gets_bind, aliases]
  rfl

theorem AliasesEnd.of_terminates (aliases : parser.aliasFunc = some table)
    (terminates : aliasWords.Terminates table (none, parser.buf)) : AliasesEnd parser := by
  obtain ⟨fuel, after, ends⟩ := applyAliasesLoop_returns terminates
  exact ⟨fuel + 1, after, (applyAliases_succ aliases fuel).trans ends⟩

theorem AliasesEnd.terminates (aliases : parser.aliasFunc = some table) (settled : Settled parser)
    (ends : AliasesEnd parser) : aliasWords.Terminates table (none, parser.buf) := by
  obtain ⟨fuel, after, ends⟩ := ends
  cases fuel with
  | zero =>
      rw [applyAliases, Run.gets_bind, aliases] at ends
      cases ends
  | succ fuel =>
      rw [applyAliases_succ aliases] at ends
      exact terminates_of_returns settled ends

/-- `apply_aliases` returns on every input exactly when no alias of the table leads back to
itself, and on a given input exactly when no such alias comes up. -/
theorem applyAliases_returns_iff (table : Str → Option Str) (names : List Str)
    (finite : ∀ name, (table name).isSome = true → name ∈ names) :
    ((∀ parser : Parser, parser.aliasFunc = some table → AliasesEnd parser) ↔
        ∀ name, ¬ aliasWords.Recursive table name) ∧
      ∀ parser : Parser, parser.aliasFunc = some table → Settled parser →
        (AliasesEnd parser ↔ ∀ name, aliasWords.ComesUp table (none, parser.buf) name →
          ¬ aliasWords.Recursive table name) := by
  refine ⟨⟨?_, ?_⟩, ?_⟩
  · intro returns name recursive
    obtain ⟨text, comesUp⟩ := recursive.comesUp
    have ends := returns { mrshParserWithData text with aliasFunc := some table } rfl
    have terminates := ends.terminates rfl (fun hasSym => absurd hasSym Bool.false_ne_true)
    exact (LeadingWord.terminates_iff finite _).mp terminates name comesUp recursive
  · intro noneRecursive parser aliases
    refine .of_terminates aliases ((LeadingWord.terminates_iff finite _).mpr ?_)
    exact fun name _ => noneRecursive name
  · intro parser aliases settled
    rw [← LeadingWord.terminates_iff finite]
    exact ⟨fun ends => ends.terminates aliases settled, fun terminates => .of_terminates aliases terminates⟩

/-- The alias of `ls` that starts with its own name. -/
def listingAlias (name : Str) : Option Str := if name = ['l', 's'] then some ['l', 's', ' ', '-', 'l'] else none

/-- The alias of `ls` is not replaced again right after itself. -/
theorem applyAliases_returns_listing :
    AliasesEnd { mrshParserWithData ['l', 's', '\n'] with aliasFunc := some listingAlias } := by
  have finite : ∀ name, (listingAlias name).isSome = true → name ∈ [['l', 's']] := by
    intro name found
    by_contra other
    rw [listingAlias, if_neg (List.mem_singleton.not.mp other)] at found
    cases found
  have settled : Settled { mrshParserWithData ['l', 's', '\n'] with aliasFunc := some listingAlias } :=
    fun hasSym => absurd hasSym Bool.false_ne_true
  apply ((applyAliases_returns_iff listingAlias [['l', 's']] finite).2 _ rfl settled).mpr
  rintro name - ⟨value, last, text, rest, known, leads, again, fresh⟩
  have isListing : name = ['l', 's'] := by
    by_contra other
    rw [listingAlias, if_neg other] at known
    cases known
  subst isListing
  obtain rfl : value = ['l', 's', ' ', '-', 'l'] := (Option.some.inj known).symm
  rcases Relation.ReflTransGen.cases_head leads with here | ⟨next, replaces, -⟩
  · exact fresh (Prod.mk.inj here).1.symm
  · cases replaces with
    | replace leads known fresh =>
        have first : leadingAlias ['l', 's', ' ', '-', 'l'] = some (['l', 's'], [' ', '-', 'l']) := by decide +kernel
        cases first.symm.trans leads
        exact fresh rfl

/-- Two aliases for each other. -/
def mutualAliases (name : Str) : Option Str :=
  if name = ['a'] then some ['b'] else if name = ['b'] then some ['a'] else none

/-- The substitution of `a` never ends. -/
theorem applyAliases_mutual :
    ¬ ∀ (table : Str → Option Str) (names : List Str), (∀ name, (table name).isSome = true → name ∈ names) →
      ∀ parser : Parser, parser.aliasFunc = some table → AliasesEnd parser := by
  intro always
  have finite : ∀ name, (mutualAliases name).isSome = true → name ∈ [['a'], ['b']] := by
    intro name found
    by_contra other
    simp only [List.mem_cons, List.not_mem_nil, or_false, not_or] at other
    simp [mutualAliases, other] at found
  let parser : Parser := { mrshParserWithData ['a'] with aliasFunc := some mutualAliases }
  have ends := always mutualAliases _ finite parser rfl
  have first : aliasWords.leading ['a'] = some (['a'], []) := by decide +kernel
  have second : aliasWords.leading ['b'] = some (['b'], []) := by decide +kernel
  have fromB : aliasWords.Replaces mutualAliases (some ['a'], ['b']) (some ['b'], ['a']) := by
    have replaces :=
      @LeadingWord.Replaces.replace _ _ aliasWords mutualAliases (some ['a']) ['b'] [] ['a'] ['b'] second rfl
    exact replaces (by decide)
  have recursive : aliasWords.Recursive mutualAliases ['a'] :=
    ⟨['b'], some ['b'], ['a'], [], rfl, .single fromB, first, by decide⟩
  exact recursive.diverges first (by decide : none ≠ some ['a'])
    (ends.terminates rfl fun hasSym => absurd hasSym Bool.false_ne_true)

end Mrsh

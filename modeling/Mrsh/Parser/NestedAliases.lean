import Mrsh.Data.InsertedValues
import Mrsh.Parser.Aliases
import Mrsh.Parser.Shortening

namespace Mrsh

open Mrsh.Data

/-! # Aliases that are substituted twice

`command` and `cmd_name` both call `apply_aliases`, which only remembers the alias that it
replaced last itself. Between the calls text is taken from the front, so that the second one
may begin within a value that the first one has put there.
-/

/-! ## The words that are replaced -/

/-- `apply_aliases` with the words that it replaces and the values that are in the text. -/
def tracedAliasesLoop (aliasFunc : Str → Option Str) : Nat → Option Str → List (Inserted Str) →
    Parse (List (Replacement Str) × List (Inserted Str))
  | 0, _, _ => Run.stop .outOfFuel
  | fuel + 1, lastRepl, inserted => do
      if ← symbol .token then
        let aliasLen ← peekAlias
        if aliasLen == 0 then pure ([], inserted)
        else do
          let buf ← Run.gets (·.buf)
          let name := buf.take aliasLen
          match aliasFunc name with
          | none => pure ([], inserted)
          | some repl =>
              if lastRepl == some name then pure ([], inserted)
              else do
                let within := around inserted (buf.length - aliasLen)
                Run.modify fun parser => { parser with buf := repl ++ parser.buf.drop aliasLen }
                consumeSymbol
                let (made, final) ← tracedAliasesLoop aliasFunc fuel (some name) (⟨name, buf.length - aliasLen⟩ ::
                  within)
                pure (⟨name, within.map (·.name)⟩ :: made, final)
      else pure ([], inserted)

def tracedAliases (self : Productions) (inserted : List (Inserted Str)) :
    Parse (List (Replacement Str) × List (Inserted Str)) := do
  match ← Run.gets (·.aliasFunc) with
  | none => pure ([], inserted)
  | some aliasFunc => tracedAliasesLoop aliasFunc self.fuel none inserted

theorem tracedAliasesLoop_erased (table : Str → Option Str) (fuel : Nat) (last : Option Str)
    (inserted : List (Inserted Str)) (parser : Parser) :
    (tracedAliasesLoop table fuel last inserted parser).andThen (fun _ after => .done () after) =
      applyAliasesLoop table fuel last parser := by
  induction fuel generalizing last inserted parser with
  | zero => rfl
  | succ fuel ih =>
      rw [tracedAliasesLoop, applyAliasesLoop, Run.bind_apply, Run.bind_apply, Outcome.andThen_assoc]
      congr 1
      funext isToken found
      cases isToken with
      | false => rfl
      | true =>
          simp only [if_true]
          rw [Run.bind_apply, Run.bind_apply, Outcome.andThen_assoc]
          congr 1
          funext aliasLen found
          by_cases zero : (aliasLen == 0) = true
          · rw [if_pos zero, if_pos zero]
            rfl
          · rw [if_neg zero, if_neg zero, Run.bind_apply, Run.bind_apply, Run.gets_apply, Outcome.andThen_done,
              Outcome.andThen_done]
            cases table (found.buf.take aliasLen) with
            | none => rfl
            | some repl =>
                by_cases again : (last == some (found.buf.take aliasLen)) = true
                · simp only [again, if_true, Run.pure_apply, Outcome.andThen_done]
                · simp only [again, if_false, Run.bind_apply, Run.modify_apply, Outcome.andThen_done,
                    Outcome.andThen_assoc,
                    consumeSymbol, Run.pure_apply, Bool.false_eq_true]
                  exact ih _ _ _

theorem tracedAliases_erased (self : Productions) (inserted : List (Inserted Str)) (parser : Parser) :
    (tracedAliases self inserted parser).andThen (fun _ after => .done () after) = applyAliases self parser := by
  rw [tracedAliases, applyAliases, Run.bind_apply, Run.bind_apply, Run.gets_apply, Outcome.andThen_done,
    Outcome.andThen_done]
  cases parser.aliasFunc with
  | none => rfl
  | some table => exact tracedAliasesLoop_erased table self.fuel none inserted parser

/-! ## The loop as replacements of leading words -/

/-- The words of the shell are read at the front. -/
def frontAliasWords : FrontWord Char Str where
  toLeadingWord := aliasWords
  consumed {text name rest} leads := by
    obtain ⟨found, nonempty, -, -⟩ := leadingAlias_iff.mp leads
    refine ⟨text.takeWhile isBlank ++ name, by simp [nonempty], ?_⟩
    rw [List.append_assoc, ← found, List.takeWhile_append_dropWhile]
  behind_blank {text after} blank := by
    have same : (text ++ after).dropWhile isBlank = after.dropWhile isBlank := by
      rw [List.dropWhile_append, show text.dropWhile isBlank = [] from blank]
      rfl
    change leadingAlias (text ++ after) = leadingAlias after
    rw [leadingAlias, leadingAlias, same]

variable {parser found : Parser} {table : Str → Option Str} {last : Option Str} {inserted final : List (Inserted Str)}
  {made : List (Replacement Str)}

theorem tracedAliasesLoop_token (isToken : symbol .token parser = .done true found) (hasSym : found.hasSym = true)
    (sym : found.sym = .token) (fuel : Nat) :
    tracedAliasesLoop table (fuel + 1) last inserted parser =
      match aliasAt found.buf with
      | none => .done ([], inserted) found
      | some (name, rest) =>
          match table name with
          | none => .done ([], inserted) found
          | some value =>
              if last = some name then .done ([], inserted) found
              else (tracedAliasesLoop table fuel (some name) (⟨name, rest.length⟩ :: around inserted rest.length)
                  { found with buf := value ++ rest, hasSym := false }).andThen fun traced after =>
                .done (⟨name, (around inserted rest.length).map (·.name)⟩ :: traced.1, traced.2) after := by
  obtain ⟨n, peeked, starts⟩ := peekAlias_found hasSym sym
  rw [tracedAliasesLoop, Run.bind_of_done isToken, if_pos rfl, Run.bind_of_done peeked, starts]
  by_cases zero : n = 0
  · simp [zero]
  · rw [if_neg (by simpa using zero), if_neg zero, Run.gets_bind]
    dsimp only
    cases table (found.buf.take n) with
    | none => rfl
    | some value =>
        by_cases again : last = some (found.buf.take n)
        · simp [again]
        · simp [again, consumeSymbol, List.length_drop]

/-- The alias name in front is found where the next symbol is a token. -/
theorem symbol_leadingAlias (settled : Settled parser) : ∃ found, Shortens parser found ∧
    ((symbol .token parser = .done true found ∧ found.hasSym = true ∧ found.sym = .token ∧
        aliasAt found.buf = leadingAlias parser.buf) ∨
      symbol .token parser = .done false found ∧ leadingAlias parser.buf = none) := by
  have shortened : ∀ {isToken found}, symbol .token parser = .done isToken found → Shortens parser found := fun read =>
    (symbol_respects shortens.reading _).keeps read
  cases idle : parser.hasSym with
  | true =>
      have starts := settled idle
      have noBlanks := dropWhile_of_symbolAt starts
      refine ⟨parser, Shortens.refl _, ?_⟩
      rw [leadingAlias, noBlanks, starts]
      by_cases isToken : parser.sym = .token
      · left
        simp [symbol, getSymbol, idle, isToken]
      · right
        simp [symbol, getSymbol, idle, isToken]
  | false =>
      obtain ⟨found, hasSym, finds⟩ := symbol_token idle
      rw [leadingAlias]
      split at finds
      · rename_i starts
        obtain ⟨read, sym, buf⟩ := finds
        exact ⟨found, shortened read, .inl ⟨read, hasSym, sym, by rw [if_pos starts, buf]⟩⟩
      · rename_i starts
        exact ⟨found, shortened finds, .inr ⟨finds, by rw [if_neg starts]⟩⟩

theorem stuck_of_leadingAlias {text : Str}
    (stays : ∀ name rest value, leadingAlias text = some (name, rest) → table name = some value → last = some name) :
    frontAliasWords.Stuck table (last, text) := by
  intro next replaces
  cases replaces with
  | replace leads found fresh => exact fresh (stays _ _ _ leads found)

/-- The loop makes the replacements of leading words until there is none. -/
theorem tracedAliasesLoop_makes {fuel : Nat} {after : Parser} (settled : Settled parser)
    (traced : tracedAliasesLoop table fuel last inserted parser = .done (made, final) after) :
    ∃ situation, frontAliasWords.Makes table inserted (last, parser.buf) made final situation ∧
      frontAliasWords.Stuck table situation ∧ after.buf <:+ situation.2 ∧ after.aliasFunc = parser.aliasFunc := by
  induction fuel generalizing last inserted parser made with
  | zero => cases traced
  | succ fuel ih =>
      obtain ⟨found, shortened, looked⟩ := symbol_leadingAlias settled
      have returns : (∀ name rest value, leadingAlias parser.buf = some (name, rest) → table name = some value →
          last = some name) → tracedAliasesLoop table (fuel + 1) last inserted parser = .done ([], inserted) found →
          ∃ situation, frontAliasWords.Makes table inserted (last, parser.buf) made final situation ∧
            frontAliasWords.Stuck table situation ∧ after.buf <:+ situation.2 ∧ after.aliasFunc = parser.aliasFunc := by
        intro stays ended
        rw [ended] at traced
        cases traced
        exact ⟨_, .nothing _ _, stuck_of_leadingAlias stays, shortened.suffix, shortened.sameAlias⟩
      rcases looked with ⟨isToken, hasSym, sym, sameAlias⟩ | ⟨notToken, noAlias⟩
      · have loop := @tracedAliasesLoop_token parser found table last inserted isToken hasSym sym fuel
        rw [sameAlias] at loop
        cases leads : leadingAlias parser.buf with
        | none => exact returns (by simp [leads]) (by rw [loop, leads])
        | some word =>
            obtain ⟨name, rest⟩ := word
            rw [leads] at loop
            cases known : table name with
            | none =>
                refine returns (fun other rest' value same found => ?_) (by rw [loop]; simp only [known])
                cases leads.symm.trans same
                cases known.symm.trans found
            | some value =>
                simp only [known] at loop
                by_cases again : last = some name
                · refine returns (fun other rest' value' same _ => ?_) (by rw [loop, if_pos again])
                  cases leads.symm.trans same
                  exact again
                · rw [if_neg again, traced] at loop
                  obtain ⟨⟨more, finalMore⟩, between, further, ended⟩ := Outcome.andThen_eq_done.mp loop.symm
                  cases ended
                  obtain ⟨situation, makes, stuck, left, alias_⟩ := ih (fun hasSym => by cases hasSym) further
                  exact ⟨situation, .replace leads known again makes, stuck, left, alias_.trans shortened.sameAlias⟩
      · refine returns (by simp [noAlias]) ?_
        rw [tracedAliasesLoop, Run.bind_of_done notToken]
        rfl

/-- The loop replaces nothing when the symbol does not fit the text. -/
theorem tracedAliasesLoop_unsettled {fuel : Nat} {after : Parser} (unsettled : ¬ Settled parser)
    (traced : tracedAliasesLoop table fuel last inserted parser = .done (made, final) after) :
    made = [] ∧ final = inserted ∧ after = parser := by
  obtain ⟨hasSym, misfit⟩ := Classical.not_imp.mp unsettled
  cases fuel with
  | zero => cases traced
  | succ fuel =>
      have read : symbol .token parser = .done (parser.sym == .token) parser := by simp [symbol, getSymbol, hasSym]
      by_cases isToken : parser.sym = .token
      · rw [isToken] at read
        have noAlias : aliasAt parser.buf = none := by
          apply Option.eq_none_iff_forall_ne_some.mpr
          rintro ⟨name, rest⟩ starts
          obtain ⟨same, nonempty, allowed, -⟩ := aliasAt_iff.mp starts
          obtain ⟨c, more, rfl⟩ := List.exists_cons_of_ne_nil nonempty
          apply misfit
          rw [same, isToken]
          exact symbolAt_aliasChar (allowed c List.mem_cons_self)
        rw [tracedAliasesLoop_token read hasSym isToken, noAlias] at traced
        cases traced
        exact ⟨rfl, rfl, rfl⟩
      · rw [tracedAliasesLoop, Run.bind_of_done read, beq_false_of_ne isToken] at traced
        cases traced
        exact ⟨rfl, rfl, rfl⟩

theorem terminates_of_traced {fuel : Nat} {after : Parser} (settled : Settled parser)
    (traced : tracedAliasesLoop table fuel last inserted parser = .done (made, final) after) :
    aliasWords.Terminates table (last, parser.buf) := by
  have erased := tracedAliasesLoop_erased table fuel last inserted parser
  rw [traced] at erased
  exact terminates_of_returns settled erased.symm

/-! ## From `command` to the name -/

/-- A run of `command` that gets to `cmd_name`. -/
structure ReachesName (functions : Productions) (start substituted reached : Parser) (made : List (Replacement Str))
    (inserted : List (Inserted Str)) : Prop where
  /-- The substitution of `command`. -/
  substitutes : tracedAliases functions [] start = .done (made, inserted) substituted
  /-- No compound command is found, and the redirections and assignments before the name are read. -/
  reads : ∃ between cmd, compoundCommand functions substituted = .done none between ∧ between.error = none ∧
    repeatPart (cmdPrefix functions) functions.fuel ⟨none, [], [], []⟩ between = .done cmd reached

theorem ReachesName.shortens {fuel : Nat} {start substituted reached : Parser}
    (reaches : ReachesName (productions fuel) start substituted reached made inserted) :
      Shortens substituted reached := by
  obtain ⟨between, cmd, refused, noError, read⟩ := reaches.reads
  exact (compoundCommand_refuses refused noError).trans (cmdPrefixes_shorten fuel _ _ read)

/-- `command` substitutes no alias within its own value, and `cmd_name` does not either, exactly
when no value that `command` has put into the text in front of the name leads back to its alias. -/
theorem substitutes_once_iff {fuel : Nat} {start substituted reached after : Parser} {again : List (Replacement Str)}
    (aliases : start.aliasFunc = some table)
    (reaches : ReachesName (productions fuel) start substituted reached made inserted)
    (substitutes : tracedAliases (productions fuel) inserted reached = .done (again, final) after) :
    (∀ replacement ∈ made ++ again, ¬ replacement.Nested) ↔
      (Settled reached → ∀ value ∈ inserted, ¬ frontAliasWords.LeadsBack table (none, reached.buf) value) := by
  have shortened := reaches.shortens
  have first := reaches.substitutes
  rw [tracedAliases, Run.gets_bind, aliases] at first
  by_cases settled : Settled start
  · obtain ⟨⟨last, between⟩, makes, -, left, sameAlias⟩ := tracedAliasesLoop_makes settled first
    have ends := terminates_of_traced settled first
    rw [tracedAliases, Run.gets_bind, shortened.sameAlias.trans (sameAlias.trans aliases)] at substitutes
    by_cases settledAgain : Settled reached
    · obtain ⟨situation, makesAgain, stuck, -, -⟩ := tracedAliasesLoop_makes settledAgain substitutes
      rw [FrontWord.not_nested_twice makes ends (shortened.suffix.trans left) makesAgain
        (terminates_of_traced settledAgain substitutes) stuck]
      exact ⟨fun holds _ => holds, fun holds => holds settledAgain⟩
    · obtain ⟨rfl, -, -⟩ := tracedAliasesLoop_unsettled settledAgain substitutes
      refine ⟨fun _ settled => absurd settled settledAgain, fun _ => ?_⟩
      rw [List.append_nil]
      exact makes.not_nested (fun _ member => absurd member List.not_mem_nil) ends fun _ member =>
        absurd member List.not_mem_nil
  · obtain ⟨rfl, rfl, rfl⟩ := tracedAliasesLoop_unsettled settled first
    rw [tracedAliases, Run.gets_bind, shortened.sameAlias.trans aliases] at substitutes
    refine ⟨fun _ _ _ member => absurd member List.not_mem_nil, fun _ => ?_⟩
    rw [List.nil_append]
    by_cases settledAgain : Settled reached
    · obtain ⟨situation, makesAgain, -, -, -⟩ := tracedAliasesLoop_makes settledAgain substitutes
      exact makesAgain.not_nested (fun _ member => absurd member List.not_mem_nil)
        (terminates_of_traced settledAgain substitutes) fun _ member => absurd member List.not_mem_nil
    · obtain ⟨rfl, -, -⟩ := tracedAliasesLoop_unsettled settledAgain substitutes
      exact fun _ member => absurd member List.not_mem_nil

theorem reachesName_of_values {functions : Productions} {start substituted between : Parser} {cmd : SimpleCommand}
    (first : (tracedAliases functions [] start).value? = some (made, inserted))
    (isSubstituted : (tracedAliases functions [] start).state = substituted)
    (refused : (compoundCommand functions substituted).value? = some none)
    (isBetween : (compoundCommand functions substituted).state = between) (noError : between.error = none)
    (read : (repeatPart (cmdPrefix functions) functions.fuel ⟨none, [], [], []⟩ between).value? = some cmd) :
    ReachesName functions start substituted
      (repeatPart (cmdPrefix functions) functions.fuel ⟨none, [], [], []⟩ between).state made inserted where
  substitutes := by rw [Outcome.eq_done_of_value? first, isSubstituted]
  reads := ⟨between, cmd, by rw [Outcome.eq_done_of_value? refused, isBetween], noError, Outcome.eq_done_of_value? read⟩

/-- The value of the alias begins with the other word. -/
def BeginsWith (table : Str → Option Str) (name other : Str) : Prop :=
  ∃ value rest, table name = some value ∧ leadingAlias value = some (other, rest)

/-- No alias leads to another one that leads back to it. -/
def OwnCyclesOnly (table : Str → Option Str) : Prop :=
  ∀ name other, Relation.TransGen (BeginsWith table) name other → Relation.TransGen (BeginsWith table) other name →
    name = other

/-- A shorthand for a command with an option. -/
def shorthandAlias (name : Str) : Option Str := if name = ['l', 'l'] then some ['l', 's', ' ', '-', 'l'] else none

def aliasedParser (table : Str → Option Str) (line : Str) : Parser :=
  { mrshParserWithData line with aliasFunc := some table }

/-- The parser before the name of a command without redirections and assignments. -/
def beforeName (functions : Productions) (start : Parser) : Parser :=
  (repeatPart (cmdPrefix functions) functions.fuel ⟨none, [], [], []⟩
    (compoundCommand functions (tracedAliases functions [] start).state).state).state

theorem reachesName_shorthand : ReachesName (productions 8) (aliasedParser shorthandAlias ['l', 'l', '\n'])
    (tracedAliases (productions 8) [] (aliasedParser shorthandAlias ['l', 'l', '\n'])).state
    (beforeName (productions 8) (aliasedParser shorthandAlias ['l', 'l', '\n']))
    [⟨['l', 'l'], []⟩] [⟨['l', 'l'], 1⟩] :=
  reachesName_of_values (by decide +kernel) rfl rfl rfl (by decide +kernel) rfl

/-- The shorthand is substituted once. -/
theorem substitutes_once_shorthand : ∃ start substituted reached after made inserted again final,
    ReachesName (productions 8) start substituted reached made inserted ∧
      tracedAliases (productions 8) inserted reached = .done (again, final) after ∧ made ≠ [] ∧
      ∀ replacement ∈ made ++ again, ¬ replacement.Nested := by
  have again : (tracedAliases (productions 8) [⟨['l', 'l'], 1⟩]
      (beforeName (productions 8) (aliasedParser shorthandAlias ['l', 'l', '\n']))).value? =
        some ([], [⟨['l', 'l'], 1⟩]) := by decide +kernel
  refine ⟨_, _, _, _, _, _, _, _, reachesName_shorthand, Outcome.eq_done_of_value? again, by simp, ?_⟩
  refine (substitutes_once_iff rfl reachesName_shorthand (Outcome.eq_done_of_value? again)).mpr ?_
  rintro - value member ⟨left, behind, split, length, last, text, rest, leads, leading, fresh⟩
  obtain rfl := List.mem_singleton.mp member
  have text_eq : (beforeName (productions 8) (aliasedParser shorthandAlias ['l', 'l', '\n'])).buf =
      ['l', 's', ' ', '-', 'l', '\n'] := by decide +kernel
  have same : left ++ behind = ['l', 's', ' ', '-', 'l'] ++ ['\n'] := split.symm.trans text_eq
  obtain ⟨rfl, -⟩ := List.append_inj' same length
  have first : leadingAlias ['l', 's', ' ', '-', 'l'] = some (['l', 's'], [' ', '-', 'l']) := by decide +kernel
  rcases Relation.ReflTransGen.cases_head leads with here | ⟨next, replaces, -⟩
  · cases here
    cases first.symm.trans leading
  · cases replaces with
    | replace leadsOther found freshOther =>
        cases first.symm.trans leadsOther
        cases found

/-- The alias of `ls` for itself with an option is substituted twice. -/
theorem substitutes_twice_listing :
    ¬ ∀ (fuel : Nat) (table : Str → Option Str) (start substituted reached after : Parser)
      (made again : List (Replacement Str)) (inserted final : List (Inserted Str)),
        OwnCyclesOnly table → start.aliasFunc = some table →
        ReachesName (productions fuel) start substituted reached made inserted →
        tracedAliases (productions fuel) inserted reached = .done (again, final) after →
        ∀ replacement ∈ made ++ again, ¬ replacement.Nested := by
  intro always
  have begins : ∀ name other, BeginsWith listingAlias name other → name = ['l', 's'] ∧ other = ['l', 's'] := by
    rintro name other ⟨value, rest, known, leads⟩
    by_cases isListing : name = ['l', 's']
    · rw [listingAlias, if_pos isListing] at known
      cases known
      have first : leadingAlias ['l', 's', ' ', '-', 'l'] = some (['l', 's'], [' ', '-', 'l']) := by decide +kernel
      cases first.symm.trans leads
      exact ⟨isListing, rfl⟩
    · rw [listingAlias, if_neg isListing] at known
      cases known
  have ownOnly : OwnCyclesOnly listingAlias := by
    intro name other leads back
    obtain ⟨next, first, -⟩ := Relation.TransGen.head'_iff.mp leads
    obtain ⟨nextBack, firstBack, -⟩ := Relation.TransGen.head'_iff.mp back
    exact (begins _ _ first).1.trans (begins _ _ firstBack).1.symm
  have reaches : ReachesName (productions 8) (aliasedParser listingAlias ['l', 's', '\n'])
      (tracedAliases (productions 8) [] (aliasedParser listingAlias ['l', 's', '\n'])).state
      (beforeName (productions 8) (aliasedParser listingAlias ['l', 's', '\n']))
      [⟨['l', 's'], []⟩] [⟨['l', 's'], 1⟩] :=
    reachesName_of_values (by decide +kernel) rfl rfl rfl (by decide +kernel) rfl
  have again : (tracedAliases (productions 8) [⟨['l', 's'], 1⟩]
      (beforeName (productions 8) (aliasedParser listingAlias ['l', 's', '\n']))).value? =
        some ([⟨['l', 's'], [['l', 's']]⟩], [⟨['l', 's'], 4⟩, ⟨['l', 's'], 1⟩]) := by decide +kernel
  have none := always 8 listingAlias _ _ _ _ _ _ _ _ ownOnly rfl reaches (Outcome.eq_done_of_value? again)
  exact none ⟨['l', 's'], [['l', 's']]⟩ (by simp) (by decide)

end Mrsh

import Mrsh.Builtin.OptionSequence

namespace Mrsh

open Mrsh.Data

/-! # The options that POSIX has

Repeated calls of `_mrsh_getopt` beside the scan of the options that POSIX gives.
`_mrsh_getopt` does not set `optpos` back after an option with an argument, so that
it begins the next group at a later letter.
-/

/-- The options of an option string without leading colon. -/
def posixOption (optstring : Str) (c : Char) : Option Bool := if c = ':' then none else findOptionChar c optstring

/-- The next argument is no group of options. -/
def NoGroup (later : List Str) : Prop :=
  ∀ c letters rest, later = ('-' :: c :: letters) :: rest → c = '-' ∧ letters = []

/-- No letter is skipped: behind an option with an argument that is not the first one of its group there
is no other group, and no group begins with a second hyphen. `atFirst` says that the scan is at the first
letter of its group, or would be in the next one. -/
inductive NoneSkipped (takes : Char → Option Bool) : Bool → Str → List Str → Prop
  | ended {atFirst : Bool} {later : List Str} (noGroup : NoGroup later) : NoneSkipped takes atFirst [] later
  | group {c : Char} {letters : Str} {later : List Str} (single : c ≠ '-')
      (rest : NoneSkipped takes true (c :: letters) later) : NoneSkipped takes true [] (('-' :: c :: letters) :: later)
  | flag {atFirst : Bool} {c : Char} {letters : Str} {later : List Str} (flag : takes c = some false)
      (rest : NoneSkipped takes letters.isEmpty letters later) : NoneSkipped takes atFirst (c :: letters) later
  | attached {atFirst : Bool} {c : Char} {letters : Str} {later : List Str} (argument : takes c = some true)
      (more : letters ≠ []) (rest : NoneSkipped takes atFirst [] later) : NoneSkipped takes atFirst (c :: letters) later
  | separate {atFirst : Bool} {c : Char} {arg : Str} {later : List Str} (argument : takes c = some true)
      (rest : NoneSkipped takes atFirst [] later) : NoneSkipped takes atFirst [c] (arg :: later)

/-- What is left at the letter `b` of `args[j]`: `letters` of the group, if the scan is in one, and `later`. -/
inductive Left (args : List Str) : Nat → Nat → Str → List Str → Prop
  | between {j b : Nat} {later : List Str} (inside : j ≤ args.length) (rest : args.drop j = later) :
    Left args j b [] later
  | within {j b : Nat} {c : Char} {arg letters : Str} {later : List Str} (rest : args.drop j = arg :: later)
      (left : arg.drop b = c :: letters) : Left args j b (c :: letters) later

section

variable {optstring arg letters : Str} {args later operands : List Str} {i a j b j' b' : Nat} {c : Char}
  {optarg : Option Str} {results : List (Char × Option Str)}

theorem posixOption_found {takes : Bool} (noColon : optstring.head? ≠ some ':')
    (known : posixOption optstring c = some takes) :
    findOptionChar c (optionChars optstring) = some takes := by
  unfold posixOption at known
  split at known
  · cases known
  · rw [← known]
    unfold optionChars
    split
    · exact absurd rfl noColon
    · rfl

theorem drop_cons (rest : args.drop j = arg :: later) :
    args[j]? = some arg ∧ args.drop (j + 1) = later ∧ j + 1 ≤ args.length := by
  have found : args[j]? = some arg := by rw [← List.head?_drop, rest, List.head?_cons]
  obtain ⟨inside, -⟩ := List.getElem?_eq_some_iff.mp found
  exact ⟨found, by rw [← List.tail_drop, rest, List.tail_cons], inside⟩

/-- The position of the code is in a group. -/
def InGroup (args : List Str) (j : Nat) : Prop := ∃ arg, GroupAt args j arg

theorem Left.flag (left : Left args j b (c :: letters) later) (group : InGroup args j)
    (flag : findOptionChar c (optionChars optstring) = some false) (positive : 1 ≤ b) :
    ∃ j' b', OptionTaken optstring args j b c none j' b' ∧ Left args j' b' letters later ∧
    (letters ≠ [] → InGroup args j') ∧
      (b' == 1) = letters.isEmpty ∧ 1 ≤ b' := by
  cases left with
  | within rest left =>
      obtain ⟨found, behind, inside⟩ := drop_cons rest
      obtain ⟨arg, group⟩ := group
      cases group.1.symm.trans found
      cases letters with
      | nil => exact ⟨j + 1, 1, .lastFlag group left flag, .between inside behind, fun some =>
        absurd rfl some, rfl, Nat.le_refl _⟩
      | cons d letters =>
          have later : b + 1 ≠ 1 := by omega
          exact ⟨j, b + 1, .flag group left (List.cons_ne_nil _ _) flag, .within rest (drop_succ left),
            fun _ => ⟨_, group⟩, by simpa using later, by omega⟩

theorem Left.attached (left : Left args j b (c :: letters) later) (group : InGroup args j)
    (argument : findOptionChar c (optionChars optstring) = some true) (more : letters ≠ []) :
    OptionTaken optstring args j b c (some letters) (j + 1) b ∧ Left args (j + 1) b [] later := by
  cases left with
  | within rest left =>
      obtain ⟨found, behind, inside⟩ := drop_cons rest
      obtain ⟨arg, group⟩ := group
      cases group.1.symm.trans found
      exact ⟨.attached group left more argument, .between inside behind⟩

theorem Left.separate (left : Left args j b [c] (arg :: later)) (group : InGroup args j)
    (argument : findOptionChar c (optionChars optstring) = some true) :
    OptionTaken optstring args j b c (some arg) (j + 2) b ∧ Left args (j + 2) b [] later := by
  cases left with
  | within rest left =>
      obtain ⟨found, behind, -⟩ := drop_cons rest
      obtain ⟨next, behind, inside⟩ := drop_cons behind
      obtain ⟨arg, group⟩ := group
      cases group.1.symm.trans found
      exact ⟨.separate group left argument next, .between inside behind⟩

theorem Left.stops (left : Left args j b [] later) (noGroup : NoGroup later)
    {takes : Char → Option Bool} {quiet : Bool} (reports : Reports takes quiet [] later results operands) :
    results = [] ∧ ScanStops args j (args.length - operands.length) ∧ operands.length ≤ args.length := by
  cases left with
  | between inside rest =>
      cases reports with
      | finished =>
          have past := List.drop_eq_nil_iff.mp rest
          have same : j = args.length := Nat.le_antisymm inside past
          subst same
          exact ⟨rfl, .past (Nat.le_refl _), Nat.zero_le _⟩
      | terminator =>
          obtain ⟨found, rfl, inside⟩ := drop_cons rest
          have next : args.length - (args.drop (j + 1)).length = j + 1 := by
            rw [List.length_drop]
            omega
          rw [next]
          exact ⟨rfl, .dashes found, by rw [List.length_drop]; omega⟩
      | operand plain =>
          obtain ⟨found, -, inside⟩ := drop_cons rest
          have next : args.length - (args.drop j).length = j := by
            rw [List.length_drop]
            omega
          rw [← rest, next]
          exact ⟨rfl, .operand found plain, by rw [List.length_drop]; omega⟩
      | group notEnd =>
          obtain ⟨dash, last⟩ := noGroup _ _ _ rfl
          exact absurd last (notEnd dash)

theorem Left.begin {letters : Str} (left : Left args j b [] (('-' :: c :: letters) :: later)) (single : c ≠ '-') :
    Left args j 1 (c :: letters) later ∧ InGroup args j := by
  cases left with
  | between inside rest =>
      obtain ⟨found, -⟩ := drop_cons rest
      exact ⟨.within rest rfl, _, found, c, letters, rfl, single⟩

end

section

variable {World : Type} [System World] {optstring letters : Str} {args later operands : List Str} {j b : Nat}
  {results : List (Char × Option Str)}

theorem Left.delivers_nothing {state : Shell World} (left : Left args j b [] later) (noGroup : NoGroup later)
    (scans : ScansTo (posixOption optstring) [] later results operands) (cStrings : AreCStrings args)
    (scanAt : ScanAt state j b) :
    ∃ after, Delivers args optstring state results after ∧
      after.getopt.optind = (args.length - operands.length : Nat) := by
  obtain ⟨rfl, stops, -⟩ := left.stops noGroup (.of_scansTo false scans)
  obtain ⟨after, returned, optind⟩ := stops.returned optstring cStrings scanAt
  exact ⟨after, .ended returned, optind⟩

theorem OptionTaken.delivers {state : Shell World} {last : Int} {c : Char} {optarg : Option Str} {j' b' : Nat}
    (takes : OptionTaken optstring args j b c optarg j' b') (cStrings : AreCStrings args) (scanAt : ScanAt state j b)
    (delivers : ∀ between : Shell World, ScanAt between j' b' →
      ∃ after, Delivers args optstring between results after ∧ after.getopt.optind = last) :
    ∃ after, Delivers args optstring state ((c, optarg) :: results) after ∧ after.getopt.optind = last := by
  obtain ⟨between, returned, rfl, -, next⟩ := takes.returned cStrings scanAt
  obtain ⟨after, rest, optind⟩ := delivers between next
  exact ⟨after, .option returned rest, optind⟩

theorem noGroup_nil : NoGroup [] := fun _ _ _ same => nomatch same

theorem noGroup_terminator (later : List Str) : NoGroup (['-', '-'] :: later) := by
  intro c letters rest same
  cases same
  exact ⟨rfl, rfl⟩

theorem noGroup_operand {arg : Str} (plain : ∀ c letters, arg ≠ '-' :: c :: letters) (later : List Str) :
    NoGroup (arg :: later) := by
  intro c letters rest same
  cases same
  exact absurd rfl (plain c letters)

/-- Where no letter is skipped, the calls deliver what the scan gives. -/
theorem Left.delivers (noColon : optstring.head? ≠ some ':') (cStrings : AreCStrings args)
    (scans : ScansTo (posixOption optstring) letters later results operands) {atFirst : Bool}
    (noneSkipped : NoneSkipped (posixOption optstring) atFirst letters later) (first : (b == 1) = atFirst)
    {state : Shell World} (left : Left args j b letters later) (group : letters ≠ [] → InGroup args j)
    (positive : 1 ≤ b) (scanAt : ScanAt state j b) :
    ∃ after, Delivers args optstring state results after ∧
      after.getopt.optind = (args.length - operands.length : Nat) := by
  induction scans generalizing state j b atFirst with
  | finished => exact left.delivers_nothing noGroup_nil .finished cStrings scanAt
  | terminator => exact left.delivers_nothing (noGroup_terminator _) .terminator cStrings scanAt
  | operand plain => exact left.delivers_nothing (noGroup_operand plain _) (.operand plain) cStrings scanAt
  | group notEnd scans ih =>
      cases noneSkipped with
      | ended noGroup => exact left.delivers_nothing noGroup (.group notEnd scans) cStrings scanAt
      | group single rest =>
          obtain ⟨left, group⟩ := left.begin single
          have atOne : b = 1 := by simpa using first
          exact ih rest first (atOne ▸ left) (fun _ => group) positive scanAt
  | flag flag scans ih =>
      cases noneSkipped with
      | flag _ rest =>
          obtain ⟨j', b', takes, left, group, first, positive⟩ :=
            left.flag (group (List.cons_ne_nil _ _)) (posixOption_found noColon flag) positive
          exact takes.delivers cStrings scanAt fun _ next => ih rest first left group positive next
      | attached argument => cases flag.symm.trans argument
      | separate argument => cases flag.symm.trans argument
  | attached argument more scans ih =>
      cases noneSkipped with
      | flag flag => cases flag.symm.trans argument
      | attached _ _ rest =>
          obtain ⟨takes, left⟩ := left.attached (group (List.cons_ne_nil _ _)) (posixOption_found noColon argument) more
          exact takes.delivers cStrings scanAt fun _ next => ih rest first left (fun some =>
            absurd rfl some) positive next
      | separate => exact absurd rfl more
  | separate argument scans ih =>
      cases noneSkipped with
      | flag flag => cases flag.symm.trans argument
      | attached _ more => exact absurd rfl more
      | separate _ rest =>
          obtain ⟨takes, left⟩ := left.separate (group (List.cons_ne_nil _ _)) (posixOption_found noColon argument)
          exact takes.delivers cStrings scanAt fun _ next => ih rest first left (fun some =>
            absurd rfl some) positive next

end

/-! ## Positions that are ahead of the scan -/

/-- The code at the position `j`, `b` is ahead of the scan at `i`, `a`, and will not come back to it. -/
structure Ahead (optstring : Str) (args : List Str) (letters : Str) (i a j b : Nat) : Prop where
  positive : 1 ≤ b
  later : i < j ∨ i = j ∧ a < b ∧ InGroup args j
  start : letters = [] → a = 1
  /-- Behind a flag of the scan, the code comes from a flag, too. -/
  flag : 1 < a → b = 1 ∨ ∃ arg c rest, args[j]? = some arg ∧ arg.drop (b - 1) = c :: rest ∧
    findOptionChar c (optionChars optstring) = some false
  notEnd : letters = [] → args[i]? = some ['-', '-'] → j = i + 1 → InGroup args j

section

variable {optstring arg letters : Str} {args later operands : List Str} {i a j b j' b' : Nat} {c : Char}
  {optarg : Option Str}

theorem GroupAt.inGroup (group : GroupAt args j arg) : InGroup args j := ⟨arg, group⟩

theorem InGroup.not_end (group : InGroup args j) : args[j]? ≠ some ['-', '-'] := by
  intro found
  obtain ⟨arg, found', d, letters, shape, single⟩ := group
  cases found.symm.trans found'
  cases shape
  exact single rfl

theorem Ahead.between (positive : 1 ≤ b) (later : i < j ∨ i = j ∧ 1 < b ∧ InGroup args j)
    (notEnd : args[i]? = some ['-', '-'] → j = i + 1 → InGroup args j) : Ahead optstring args [] i 1 j b :=
  ⟨positive, later, fun _ => rfl, fun past => absurd past (Nat.lt_irrefl 1), fun _ => notEnd⟩

theorem shorter_left {d : Char} {others : Str} (left : arg.drop a = c :: letters) (left' : arg.drop b = d :: others)
    (less : a < b) : others.length < letters.length := by
  have length := congrArg List.length left
  have length' := congrArg List.length left'
  simp only [List.length_drop, List.length_cons] at length length'
  omega

/-- At the last letter of a group of the scan, the code is in a later argument. -/
theorem Ahead.element_later (ahead : Ahead optstring args letters i a j b) (found : args[i]? = some arg)
    (left : arg.drop a = [c]) {d : Char} {arg' others : Str} (group : GroupAt args j arg')
    (left' : arg'.drop b = d :: others) :
    i < j := by
  rcases ahead.later with later | ⟨rfl, less, -⟩
  · exact later
  · cases found.symm.trans group.1
    exact absurd (shorter_left left left' less) (Nat.not_lt_zero _)

/-- A flag of the scan, which the code has taken at its position, too. -/
theorem Ahead.step_flag (ahead : Ahead optstring args (c :: letters) i a j b)
    (left : Left args i a (c :: letters) later) (takes : OptionTaken optstring args j b c none j' b') :
    ∃ i' a', Left args i' a' letters later ∧ Ahead optstring args letters i' a' j' b' := by
  cases left with
  | within rest left =>
      obtain ⟨found, behind, inside⟩ := drop_cons rest
      rcases letters with _ | ⟨d, letters⟩
      · refine ⟨i + 1, 1, .between inside behind, ?_⟩
        cases takes with
        | lastFlag group left' =>
            have later := ahead.element_later found left group left'
            refine .between (Nat.le_refl 1) (.inl (by omega)) fun last same => ?_
            have same : j = i + 1 := by omega
            exact absurd (same ▸ last) group.inGroup.not_end
        | flag group left' more =>
            have later := ahead.element_later found left group left'
            have positive := ahead.positive
            refine .between (Nat.le_add_left _ _) ?_ fun _ _ => group.inGroup
            by_cases next : i + 1 = j
            · exact .inr ⟨next, by omega, group.inGroup⟩
            · exact .inl (by omega)
      · refine ⟨i, a + 1, .within rest (drop_succ left), ?_⟩
        cases takes with
        | lastFlag group left' =>
            have later : i < j + 1 := by
              have later := ahead.later
              omega
            exact ⟨Nat.le_refl 1, .inl later, fun none => (nomatch none), fun _ => .inl rfl, fun none => (nomatch none)⟩
        | flag group left' more flag =>
            have later : i < j ∨ i = j ∧ a + 1 < b + 1 ∧ InGroup args j :=
              ahead.later.imp id fun ⟨same, less, group⟩ => ⟨same, Nat.succ_lt_succ less, group⟩
            exact ⟨Nat.le_add_left _ _, later, fun none => (nomatch none),
              fun _ => .inr ⟨_, _, _, group.1, left', flag⟩, fun none => (nomatch none)⟩

/-- The scan is not at a hyphen with the argument `--` where the code has reached the last one of the three. -/
theorem Ahead.not_hyphens (ahead : Ahead optstring args letters i a i b) (group : GroupAt args i arg)
    (left : arg.drop a = [c, '-', '-']) (left' : arg.drop b = [c])
    (argument : findOptionChar c (optionChars optstring) = some true) : False := by
  have second : arg.drop (a + 1) = ['-', '-'] := drop_succ left
  have third : arg.drop (a + 2) = ['-'] := drop_succ second
  have length := congrArg List.length left
  have length' := congrArg List.length left'
  simp only [List.length_drop, List.length_cons, List.length_nil] at length length'
  have position : b = a + 2 := by omega
  subst position
  cases third.symm.trans left'
  obtain ⟨found, d, rest, rfl, single⟩ := group
  have behind : 1 < a := by
    rcases a with _ | _ | a
    · cases left
      exact absurd rfl single
    · cases left
      exact absurd rfl single
    · omega
  rcases ahead.flag behind with first | ⟨other, d', rest', found', left'', flag⟩
  · omega
  · cases found.symm.trans found'
    have before : a + 2 - 1 = a + 1 := rfl
    rw [before, second] at left''
    cases left''
    cases argument.symm.trans flag

theorem Ahead.step_attached (ahead : Ahead optstring args (c :: letters) i a j b)
    (left : Left args i a (c :: letters) later) (more : letters ≠ [])
    (takes : OptionTaken optstring args j b c (some letters) j' b') :
    ∃ i' a', Left args i' a' [] later ∧ Ahead optstring args [] i' a' j' b' := by
  cases left with
  | within rest left =>
      obtain ⟨found, behind, inside⟩ := drop_cons rest
      refine ⟨i + 1, 1, .between inside behind, ?_⟩
      cases takes with
      | attached group left' =>
          have later : i < j := by
            rcases ahead.later with later | ⟨rfl, less, -⟩
            · exact later
            · cases found.symm.trans group.1
              exact absurd (shorter_left left left' less) (Nat.lt_irrefl _)
          refine .between ahead.positive (.inl (by omega)) fun last same => ?_
          have same : j = i + 1 := by omega
          exact absurd (same ▸ last) group.inGroup.not_end
      | separate group left' argument next =>
          have later : i + 1 < j + 2 := by
            have later := ahead.later
            omega
          refine .between ahead.positive (.inl later) fun last same => ?_
          have same : i = j := by omega
          subst same
          cases next.symm.trans last
          cases found.symm.trans group.1
          exact (ahead.not_hyphens group left left' argument).elim

theorem Ahead.step_separate (ahead : Ahead optstring args [c] i a j b) (left : Left args i a [c] (arg :: later))
    (takes : OptionTaken optstring args j b c (some arg) j' b') :
    ∃ i' a', Left args i' a' [] later ∧ Ahead optstring args [] i' a' j' b' := by
  cases left with
  | within rest left =>
      obtain ⟨found, behind, -⟩ := drop_cons rest
      obtain ⟨foundArg, behind, inside⟩ := drop_cons behind
      refine ⟨i + 2, 1, .between inside behind, ?_⟩
      cases takes with
      | attached group left' =>
          have later := ahead.element_later found left group left'
          have apart : j ≠ i + 1 := by
            rintro rfl
            cases foundArg.symm.trans group.1
            have length := congrArg List.length left'
            simp only [List.length_drop, List.length_cons] at length
            omega
          refine .between ahead.positive (.inl (by omega)) fun last same => ?_
          have same : j = i + 2 := by omega
          exact absurd (same ▸ last) group.inGroup.not_end
      | separate group left' argument next =>
          have later := ahead.element_later found left group left'
          refine .between ahead.positive (.inl (by omega)) fun last same => ?_
          have same : j = i + 1 := by omega
          subst same
          cases next.symm.trans last
          exact absurd foundArg group.inGroup.not_end

end

/-! ## The end of the calls -/

section

variable {optstring letters : Str} {args : List Str} {i a j b j' : Nat}

theorem ScanStops.le (stops : ScanStops args j j') : j ≤ j' := by
  cases stops with
  | past => exact Nat.le_refl _
  | operand => exact Nat.le_refl _
  | dashes => exact Nat.le_succ _

theorem ScanStops.not_inGroup (stops : ScanStops args j j') : ¬ InGroup args j := by
  rintro ⟨arg, found, c, letters, rfl, single⟩
  cases stops with
  | past past =>
      obtain ⟨inside, -⟩ := List.getElem?_eq_some_iff.mp found
      omega
  | operand found' plain =>
      cases found.symm.trans found'
      exact plain c letters rfl
  | dashes found' =>
      cases found.symm.trans found'
      exact single rfl

theorem Ahead.later_of_stops (ahead : Ahead optstring args letters i a j b) (stops : ScanStops args j j') : i < j :=
  ahead.later.resolve_right fun within => stops.not_inGroup within.2.2

theorem Ahead.begin (ahead : Ahead optstring args [] i 1 j b) (some : letters ≠ []) :
    Ahead optstring args letters i 1 j b :=
  ⟨ahead.positive, ahead.later, fun _ => rfl, ahead.flag, fun none => absurd none some⟩

end

/-! ## The sequences of options -/

section

variable {World : Type} [System World] {optstring letters : Str} {args later operands : List Str} {i a j b : Nat}
  {results : List (Char × Option Str)} {state after : Shell World}

/-- Once the code is ahead, it does not find the first operand after the same options. -/
theorem Ahead.not_delivers (visible : nul ∉ optstring) (cStrings : AreCStrings args)
    (scans : ScansTo (posixOption optstring) letters later results operands) (left : Left args i a letters later)
    (ahead : Ahead optstring args letters i a j b) (scanAt : ScanAt state j b)
    (delivers : Delivers args optstring state results after) :
    after.getopt.optind ≠ (args.length - operands.length : Nat) := by
  induction scans generalizing state i a j b with
  | finished =>
      obtain ⟨j', optind, stops⟩ := delivers.stops cStrings scanAt
      have later := ahead.later_of_stops stops
      have least := stops.le
      cases left with
      | between inside rest =>
          have past := List.drop_eq_nil_iff.mp rest
          rw [optind, List.length_nil]
          omega
  | terminator =>
      obtain ⟨j', optind, stops⟩ := delivers.stops cStrings scanAt
      have later := ahead.later_of_stops stops
      cases left with
      | between inside rest =>
          obtain ⟨found, behind, inside⟩ := drop_cons rest
          have length := congrArg List.length behind
          rw [List.length_drop] at length
          have apart : j' ≠ i + 1 := by
            rintro rfl
            have least := stops.le
            have next : j = i + 1 := by omega
            exact stops.not_inGroup (ahead.notEnd rfl found next)
          rw [optind]
          omega
  | operand plain =>
      obtain ⟨j', optind, stops⟩ := delivers.stops cStrings scanAt
      have later := ahead.later_of_stops stops
      have least := stops.le
      cases left with
      | between inside rest =>
          have length := congrArg List.length rest
          rw [List.length_drop] at length
          rw [optind]
          omega
  | group notEnd scans ih =>
      obtain rfl := ahead.start rfl
      cases left with
      | between inside rest => exact ih (.within rest rfl) (ahead.begin (List.cons_ne_nil _ _)) scanAt delivers
  | flag flag scans ih =>
      obtain ⟨between, j', b', takes, next, rest⟩ := delivers.takes visible cStrings scanAt
      obtain ⟨i', a', left, ahead⟩ := ahead.step_flag left takes
      exact ih left ahead next rest
  | attached argument more scans ih =>
      obtain ⟨between, j', b', takes, next, rest⟩ := delivers.takes visible cStrings scanAt
      obtain ⟨i', a', left, ahead⟩ := ahead.step_attached left more takes
      exact ih left ahead next rest
  | separate argument scans ih =>
      obtain ⟨between, j', b', takes, next, rest⟩ := delivers.takes visible cStrings scanAt
      obtain ⟨i', a', left, ahead⟩ := ahead.step_separate left takes
      exact ih left ahead next rest

/-- Where the calls deliver what the scan gives, no letter is skipped. -/
theorem Left.noneSkipped (noColon : optstring.head? ≠ some ':') (visible : nul ∉ optstring)
    (cStrings : AreCStrings args) (scans : ScansTo (posixOption optstring) letters later results operands)
    {atFirst : Bool} (first : (b == 1) = atFirst) (left : Left args j b letters later)
    (group : letters ≠ [] → InGroup args j) (positive : 1 ≤ b) (scanAt : ScanAt state j b)
    (delivers : Delivers args optstring state results after)
    (optind : after.getopt.optind = (args.length - operands.length : Nat)) :
    NoneSkipped (posixOption optstring) atFirst letters later := by
  induction scans generalizing state j b atFirst with
  | finished => exact .ended noGroup_nil
  | terminator => exact .ended (noGroup_terminator _)
  | operand plain => exact .ended (noGroup_operand plain _)
  | @group c letters later operands results notEnd scans ih =>
      by_cases double : c = '-'
      · subst double
        cases left with
        | between inside rest =>
            obtain ⟨found, -⟩ := drop_cons rest
            obtain ⟨rfl, -⟩ := delivers.of_stops (.dashes found) cStrings scanAt
            exact absurd rfl ((Reports.of_scansTo false scans).results_of_letters (List.cons_ne_nil _ _))
      · obtain ⟨atOne, group⟩ := left.begin double
        by_cases one : b = 1
        · subst one
          subst first
          exact .group double (ih rfl atOne (fun _ => group) positive scanAt delivers optind)
        · have ahead : Ahead optstring args (c :: letters) j 1 j b :=
            ⟨positive, .inr ⟨rfl, by omega, group⟩, fun _ => rfl, fun past => absurd past (Nat.lt_irrefl 1),
              fun none => (nomatch none)⟩
          exact absurd optind (ahead.not_delivers visible cStrings scans atOne scanAt delivers)
  | flag flag scans ih =>
      obtain ⟨j', b', takes, left, group, first, positive⟩ :=
        left.flag (group (List.cons_ne_nil _ _)) (posixOption_found noColon flag) positive
      obtain ⟨between, rest, same, next, delivers⟩ := delivers.of_takes takes cStrings scanAt
      cases same
      exact .flag flag (ih first left group positive next delivers optind)
  | attached argument more scans ih =>
      obtain ⟨takes, left⟩ := left.attached (group (List.cons_ne_nil _ _)) (posixOption_found noColon argument) more
      obtain ⟨between, rest, same, next, delivers⟩ := delivers.of_takes takes cStrings scanAt
      cases same
      exact .attached argument more (ih first left (fun some => absurd rfl some) positive next delivers optind)
  | separate argument scans ih =>
      obtain ⟨takes, left⟩ := left.separate (group (List.cons_ne_nil _ _)) (posixOption_found noColon argument)
      obtain ⟨between, rest, same, next, delivers⟩ := delivers.of_takes takes cStrings scanAt
      cases same
      exact .separate argument (ih first left (fun some => absurd rfl some) positive next delivers optind)

/-- For arguments of which all options are known and have their arguments, repeated calls return the
options that POSIX has, and find the first operand, if and only if no letter is skipped. -/
theorem getopt_posix_iff {name : Str} {arguments : List Str} (noColon : optstring.head? ≠ some ':')
    (visible : nul ∉ optstring) (cStrings : AreCStrings (name :: arguments))
    (known : ScansTo (posixOption optstring) [] arguments results operands) (fresh : ScanAt state 1 1) :
    (∃ after, Delivers (name :: arguments) optstring state results after ∧
      after.getopt.optind = ((name :: arguments).length - operands.length : Nat)) ↔
      NoneSkipped (posixOption optstring) true [] arguments := by
  have left : Left (name :: arguments) 1 1 [] arguments := .between (Nat.le_add_left _ _) rfl
  constructor
  · rintro ⟨after, delivers, optind⟩
    exact left.noneSkipped noColon visible cStrings known rfl (fun some => absurd rfl some) (Nat.le_refl 1)
      fresh delivers optind
  · intro noneSkipped
    exact left.delivers noColon cStrings known noneSkipped rfl (fun some => absurd rfl some) (Nat.le_refl 1) fresh

end

theorem getopt_posix_attached : ∃ after : Shell Machine,
    Delivers ["x".toList, "-ab".toList, "-cX".toList, "op".toList] "abc:".toList (mrshStateCreate [] Machine.isolated)
      [('a', none), ('b', none), ('c', some ['X'])] after ∧ after.getopt.optind = 3 := by
  have known : ScansTo (posixOption "abc:".toList) [] ["-ab".toList, "-cX".toList, "op".toList]
      [('a', none), ('b', none), ('c', some ['X'])] ["op".toList] :=
    .group (by decide) (.flag rfl (.flag rfl (.group (by decide) (.attached rfl (by decide)
      (.operand fun c letters same => by cases same)))))
  have noneSkipped : NoneSkipped (posixOption "abc:".toList) true [] ["-ab".toList, "-cX".toList, "op".toList] :=
    .group (by decide) (.flag rfl (.flag rfl (.group (by decide) (.attached rfl (by decide)
      (.ended fun c letters rest same => by cases same)))))
  exact (getopt_posix_iff (by decide) (by decide) (by unfold AreCStrings; decide) known ⟨rfl, rfl⟩).mpr noneSkipped

/-- After `-ab X` a scan with the options `ab:c` does not find the option `c` of `-c`. -/
theorem getopt_skips_option :
    ScansTo (posixOption "ab:c".toList) [] ["-ab".toList, "X".toList, "-c".toList]
      [('a', none), ('b', some ['X']), ('c', none)] [] ∧
    ¬ ∃ after, Delivers ["x".toList, "-ab".toList, "X".toList, "-c".toList] "ab:c".toList
      (mrshStateCreate [] Machine.isolated) [('a', none), ('b', some ['X']), ('c', none)] after := by
  have known : ScansTo (posixOption "ab:c".toList) [] ["-ab".toList, "X".toList, "-c".toList]
      [('a', none), ('b', some ['X']), ('c', none)] [] :=
    .group (by decide) (.flag rfl (.separate rfl (.group (by decide) (.flag rfl .finished))))
  refine ⟨known, ?_⟩
  rintro ⟨after, delivers⟩
  have cStrings : AreCStrings ["x".toList, "-ab".toList, "X".toList, "-c".toList] := by
    unfold AreCStrings
    decide
  have visible : nul ∉ "ab:c".toList := by decide
  have start : ScanAt (mrshStateCreate [] Machine.isolated) 1 1 := ⟨rfl, rfl⟩
  have first : GroupAt ["x".toList, "-ab".toList, "X".toList, "-c".toList] 1 "-ab".toList :=
    ⟨rfl, 'a', ['b'], rfl, by decide⟩
  obtain ⟨state, rest, same, next, delivers⟩ :=
    delivers.of_takes (.flag first rfl (by decide) rfl) cStrings start
  cases same
  obtain ⟨state, rest, same, next, delivers⟩ :=
    delivers.of_takes (.separate first rfl rfl rfl) cStrings next
  cases same
  obtain ⟨_, _, _, takes, -⟩ := delivers.takes visible cStrings next
  cases takes with
  | lastFlag group left =>
      cases group.1
      cases left
  | flag group left =>
      cases group.1
      cases left

end Mrsh

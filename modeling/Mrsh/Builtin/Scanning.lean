import Mrsh.Builtin.Getopt
import Mrsh.Data.Termination

namespace Mrsh

open Mrsh.Data

/-! # Calls of getopt

How a call of `_mrsh_getopt` that returns moves the variables of `getopt.c`.
-/

/-- What `argv[i]` is, unless the vector does not have it. -/
def slotOf (argv : List ArgSlot) (i : Int) : Option (Option Str) :=
  if i < 0 then none
  else
    match argv[i.toNat]? with
    | some (.string _ str) => some (some str)
    | some .null => some none
    | _ => none

/-- The variables after the start of a call. -/
def Getopt.started (getopt : Getopt) : Getopt :=
  if getopt.optind = 0 then { getopt with optarg := none, optind := 1, optpos := 1 }
  else { getopt with optarg := none }

theorem Getopt.started_optind (getopt : Getopt) : getopt.started.optind ≠ 0 := by
  unfold Getopt.started
  split
  · exact Int.one_ne_zero
  · assumption

theorem Getopt.started_optarg (getopt : Getopt) : getopt.started.optarg = none := by
  unfold Getopt.started
  split <;> rfl

theorem Getopt.started_of_optind {getopt : Getopt} (nonzero : getopt.optind ≠ 0) :
    getopt.started = { getopt with optarg := none } := if_neg nonzero

/-- The call looks for an option in `arg`. -/
structure OptionAt (argc : Int) (argv : List ArgSlot) (now : Getopt) (arg : Str) : Prop where
  inside : now.optind < argc
  found : slotOf argv now.optind = some (some arg)
  dash : strChar arg 0 = '-'
  letter : strChar arg 1 ≠ nul
  single : strChar arg 1 ≠ '-'
  inString : now.optpos ≤ arg.length

/-- A message can be printed, or is not. -/
def Speaks (argv : List ArgSlot) (optstring : Str) : Prop :=
  optstring.head? = some ':' ∨ ∃ name, slotOf argv 0 = some (some name)

/-- What the string of options says of the letter at the position in `arg`. -/
def declared (optstring arg : Str) (now : Getopt) : Option Bool :=
  findOptionChar (strChar arg now.optpos) (optionChars optstring)

/-- How a call that returns goes on from the variables after its start. -/
inductive GetoptScans (argc : Int) (argv : List ArgSlot) (optstring : Str) (now : Getopt) : Option Char → Getopt → Prop
  | past (past : argc ≤ now.optind) : GetoptScans argc argv optstring now none now
  | operand {arg : Str} (inside : now.optind < argc) (found : slotOf argv now.optind = some (some arg))
      (plain : strChar arg 0 ≠ '-' ∨ strChar arg 1 = nul) : GetoptScans argc argv optstring now none now
  | dashes {arg : Str} (inside : now.optind < argc) (found : slotOf argv now.optind = some (some arg))
      (dash : strChar arg 0 = '-') (double : strChar arg 1 = '-') :
      GetoptScans argc argv optstring now none { now with optind := now.optind + 1 }
  | unknown {arg : Str} (option : OptionAt argc argv now arg) (letter : declared optstring arg now = none)
      (speaks : Speaks argv optstring) : GetoptScans argc argv optstring now (some '?') { now with optopt := none }
  | lastFlag {arg : Str} (option : OptionAt argc argv now arg) (letter : declared optstring arg now = some false)
      (last : strChar arg (now.optpos + 1) = nul) :
      GetoptScans argc argv optstring now (some (strChar arg now.optpos))
        { now with optopt := none, optind := now.optind + 1, optpos := 1 }
  | flag {arg : Str} (option : OptionAt argc argv now arg) (letter : declared optstring arg now = some false)
      (more : strChar arg (now.optpos + 1) ≠ nul) :
      GetoptScans argc argv optstring now (some (strChar arg now.optpos))
        { now with optopt := none, optpos := now.optpos + 1 }
  | attached {arg : Str} (option : OptionAt argc argv now arg) (letter : declared optstring arg now = some true)
      (more : strChar arg (now.optpos + 1) ≠ nul) :
      GetoptScans argc argv optstring now (some (strChar arg now.optpos))
        { now with optopt := none, optarg := some (arg.drop (now.optpos + 1)), optind := now.optind + 1 }
  | separate {arg : Str} {optarg : Option Str} (option : OptionAt argc argv now arg)
      (letter : declared optstring arg now = some true) (last : strChar arg (now.optpos + 1) = nul)
      (room : now.optind + 2 ≤ argc) (next : slotOf argv (now.optind + 1) = some optarg) :
      GetoptScans argc argv optstring now (some (strChar arg now.optpos))
        { now with optopt := none, optarg, optind := now.optind + 2 }
  | missing {arg : Str} (option : OptionAt argc argv now arg) (letter : declared optstring arg now = some true)
      (last : strChar arg (now.optpos + 1) = nul) (noRoom : argc < now.optind + 2) (speaks : Speaks argv optstring) :
      GetoptScans argc argv optstring now (some (if optstring.head? == some ':' then ':' else '?'))
        { now with optopt := some (strChar arg now.optpos) }

section

variable {World : Type} {argv : List ArgSlot} {argc : Int} {optstring : Str} {state after : Shell World}

theorem slotAt_run (argv : List ArgSlot) (i : Int) (state : Shell World) :
    Leaf.run (slotAt argv i) state =
      match slotOf argv i with
      | some slot => .done slot state
      | none => .stopped .aborted state := by
  unfold slotAt slotOf
  split
  · rfl
  · split <;> simp_all

theorem slotAt_found {i : Int} {slot : Option Str} (found : slotOf argv i = some slot) (state : Shell World) :
    Leaf.run (slotAt argv i) state = .done slot state := by rw [slotAt_run, found]

theorem slotAt_done {i : Int} {slot : Option Str} (read : Leaf.run (slotAt argv i) state = .done slot after) :
    slotOf argv i = some slot ∧ after = state := by
  rw [slotAt_run] at read
  cases found : slotOf argv i with
  | none => simp [found] at read
  | some found' =>
      simp only [found, Outcome.done.injEq] at read
      exact ⟨congrArg some read.1, read.2.symm⟩

theorem argvStr_found {i : Int} {str : Str} (found : slotOf argv i = some (some str)) (state : Shell World) :
    Leaf.run (argvStr argv i) state = .done str state := by
  simp [argvStr, slotAt_found found]

theorem argvStr_done {i : Int} {str : Str} (read : Leaf.run (argvStr argv i) state = .done str after) :
    slotOf argv i = some (some str) ∧ after = state := by
  obtain ⟨slot, between, got, checked⟩ := Leaf.run_bind_done.mp read
  obtain ⟨found, rfl⟩ := slotAt_done got
  obtain ⟨rfl, rfl⟩ := orCrash_done checked
  exact ⟨found, rfl⟩

theorem setGetopt_run (change : Getopt → Getopt) (state : Shell World) :
    Leaf.run (setGetopt change) state = .done () { state with getopt := change state.getopt } := rfl

variable [System World]

theorem getoptMessage_done {opt : Char} {msg : Str}
    (said : Leaf.run (getoptMessage argv optstring opt msg) state = .done () after) :
    Speaks argv optstring ∧ ∃ world, after = { state with world } := by
  unfold getoptMessage at said
  split at said
  · next silent =>
    cases said
    exact ⟨.inl (by simpa using silent), state.world, rfl⟩
  · obtain ⟨name, between, got, printed⟩ := Leaf.run_bind_done.mp said
    obtain ⟨found, rfl⟩ := argvStr_done got
    cases printed
    exact ⟨.inr ⟨name, found⟩, _, rfl⟩

theorem getoptMessage_speaks {opt : Char} {msg : Str} (speaks : Speaks argv optstring) (state : Shell World) :
    ∃ world, Leaf.run (getoptMessage argv optstring opt msg) state = .done () { state with world } := by
  unfold getoptMessage
  split
  · exact ⟨state.world, rfl⟩
  · next loud =>
    obtain ⟨name, found⟩ := speaks.resolve_left (by simpa using loud)
    exact ⟨_, by rw [Leaf.run_bind, argvStr_found found, Outcome.andThen_done, eprintf, Leaf.run_call]⟩

/-! ## The calls that return -/

theorem getoptArgument_done {now : Getopt} {opt : Option Char} {arg : Str} (option : OptionAt argc argv now arg)
    (letter : declared optstring arg now = some true)
    (returned : Leaf.run (getoptArgument argc argv optstring (strChar arg now.optpos) arg)
      { state with getopt := { now with optopt := none } } = .done opt after) :
    GetoptScans argc argv optstring now opt after.getopt ∧
      ∃ world, after = { state with getopt := after.getopt, world } := by
  simp only [getoptArgument, Leaf.run_bind, Leaf.run_gets, Outcome.andThen_done] at returned
  by_cases last : strChar arg (now.optpos + 1) = nul
  · rw [if_neg (by simp [last])] at returned
    by_cases noRoom : argc < now.optind + 2
    · rw [if_pos noRoom] at returned
      simp only [Leaf.run_bind, setGetopt_run, Outcome.andThen_done] at returned
      obtain ⟨_, between, said, answered⟩ := Outcome.andThen_eq_done.mp returned
      obtain ⟨speaks, world, rfl⟩ := getoptMessage_done said
      cases answered
      exact ⟨.missing option letter last noRoom speaks, world, rfl⟩
    · rw [if_neg noRoom] at returned
      obtain ⟨optarg, between, got, moved⟩ := Leaf.run_bind_done.mp returned
      obtain ⟨found, rfl⟩ := slotAt_done got
      cases moved
      exact ⟨.separate option letter last (Int.not_lt.mp noRoom) found, state.world, rfl⟩
  · rw [if_pos (by simpa using last)] at returned
    cases returned
    exact ⟨.attached option letter last, state.world, rfl⟩

theorem getoptOption_done {opt : Option Char} {arg : Str} (inside : state.getopt.optind < argc)
    (found : slotOf argv state.getopt.optind = some (some arg)) (dash : strChar arg 0 = '-')
    (letter : strChar arg 1 ≠ nul) (single : strChar arg 1 ≠ '-')
    (returned : Leaf.run (getoptOption argc argv optstring arg) state = .done opt after) :
    GetoptScans argc argv optstring state.getopt opt after.getopt ∧
      ∃ world, after = { state with getopt := after.getopt, world } := by
  simp only [getoptOption, Leaf.run_bind, setGetopt_run, Leaf.run_gets, Outcome.andThen_done, assertThat,
    Leaf.run_ite] at returned
  by_cases inString : state.getopt.optpos ≤ arg.length
  · have option : OptionAt argc argv state.getopt arg := ⟨inside, found, dash, letter, single, inString⟩
    simp only [inString, decide_true, if_true, Leaf.run_pure, Outcome.andThen_done] at returned
    cases letter : findOptionChar (strChar arg state.getopt.optpos) (optionChars optstring) with
    | none =>
        simp only [letter] at returned
        obtain ⟨_, between, said, answered⟩ := Leaf.run_bind_done.mp returned
        obtain ⟨speaks, world, rfl⟩ := getoptMessage_done said
        cases answered
        exact ⟨.unknown option letter speaks, world, rfl⟩
    | some takes =>
        cases takes with
        | true =>
            simp only [letter] at returned
            exact getoptArgument_done option letter returned
        | false =>
            simp only [letter, Leaf.run_bind, setGetopt_run, Outcome.andThen_done, Leaf.run_pure] at returned
            cases returned
            by_cases last : strChar arg (state.getopt.optpos + 1) = nul
            · rw [if_pos last]
              exact ⟨.lastFlag option letter last, state.world, rfl⟩
            · rw [if_neg last]
              exact ⟨.flag option letter last, state.world, rfl⟩
  · simp [inString] at returned

theorem mrshGetopt_done {opt : Option Char}
    (returned : Leaf.run (mrshGetopt argc argv optstring) state = .done opt after) :
    slotOf argv argc = some none ∧ GetoptScans argc argv optstring state.getopt.started opt after.getopt ∧
      ∃ world, after = { state with getopt := after.getopt, world } := by
  obtain ⟨last, between, got, returned⟩ := Leaf.run_bind_done.mp returned
  obtain ⟨ended, rfl⟩ := slotAt_done got
  cases last with
  | some str => cases returned
  | none =>
      refine ⟨ended, ?_⟩
      have started : (if between.getopt.optind = 0 then { between.getopt with optarg := none, optind := 1, optpos := 1 }
        else { between.getopt with optarg := none } : Getopt) = between.getopt.started := rfl
      simp only [Leaf.run_bind, Option.isNone_none, assertThat, if_true, Leaf.run_pure, Outcome.andThen_done,
        setGetopt_run, Leaf.run_gets, started] at returned
      by_cases past : argc ≤ between.getopt.started.optind
      · rw [if_pos past] at returned
        cases returned
        exact ⟨.past past, between.world, rfl⟩
      · rw [if_neg past] at returned
        have inside := Int.not_le.mp past
        obtain ⟨arg, _, got, returned⟩ := Leaf.run_bind_done.mp returned
        obtain ⟨found, rfl⟩ := argvStr_done got
        by_cases plain : strChar arg 0 ≠ '-' ∨ strChar arg 1 = nul
        · rw [if_pos (by simpa using plain)] at returned
          cases returned
          exact ⟨.operand inside found plain, between.world, rfl⟩
        · rw [if_neg (by simpa using plain)] at returned
          obtain ⟨dash, letter⟩ := not_or.mp plain
          have dash := not_not.mp dash
          by_cases double : strChar arg 1 = '-'
          · rw [if_pos (by simpa using double)] at returned
            cases returned
            exact ⟨.dashes inside found dash double, between.world, rfl⟩
          · rw [if_neg (by simpa using double)] at returned
            exact getoptOption_done inside found dash letter double returned

theorem mrshGetopt_past (ended : slotOf argv argc = some none) (past : argc ≤ state.getopt.started.optind) :
    Leaf.run (mrshGetopt argc argv optstring) state = .done none { state with getopt := state.getopt.started } := by
  have started : (if state.getopt.optind = 0 then { state.getopt with optarg := none, optind := 1, optpos := 1 }
    else { state.getopt with optarg := none } : Getopt) = state.getopt.started := rfl
  simp only [mrshGetopt, Leaf.run_bind, slotAt_found ended, Outcome.andThen_done, Option.isNone_none, assertThat,
    if_true, Leaf.run_pure, setGetopt_run, Leaf.run_gets, started, if_pos past]

theorem mrshGetopt_at {arg : Str} (ended : slotOf argv argc = some none) (inside : state.getopt.started.optind < argc)
    (found : slotOf argv state.getopt.started.optind = some (some arg)) :
    Leaf.run (mrshGetopt argc argv optstring) state =
      Leaf.run (if strChar arg 0 != '-' || strChar arg 1 == nul then pure none
        else if strChar arg 1 == '-' then do
          setGetopt fun getopt => { getopt with optind := getopt.optind + 1 }
          pure none
        else getoptOption argc argv optstring arg) { state with getopt := state.getopt.started } := by
  have started : (if state.getopt.optind = 0 then { state.getopt with optarg := none, optind := 1, optpos := 1 }
    else { state.getopt with optarg := none } : Getopt) = state.getopt.started := rfl
  simp only [mrshGetopt, Leaf.run_bind, slotAt_found ended, Outcome.andThen_done, Option.isNone_none, assertThat,
    if_true, Leaf.run_pure, setGetopt_run, Leaf.run_gets, started, if_neg (Int.not_le.mpr inside), argvStr_found found]

theorem OptionAt.reached {now : Getopt} {arg : Str} (option : OptionAt argc argv now arg)
    (ended : slotOf argv argc = some none) (now_eq : state.getopt.started = now) :
    Leaf.run (mrshGetopt argc argv optstring) state =
      Leaf.run (getoptOption argc argv optstring arg) { state with getopt := now } := by
  subst now_eq
  rw [mrshGetopt_at ended option.inside option.found]
  simp [option.dash, option.letter, option.single]

theorem OptionAt.looked {now : Getopt} {arg : Str} (option : OptionAt argc argv now arg) :
    Leaf.run (getoptOption argc argv optstring arg) { state with getopt := now } =
      Leaf.run (match declared optstring arg now with
        | none => do
            getoptMessage argv optstring (strChar arg now.optpos) "not found".toList
            pure (some '?')
        | some false => do
            setGetopt fun getopt =>
              if strChar arg (now.optpos + 1) = nul then { getopt with optind := getopt.optind + 1, optpos := 1 }
              else { getopt with optpos := now.optpos + 1 }
            pure (some (strChar arg now.optpos))
        | some true => getoptArgument argc argv optstring (strChar arg now.optpos) arg)
        { state with getopt := { now with optopt := none } } := by
  simp only [getoptOption, Leaf.run_bind, setGetopt_run, Outcome.andThen_done, Leaf.run_gets, assertThat,
    option.inString, decide_true, if_true, Leaf.run_pure]
  rfl

theorem mrshGetopt_scans {opt : Option Char} {next : Getopt} (ended : slotOf argv argc = some none)
    (scans : GetoptScans argc argv optstring state.getopt.started opt next) :
    ∃ world, Leaf.run (mrshGetopt argc argv optstring) state = .done opt { state with getopt := next, world } := by
  cases scans with
  | past past => exact ⟨state.world, mrshGetopt_past ended past⟩
  | operand inside found plain =>
      refine ⟨state.world, ?_⟩
      rw [mrshGetopt_at ended inside found, if_pos (by simpa using plain)]
      rfl
  | dashes inside found dash double =>
      refine ⟨state.world, ?_⟩
      rw [mrshGetopt_at ended inside found, if_neg (by simp [dash, double, nul]), if_pos (by simp [double])]
      rfl
  | unknown option letter speaks =>
      rw [option.reached ended rfl, option.looked, letter]
      obtain ⟨world, said⟩ := getoptMessage_speaks speaks (_ : Shell World)
      exact ⟨world, by rw [Leaf.run_bind, said]; rfl⟩
  | lastFlag option letter last =>
      refine ⟨state.world, ?_⟩
      simp only [option.reached ended rfl, option.looked, letter, Leaf.run_bind, setGetopt_run, if_pos last]
      rfl
  | flag option letter more =>
      refine ⟨state.world, ?_⟩
      simp only [option.reached ended rfl, option.looked, letter, Leaf.run_bind, setGetopt_run, if_neg more]
      rfl
  | attached option letter more =>
      refine ⟨state.world, ?_⟩
      simp only [option.reached ended rfl, option.looked, letter, getoptArgument, Leaf.run_bind, Leaf.run_gets,
        Outcome.andThen_done]
      rw [if_pos (by simpa using more)]
      rfl
  | separate option letter last room next =>
      refine ⟨state.world, ?_⟩
      simp only [option.reached ended rfl, option.looked, letter, getoptArgument, Leaf.run_bind, Leaf.run_gets,
        Outcome.andThen_done]
      rw [if_neg (by simp [last]), if_neg (Int.not_lt.mpr room), Leaf.run_bind, slotAt_found next]
      rfl
  | missing option letter last noRoom speaks =>
      simp only [option.reached ended rfl, option.looked, letter, getoptArgument, Leaf.run_bind, Leaf.run_gets,
        Outcome.andThen_done]
      rw [if_neg (by simp [last]), if_pos noRoom, Leaf.run_bind, setGetopt_run, Outcome.andThen_done]
      obtain ⟨world, said⟩ := getoptMessage_speaks speaks (_ : Shell World)
      exact ⟨world, by rw [Leaf.run_bind, said]; rfl⟩

end

/-! ## Progress -/

/-- The order of the positions of a scan. -/
def Getopt.Before (first second : Getopt) : Prop :=
  first.optind < second.optind ∨ first.optind = second.optind ∧ first.optpos < second.optpos

/-- At the position is a declared option, with its argument if it takes one. -/
def TakesOption (argc : Int) (argv : List ArgSlot) (optstring : Str) (now : Getopt) : Prop :=
  ∃ arg, slotOf argv now.optind = some (some arg) ∧
    (declared optstring arg now = some false ∨
      declared optstring arg now = some true ∧ (strChar arg (now.optpos + 1) ≠ nul ∨ now.optind + 2 ≤ argc))

section

variable {argv : List ArgSlot} {argc : Int} {optstring : Str} {now next : Getopt} {opt : Option Char}

theorem GetoptScans.option {c : Char} (scans : GetoptScans argc argv optstring now (some c) next) :
    ∃ arg, OptionAt argc argv now arg := by
  cases scans with
  | unknown option => exact ⟨_, option⟩
  | lastFlag option => exact ⟨_, option⟩
  | flag option => exact ⟨_, option⟩
  | attached option => exact ⟨_, option⟩
  | separate option => exact ⟨_, option⟩
  | missing option => exact ⟨_, option⟩

theorem OptionAt.takes_iff {arg : Str} (option : OptionAt argc argv now arg) :
    TakesOption argc argv optstring now ↔
      (declared optstring arg now = some false ∨
        declared optstring arg now = some true ∧ (strChar arg (now.optpos + 1) ≠ nul ∨ now.optind + 2 ≤ argc)) := by
  constructor
  · rintro ⟨other, found, takes⟩
    have same := option.found.symm.trans found
    simp only [Option.some.injEq] at same
    exact same ▸ takes
  · exact fun takes => ⟨arg, option.found, takes⟩

theorem GetoptScans.stays {c : Char} (scans : GetoptScans argc argv optstring now (some c) next)
    (untaken : ¬ TakesOption argc argv optstring now) :
    next.optind = now.optind ∧ next.optpos = now.optpos ∧ next.optarg = now.optarg ∧ Speaks argv optstring := by
  cases scans with
  | unknown option _ speaks => exact ⟨rfl, rfl, rfl, speaks⟩
  | lastFlag option letter => exact absurd (option.takes_iff.mpr (.inl letter)) untaken
  | flag option letter => exact absurd (option.takes_iff.mpr (.inl letter)) untaken
  | attached option letter more => exact absurd (option.takes_iff.mpr (.inr ⟨letter, .inl more⟩)) untaken
  | separate option letter _ room => exact absurd (option.takes_iff.mpr (.inr ⟨letter, .inr room⟩)) untaken
  | missing option _ _ _ speaks => exact ⟨rfl, rfl, rfl, speaks⟩

theorem GetoptScans.moves {c : Char} (scans : GetoptScans argc argv optstring now (some c) next)
    (takes : TakesOption argc argv optstring now) : now.Before next := by
  have later : ∀ {n : Int}, 0 < n → now.optind < now.optind + n := fun positive => by omega
  cases scans with
  | unknown option letter => simp [option.takes_iff, letter] at takes
  | lastFlag option letter => exact .inl (later Int.one_pos)
  | flag option letter => exact .inr ⟨rfl, Nat.lt_succ_self _⟩
  | attached option letter more => exact .inl (later Int.one_pos)
  | separate option letter last room => exact .inl (later (n := 2) (by decide))
  | missing option letter last noRoom =>
      have few : ¬ now.optind + 2 ≤ argc := Int.not_le.mpr noRoom
      simp [option.takes_iff, letter, last, few] at takes

theorem Getopt.Before.not_same {first second : Getopt} (before : first.Before second)
    (optind : second.optind = first.optind) : first.optpos < second.optpos := by
  rcases before with earlier | ⟨_, earlier⟩
  · omega
  · exact earlier

theorem GetoptScans.advances_iff {c : Char} (scans : GetoptScans argc argv optstring now (some c) next) :
    now.Before next ↔ TakesOption argc argv optstring now := by
  refine ⟨fun before => ?_, scans.moves⟩
  by_contra untaken
  obtain ⟨optind, optpos, -⟩ := scans.stays untaken
  have less := before.not_same optind
  omega

end

/-! ## The loop -/

section

variable {World : Type} [System World] {argv : List ArgSlot} {argc : Int} {optstring : Str} {state after : Shell World}

/-- A call that returns an option, so that the loop makes another one. -/
def GetoptCall (argc : Int) (argv : List ArgSlot) (optstring : Str) (state after : Shell World) : Prop :=
  ∃ c, Leaf.run (mrshGetopt argc argv optstring) state = .done (some c) after

theorem GetoptCall.scans (called : GetoptCall argc argv optstring state after) :
    slotOf argv argc = some none ∧ ∃ c, GetoptScans argc argv optstring state.getopt.started (some c) after.getopt := by
  obtain ⟨c, returned⟩ := called
  obtain ⟨ended, scans, -⟩ := mrshGetopt_done returned
  exact ⟨ended, c, scans⟩

theorem OptionAt.positive {now : Getopt} {arg : Str} (option : OptionAt argc argv now arg) : 0 ≤ now.optind := by
  have found := option.found
  unfold slotOf at found
  split at found
  · cases found
  · omega

theorem slotOf_bounded (argv : List ArgSlot) : ∃ bound, ∀ i arg, slotOf argv i = some (some arg)
    → arg.length ≤ bound := by
  have members : ∃ bound, ∀ number arg, ArgSlot.string number arg ∈ argv → arg.length ≤ bound := by
    induction argv with
    | nil => exact ⟨0, fun _ _ member => nomatch member⟩
    | cons slot argv ih =>
        obtain ⟨bound, below⟩ := ih
        cases slot with
        | string number arg =>
            refine ⟨max arg.length bound, fun number' arg' member => ?_⟩
            rcases List.mem_cons.mp member with same | member
            · cases same
              exact Nat.le_max_left _ _
            · exact Nat.le_trans (below number' arg' member) (Nat.le_max_right _ _)
        | freed => exact ⟨bound, fun number arg member => below number arg (by simpa using member)⟩
        | null => exact ⟨bound, fun number arg member => below number arg (by simpa using member)⟩
  obtain ⟨bound, below⟩ := members
  refine ⟨bound, fun i arg found => ?_⟩
  unfold slotOf at found
  split at found
  · cases found
  · split at found
    · next number _ here =>
      cases found
      exact below number arg (List.mem_of_getElem? here)
    · cases found
    · cases found

theorem GetoptCall.option (called : GetoptCall argc argv optstring state after) :
    ∃ arg, OptionAt argc argv state.getopt.started arg := by
  obtain ⟨-, c, scans⟩ := called.scans
  exact scans.option

theorem GetoptCall.started_next (called : GetoptCall argc argv optstring state after) :
    after.getopt.started.optind = after.getopt.optind ∧ after.getopt.started.optpos = after.getopt.optpos := by
  obtain ⟨-, c, scans⟩ := called.scans
  obtain ⟨arg, option⟩ := called.option
  have nonzero := state.getopt.started_optind
  have nonneg := option.positive
  have positive : after.getopt.optind ≠ 0 := by
    by_cases takes : TakesOption argc argv optstring state.getopt.started
    · rcases scans.moves takes with later | ⟨same, -⟩
      · omega
      · omega
    · obtain ⟨same, -⟩ := scans.stays takes
      omega
  rw [Getopt.started_of_optind positive]
  exact ⟨rfl, rfl⟩

/-- A call that does not take an option is followed by another one that does not. -/
theorem GetoptCall.stuck (called : GetoptCall argc argv optstring state after)
    (untaken : ¬ TakesOption argc argv optstring state.getopt.started) :
    (∃ last, GetoptCall argc argv optstring after last) ∧ ¬ TakesOption argc argv optstring after.getopt.started := by
  obtain ⟨optind, optpos⟩ := called.started_next
  obtain ⟨ended, c, scans⟩ := called.scans
  obtain ⟨arg, option⟩ := scans.option
  obtain ⟨sameInd, samePos, -, speaks⟩ := scans.stays untaken
  have ind : after.getopt.started.optind = state.getopt.started.optind := optind.trans sameInd
  have pos : after.getopt.started.optpos = state.getopt.started.optpos := optpos.trans samePos
  have again : OptionAt argc argv after.getopt.started arg :=
    ⟨ind ▸ option.inside, ind ▸ option.found, option.dash, option.letter, option.single, pos ▸ option.inString⟩
  have letter : declared optstring arg after.getopt.started = declared optstring arg state.getopt.started := by
    unfold declared
    rw [pos]
  have untaken : ¬ TakesOption argc argv optstring after.getopt.started := by
    rw [again.takes_iff, letter, ind, pos, ← option.takes_iff]
    exact untaken
  refine ⟨?_, untaken⟩
  have scansAgain : ∃ c next, GetoptScans argc argv optstring after.getopt.started (some c) next := by
    cases taken : declared optstring arg after.getopt.started with
    | none => exact ⟨_, _, .unknown again taken speaks⟩
    | some takes =>
        rw [again.takes_iff] at untaken
        obtain ⟨notFlag, noArgument⟩ := not_or.mp untaken
        cases takes with
        | false => exact absurd taken notFlag
        | true =>
            have none : ¬ (strChar arg (after.getopt.started.optpos + 1)
              ≠ nul ∨ after.getopt.started.optind + 2 ≤ argc) :=
              fun given => noArgument ⟨taken, given⟩
            obtain ⟨last, noRoom⟩ := not_or.mp none
            exact ⟨_, _, .missing again taken (not_not.mp last) (Int.not_le.mp noRoom) speaks⟩
  obtain ⟨c, next, scansAgain⟩ := scansAgain
  obtain ⟨world, returned⟩ := mrshGetopt_scans ended scansAgain
  exact ⟨_, c, returned⟩

/-- The scan of the options comes to an end if and only if each call that returns an option takes one. -/
theorem getoptCalls_end_iff : Ends (GetoptCall argc argv optstring) state ↔
    ∀ reached, Relation.ReflTransGen (GetoptCall argc argv optstring) state reached →
      (∃ after, GetoptCall argc argv optstring reached after)
        → TakesOption argc argv optstring reached.getopt.started := by
  obtain ⟨bound, below⟩ := slotOf_bounded argv
  refine ends_iff_good (Prod.lex ⟨_, Nat.lt_wfRel.wf⟩ ⟨_, Nat.lt_wfRel.wf⟩).wf
    (fun state => ((argc - state.getopt.started.optind).toNat, bound - state.getopt.started.optpos)) _ ?_
    fun _ _ called untaken => called.stuck untaken
  intro state next called takes more
  obtain ⟨last, called'⟩ := more
  obtain ⟨arg, option⟩ := called'.option
  obtain ⟨optind, optpos⟩ := called.started_next
  have inside := option.inside
  have short := Nat.le_trans option.inString (below _ _ option.found)
  obtain ⟨-, c, scans⟩ := called.scans
  rcases scans.moves takes with later | ⟨same, later⟩
  · have lower : (argc - next.getopt.started.optind).toNat < (argc - state.getopt.started.optind).toNat := by omega
    exact .left _ _ lower
  · have lower : bound - next.getopt.started.optpos < bound - state.getopt.started.optpos := by omega
    rw [optind, ← same]
    exact .right _ lower

/-- Each call that returns an option moves the position forward if and only if it takes one, or is the
first one, and a loop that calls until there are no more options ends if and only if each one takes one. -/
theorem getopt_progress_iff (argc : Int) (argv : List ArgSlot) (optstring : Str) :
    (∀ (state after : Shell World) (c : Char), Leaf.run (mrshGetopt argc argv optstring) state = .done (some c) after →
      (state.getopt.Before after.getopt ↔
        state.getopt.optind = 0 ∨ TakesOption argc argv optstring state.getopt.started)) ∧
    ∀ state : Shell World, Ends (GetoptCall argc argv optstring) state ↔
      ∀ reached, Relation.ReflTransGen (GetoptCall argc argv optstring) state reached →
        (∃ after, GetoptCall argc argv optstring reached after) →
        TakesOption argc argv optstring reached.getopt.started := by
  refine ⟨fun state after c returned => ?_, fun state => getoptCalls_end_iff⟩
  have called : GetoptCall argc argv optstring state after := ⟨c, returned⟩
  obtain ⟨-, scans, -⟩ := mrshGetopt_done returned
  by_cases first : state.getopt.optind = 0
  · refine iff_of_true (.inl ?_) (.inl first)
    obtain ⟨arg, option⟩ := called.option
    have nonneg := option.positive
    have nonzero := state.getopt.started_optind
    by_cases takes : TakesOption argc argv optstring state.getopt.started
    · rcases scans.moves takes with later | ⟨same, -⟩
      · omega
      · omega
    · obtain ⟨same, -⟩ := scans.stays takes
      omega
  · have position : state.getopt.Before after.getopt ↔ state.getopt.started.Before after.getopt := by
      rw [Getopt.started_of_optind first]
      rfl
    rw [position, scans.advances_iff]
    simp [first]

end

/-- The scan of the vector `x -a` with the option `a`. -/
theorem getopt_progress_flag :
    (∃ after, Leaf.run (mrshGetopt 2 (stringsArgv [['x'], ['-', 'a']]) ['a']) (mrshStateCreate [] Machine.isolated) =
      .done (some 'a') after ∧ (mrshStateCreate [] Machine.isolated).getopt.Before after.getopt) ∧
    Ends (GetoptCall 2 (stringsArgv [['x'], ['-', 'a']]) ['a']) (mrshStateCreate [] Machine.isolated) := by
  have progress := @getopt_progress_iff Machine _ 2 (stringsArgv [['x'], ['-', 'a']]) ['a']
  have takes : TakesOption 2 (stringsArgv [['x'], ['-', 'a']]) ['a']
      (mrshStateCreate [] Machine.isolated).getopt.started := ⟨['-', 'a'], rfl, .inl rfl⟩
  have ended : (Leaf.run (mrshGetopt 2 (stringsArgv [['x'], ['-', 'a']]) ['a'])
      (mrshStateCreate [] Machine.isolated)).value? = some (some 'a') := rfl
  have returned := Outcome.eq_done_of_value? ended
  refine ⟨⟨_, returned, (progress.1 _ _ _ returned).mpr (.inr takes)⟩, (progress.2 _).mpr ?_⟩
  intro reached reaches more
  rcases Relation.ReflTransGen.cases_head reaches with rfl | ⟨next, ⟨c, called⟩, reaches⟩
  · exact takes
  · cases returned.symm.trans called
    have noMore : ∀ last, ¬ GetoptCall 2 (stringsArgv [['x'], ['-', 'a']]) ['a'] (Leaf.run
        (mrshGetopt 2 (stringsArgv [['x'], ['-', 'a']]) ['a']) (mrshStateCreate [] Machine.isolated)).state last := by
      rintro last ⟨c, again⟩
      cases again
    rcases Relation.ReflTransGen.cases_head reaches with rfl | ⟨last, called, -⟩
    · obtain ⟨last, called⟩ := more
      exact absurd called (noMore last)
    · exact absurd called (noMore last)

/-- The scan of the vector `x -z` stays at the option `z`, which is not declared. -/
theorem getopt_stays_at_unknown :
    (∃ after, Leaf.run (mrshGetopt 2 (stringsArgv [['x'], ['-', 'z']]) ['a']) (mrshStateCreate [] Machine.isolated) =
      .done (some '?') after ∧ ¬ (mrshStateCreate [] Machine.isolated).getopt.Before after.getopt) ∧
    ¬ Ends (GetoptCall 2 (stringsArgv [['x'], ['-', 'z']]) ['a']) (mrshStateCreate [] Machine.isolated) := by
  have ended : (Leaf.run (mrshGetopt 2 (stringsArgv [['x'], ['-', 'z']]) ['a'])
      (mrshStateCreate [] Machine.isolated)).value? = some (some '?') := rfl
  have returned := Outcome.eq_done_of_value? ended
  have untaken : ¬ TakesOption 2 (stringsArgv [['x'], ['-', 'z']]) ['a']
      (mrshStateCreate [] Machine.isolated).getopt.started := by
    rintro ⟨arg, found, takes⟩
    cases found
    rcases takes with takes | ⟨takes, -⟩
    · cases takes
    · cases takes
  refine ⟨⟨_, returned, fun before => ?_⟩, fun ends => ?_⟩
  · rcases before with later | ⟨-, later⟩
    · exact absurd later (Int.lt_irrefl 1)
    · exact absurd later (Nat.lt_irrefl 1)
  · exact untaken (getoptCalls_end_iff.mp ends _ .refl ⟨_, _, returned⟩)

end Mrsh

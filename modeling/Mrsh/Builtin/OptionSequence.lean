import Mrsh.Builtin.Scanning
import Mrsh.Data.OptionScanning

namespace Mrsh

open Mrsh.Data

/-! # Sequences of options

What repeated calls of `_mrsh_getopt` return for a vector of strings.
-/

/-- The strings of a vector have no NUL, as those of C. -/
def AreCStrings (args : List Str) : Prop := ∀ arg ∈ args, nul ∉ arg

/-- `args[j]` is a group of options to `getopt`. -/
def GroupAt (args : List Str) (j : Nat) (arg : Str) : Prop :=
  args[j]? = some arg ∧ ∃ c letters, arg = '-' :: c :: letters ∧ c ≠ '-'

/-- A call at the letter `b` of `args[j]` takes the option `c`, and leaves the position `j'`, `b'`. -/
inductive OptionTaken (optstring : Str) (args : List Str) : Nat → Nat → Char → Option Str → Nat → Nat → Prop
  | lastFlag {j b : Nat} {arg : Str} {c : Char} (group : GroupAt args j arg) (left : arg.drop b = [c])
      (flag : findOptionChar c (optionChars optstring) = some false) : OptionTaken optstring args j b c none (j + 1) 1
  | flag {j b : Nat} {arg letters : Str} {c : Char} (group : GroupAt args j arg) (left : arg.drop b = c :: letters)
      (more : letters ≠ []) (flag : findOptionChar c (optionChars optstring) = some false) :
      OptionTaken optstring args j b c none j (b + 1)
  | attached {j b : Nat} {arg letters : Str} {c : Char} (group : GroupAt args j arg) (left : arg.drop b = c :: letters)
      (more : letters ≠ []) (argument : findOptionChar c (optionChars optstring) = some true) :
      OptionTaken optstring args j b c (some letters) (j + 1) b
  | separate {j b : Nat} {arg optarg : Str} {c : Char} (group : GroupAt args j arg) (left : arg.drop b = [c])
      (argument : findOptionChar c (optionChars optstring) = some true) (next : args[j + 1]? = some optarg) :
      OptionTaken optstring args j b c (some optarg) (j + 2) b

/-- A call at `args[j]` finds no more options, and leaves `optind` at `j'`. -/
inductive ScanStops (args : List Str) : Nat → Nat → Prop
  | past {j : Nat} (past : args.length ≤ j) : ScanStops args j j
  | operand {j : Nat} {arg : Str} (found : args[j]? = some arg) (plain : ∀ c letters, arg ≠ '-' :: c :: letters) :
      ScanStops args j j
  | dashes {j : Nat} {letters : Str} (found : args[j]? = some ('-' :: '-' :: letters)) : ScanStops args j (j + 1)

section

variable {args : List Str} {arg : Str} {i j b j' b' : Nat}

theorem AreCStrings.at (cStrings : AreCStrings args) (found : args[i]? = some arg) : nul ∉ arg :=
  cStrings arg (List.mem_of_getElem? found)

theorem strChar_drop {c : Char} {letters : Str} (left : arg.drop b = c :: letters) : strChar arg b = c := by
  unfold strChar
  rw [List.getD_eq_getElem?_getD, ← List.head?_drop, left]
  rfl

theorem strChar_ne_nul_iff (cString : nul ∉ arg) : strChar arg b ≠ nul ↔ arg.drop b ≠ [] := by
  cases left : arg.drop b with
  | nil =>
      have past := List.drop_eq_nil_iff.mp left
      simp [strChar, past]
  | cons c letters =>
      have member : c ∈ arg := List.mem_of_mem_drop (left ▸ List.mem_cons_self)
      have visible : c ≠ nul := fun same => cString (same ▸ member)
      simp [strChar_drop left, visible]

theorem drop_succ {c : Char} {letters : Str} (left : arg.drop b = c :: letters) : arg.drop (b + 1) = letters := by
  rw [← List.tail_drop, left, List.tail_cons]

theorem strChar_last {c : Char} (left : arg.drop b = [c]) : strChar arg (b + 1) = nul := by
  have past := List.drop_eq_nil_iff.mp (drop_succ left)
  simp [strChar, past]

theorem strChar_more {c : Char} {letters : Str} (cString : nul ∉ arg) (left : arg.drop b = c :: letters)
    (more : letters ≠ []) : strChar arg (b + 1) ≠ nul := by
  rw [strChar_ne_nul_iff cString, drop_succ left]
  exact more

theorem slotOf_strings (args : List Str) (i : Nat) :
    slotOf (stringsArgv args) i =
      if i < args.length then (args[i]?).map some else if i = args.length then some none else none := by
  have nonneg : ¬ (i : Int) < 0 := by omega
  unfold slotOf
  rw [if_neg nonneg, Int.toNat_natCast]
  by_cases inside : i < args.length
  · have found : args[i]? = some args[i] := List.getElem?_eq_getElem inside
    simp [inside, stringsArgv_string found]
  · rw [if_neg inside]
    by_cases last : i = args.length
    · subst last
      simp [stringsArgv_null]
    · have past : (stringsArgv args)[i]? = none := by
        rw [List.getElem?_eq_none_iff]
        simp only [stringsArgv, List.length_append, List.length_map, List.length_zipIdx, List.length_singleton]
        omega
      simp [last, past]

theorem slotOf_strings_some : slotOf (stringsArgv args) i = some (some arg) ↔ args[i]? = some arg := by
  rw [slotOf_strings]
  split
  · simp
  · have past : args[i]? = none := by
      rw [List.getElem?_eq_none_iff]
      omega
    split <;> simp [past]

theorem slotOf_strings_end (args : List Str) : slotOf (stringsArgv args) args.length = some none := by
  simp [slotOf_strings]

theorem hyphened_cases (cString : nul ∉ arg) :
    ((∀ c letters, arg ≠ '-' :: c :: letters) ∧ (strChar arg 0 ≠ '-' ∨ strChar arg 1 = nul)) ∨
      ∃ c letters, arg = '-' :: c :: letters ∧ strChar arg 0 = '-' ∧ strChar arg 1 = c ∧ c ≠ nul := by
  rcases arg with _ | ⟨first, _ | ⟨second, letters⟩⟩
  · exact .inl ⟨fun _ _ same => (nomatch same), .inr rfl⟩
  · exact .inl ⟨fun _ _ same => (nomatch same), .inr rfl⟩
  · by_cases hyphen : first = '-'
    · subst hyphen
      have visible : second ≠ nul := fun same => cString (by simp [same])
      exact .inr ⟨second, letters, rfl, rfl, rfl, visible⟩
    · refine .inl ⟨fun c letters same => hyphen ?_, .inl hyphen⟩
      cases same
      rfl

end

/-! ## Calls for a vector of strings -/

section

variable {World : Type} {optstring : Str} {args : List Str} {arg : Str} {j b j' b' : Nat} {c : Char}
  {optarg : Option Str} {state after : Shell World}

/-- The next call is at the letter `b` of `args[j]`. -/
def ScanAt (state : Shell World) (j b : Nat) : Prop :=
  state.getopt.started.optind = (j : Int) ∧ state.getopt.started.optpos = b

theorem ScanAt.of_next (nonzero : j ≠ 0) (optind : state.getopt.optind = (j : Int)) (optpos : state.getopt.optpos = b) :
    ScanAt state j b := by
  have started : state.getopt.optind ≠ 0 := by omega
  unfold ScanAt
  rw [Getopt.started_of_optind started]
  exact ⟨optind, optpos⟩

theorem GroupAt.option (group : GroupAt args j arg) (cStrings : AreCStrings args) (scanAt : ScanAt state j b)
    (inString : b ≤ arg.length) : OptionAt args.length (stringsArgv args) state.getopt.started arg := by
  obtain ⟨found, c, letters, shape, single⟩ := group
  obtain ⟨optind, optpos⟩ := scanAt
  obtain ⟨inside, -⟩ := List.getElem?_eq_some_iff.mp found
  have slot : slotOf (stringsArgv args) state.getopt.started.optind = some (some arg) := by
    rw [optind]
    exact slotOf_strings_some.mpr found
  have visible := cStrings.at found
  rcases hyphened_cases visible with ⟨plain, -⟩ | ⟨d, letters', shape', dash, second, letter⟩
  · exact absurd shape (plain c letters)
  · cases shape.symm.trans shape'
    exact ⟨by omega, slot, dash, second ▸ letter, second ▸ single, optpos ▸ inString⟩

theorem ScanAt.declared {letters : Str} (scanAt : ScanAt state j b) (left : arg.drop b = c :: letters) :
    declared optstring arg state.getopt.started = findOptionChar c (optionChars optstring) := by
  unfold Mrsh.declared
  rw [scanAt.2, strChar_drop left]

theorem drop_inString {letters : Str} (left : arg.drop b = c :: letters) : b ≤ arg.length := by
  by_contra past
  rw [List.drop_eq_nil_of_le (by omega)] at left
  cases left

theorem ScanAt.positive (scanAt : ScanAt state j b) : j ≠ 0 := by
  have nonzero := state.getopt.started_optind
  rw [scanAt.1] at nonzero
  omega

theorem findOptionChar_mem {chars : Str} {takes : Bool} (found : findOptionChar c chars = some takes) : c ∈ chars := by
  induction chars with
  | nil => cases found
  | cons d chars ih =>
      unfold findOptionChar at found
      by_cases same : d = c
      · exact same ▸ List.mem_cons_self
      · rw [if_neg same] at found
        exact List.mem_cons_of_mem _ (ih found)

theorem optionChars_subset (optstring : Str) : optionChars optstring ⊆ optstring := by
  unfold optionChars
  split
  · exact List.subset_cons_self _ _
  · exact List.Subset.refl _

theorem declared_drop {now : Getopt} {takes : Bool} (visible : nul ∉ optstring)
    (letter : declared optstring arg now = some takes) :
    arg.drop now.optpos = strChar arg now.optpos :: arg.drop (now.optpos + 1) := by
  cases left : arg.drop now.optpos with
  | nil =>
      have past := List.drop_eq_nil_iff.mp left
      have member := optionChars_subset optstring (findOptionChar_mem letter)
      have none : strChar arg now.optpos = nul := by simp [strChar, past]
      exact absurd (none ▸ member) visible
  | cons c letters => rw [strChar_drop left, drop_succ left]

variable [System World]

theorem OptionTaken.returned (takes : OptionTaken optstring args j b c optarg j' b') (cStrings : AreCStrings args)
    (scanAt : ScanAt state j b) :
    ∃ after, Leaf.run (mrshGetopt args.length (stringsArgv args) optstring) state = .done (some c) after ∧
      after.getopt.optarg = optarg ∧ after.getopt.optopt = none ∧ ScanAt after j' b' := by
  have ended := slotOf_strings_end args
  have noOptarg := state.getopt.started_optarg
  have positive := scanAt.positive
  have optind := scanAt.1
  have optpos := scanAt.2
  cases takes with
  | lastFlag group left flag =>
      have option := group.option cStrings scanAt (drop_inString left)
      have letter := (scanAt.declared left).trans flag
      obtain ⟨world, returned⟩ := mrshGetopt_scans ended (.lastFlag option letter (optpos ▸ strChar_last left))
      rw [optpos, strChar_drop left] at returned
      exact ⟨_, returned, noOptarg, rfl, .of_next (Nat.succ_ne_zero _) (by simp [optind]) rfl⟩
  | flag group left more flag =>
      have option := group.option cStrings scanAt (drop_inString left)
      have letter := (scanAt.declared left).trans flag
      have next := strChar_more (cStrings.at group.1) left more
      obtain ⟨world, returned⟩ := mrshGetopt_scans ended (.flag option letter (optpos ▸ next))
      rw [optpos, strChar_drop left] at returned
      exact ⟨_, returned, noOptarg, rfl, .of_next positive optind rfl⟩
  | attached group left more argument =>
      have option := group.option cStrings scanAt (drop_inString left)
      have letter := (scanAt.declared left).trans argument
      have next := strChar_more (cStrings.at group.1) left more
      obtain ⟨world, returned⟩ := mrshGetopt_scans ended (.attached option letter (optpos ▸ next))
      rw [optpos, strChar_drop left, drop_succ left] at returned
      exact ⟨_, returned, rfl, rfl, .of_next (Nat.succ_ne_zero _) (by simp [optind]) rfl⟩
  | separate group left argument next =>
      have option := group.option cStrings scanAt (drop_inString left)
      have letter := (scanAt.declared left).trans argument
      obtain ⟨inside, -⟩ := List.getElem?_eq_some_iff.mp next
      have room : state.getopt.started.optind + 2 ≤ args.length := by omega
      have slot := slotOf_strings_some.mpr next
      rw [show ((_ + 1 : Nat) : Int) = state.getopt.started.optind + 1 by omega] at slot
      obtain ⟨world, returned⟩ :=
        mrshGetopt_scans ended (.separate option letter (optpos ▸ strChar_last left) room slot)
      rw [optpos, strChar_drop left] at returned
      exact ⟨_, returned, rfl, rfl, .of_next (Nat.succ_ne_zero _) (by simp [optind]) rfl⟩

theorem ScanStops.returned (stops : ScanStops args j j') (optstring : Str) (cStrings : AreCStrings args)
    (scanAt : ScanAt state j b) :
    ∃ after, Leaf.run (mrshGetopt args.length (stringsArgv args) optstring) state = .done none after ∧
      after.getopt.optind = (j' : Int) := by
  have ended := slotOf_strings_end args
  have optind := scanAt.1
  cases stops with
  | past past =>
      have scans :
        GetoptScans args.length (stringsArgv args) optstring state.getopt.started none state.getopt.started :=
        .past (by omega)
      obtain ⟨world, returned⟩ := mrshGetopt_scans ended scans
      exact ⟨_, returned, optind⟩
  | operand found plain =>
      obtain ⟨inside, -⟩ := List.getElem?_eq_some_iff.mp found
      have slot := optind.symm ▸ slotOf_strings_some.mpr found
      rcases hyphened_cases (cStrings.at found) with ⟨-, plain⟩ | ⟨c, letters, shape, -⟩
      · have scans :
          GetoptScans args.length (stringsArgv args) optstring state.getopt.started none state.getopt.started :=
          .operand (by omega) slot plain
        obtain ⟨world, returned⟩ := mrshGetopt_scans ended scans
        exact ⟨_, returned, optind⟩
      · exact absurd shape (plain c letters)
  | dashes found =>
      obtain ⟨inside, -⟩ := List.getElem?_eq_some_iff.mp found
      have slot := optind.symm ▸ slotOf_strings_some.mpr found
      have scans : GetoptScans args.length (stringsArgv args) optstring state.getopt.started none
          { state.getopt.started with optind := state.getopt.started.optind + 1 } :=
        .dashes (by omega) slot rfl rfl
      obtain ⟨world, returned⟩ := mrshGetopt_scans ended scans
      exact ⟨_, returned, by simp [optind]⟩

theorem GetoptScans.taken {now next : Getopt}
    (scans : GetoptScans args.length (stringsArgv args) optstring now (some c) next)
    (taking : TakesOption args.length (stringsArgv args) optstring now) (visible : nul ∉ optstring)
    (cStrings : AreCStrings args) (optind : now.optind = (j : Int)) (noOptarg : now.optarg = none) :
    ∃ j' : Nat, next.optind = (j' : Int) ∧ OptionTaken optstring args j now.optpos c next.optarg j' next.optpos := by
  have groupAt : ∀ {arg : Str}, OptionAt args.length (stringsArgv args) now arg → GroupAt args j arg := by
    intro arg option
    have found := option.found
    rw [optind, slotOf_strings_some] at found
    refine ⟨found, ?_⟩
    rcases hyphened_cases (cStrings.at found) with ⟨-, notDash | noLetter⟩ | ⟨d, letters, shape, -, second, -⟩
    · exact absurd option.dash notDash
    · exact absurd noLetter option.letter
    · exact ⟨d, letters, shape, second ▸ option.single⟩
  cases scans with
  | unknown option letter => simp [option.takes_iff, letter] at taking
  | lastFlag option letter last =>
      have group := groupAt option
      have left := declared_drop visible letter
      rw [not_not.mp fun more => (strChar_ne_nul_iff (cStrings.at group.1)).mpr more last] at left
      refine ⟨j + 1, by simp [optind], ?_⟩
      rw [noOptarg]
      exact .lastFlag group left letter
  | flag option letter more =>
      have group := groupAt option
      refine ⟨j, optind, ?_⟩
      rw [noOptarg]
      exact .flag group (declared_drop visible letter) ((strChar_ne_nul_iff (cStrings.at group.1)).mp more) letter
  | attached option letter more =>
      have group := groupAt option
      refine ⟨j + 1, by simp [optind], ?_⟩
      exact .attached group (declared_drop visible letter) ((strChar_ne_nul_iff (cStrings.at group.1)).mp more) letter
  | separate option letter last room found =>
      have group := groupAt option
      have left := declared_drop visible letter
      rw [not_not.mp fun more => (strChar_ne_nul_iff (cStrings.at group.1)).mpr more last] at left
      refine ⟨j + 2, by simp [optind], ?_⟩
      have inside : j + 1 < args.length := by omega
      have slot : slotOf (stringsArgv args) (now.optind + 1) = some (some args[j + 1]) := by
        rw [optind]
        exact slotOf_strings_some.mpr (List.getElem?_eq_getElem inside)
      cases found.symm.trans slot
      exact .separate group left letter (List.getElem?_eq_getElem inside)
  | missing option letter last noRoom =>
      have few : ¬ now.optind + 2 ≤ args.length := Int.not_le.mpr noRoom
      simp [option.takes_iff, letter, last, few] at taking

theorem GetoptScans.stops {now next : Getopt}
    (scans : GetoptScans args.length (stringsArgv args) optstring now none next)
    (cStrings : AreCStrings args) (optind : now.optind = (j : Int)) :
    ∃ j' : Nat, next.optind = (j' : Int) ∧ ScanStops args j j' := by
  cases scans with
  | past past => exact ⟨j, optind, .past (by omega)⟩
  | operand inside found plain =>
      rw [optind, slotOf_strings_some] at found
      refine ⟨j, optind, .operand found ?_⟩
      rcases hyphened_cases (cStrings.at found) with ⟨shape, -⟩ | ⟨c, letters, shape, dash, second, letter⟩
      · exact shape
      · rcases plain with notDash | noLetter
        · exact absurd dash notDash
        · exact absurd (second.symm.trans noLetter) letter
  | dashes inside found dash double =>
      rw [optind, slotOf_strings_some] at found
      refine ⟨j + 1, by simp [optind], ?_⟩
      rcases hyphened_cases (cStrings.at found) with ⟨-, notDash | noLetter⟩ | ⟨c, letters, rfl, -, second, -⟩
      · exact absurd dash notDash
      · rw [double] at noLetter
        cases noLetter
      · cases second.symm.trans double
        exact .dashes found

end

/-! ## Repeated calls -/

section

variable {World : Type} [System World] {optstring : Str} {args : List Str} {j b j' b' : Nat} {c : Char}
  {optarg : Option Str} {state after : Shell World} {results : List (Char × Option Str)}

/-- What repeated calls return, with `optarg`, until there are no more options. -/
inductive Delivers (args : List Str) (optstring : Str) : Shell World → List (Char × Option Str) → Shell World → Prop
  | ended {state after : Shell World}
      (returned : Leaf.run (mrshGetopt args.length (stringsArgv args) optstring) state = .done none after) :
      Delivers args optstring state [] after
  | option {state between after : Shell World} {c : Char} {results : List (Char × Option Str)}
      (returned : Leaf.run (mrshGetopt args.length (stringsArgv args) optstring) state = .done (some c) between)
      (rest : Delivers args optstring between results after) :
      Delivers args optstring state ((c, between.getopt.optarg) :: results) after

/-- Where the calls come to an end, each one that returns an option takes it. -/
theorem Delivers.takesOption {next : Shell World} (delivers : Delivers args optstring state results after)
    (called : GetoptCall args.length (stringsArgv args) optstring state next) :
    TakesOption args.length (stringsArgv args) optstring state.getopt.started := by
  induction delivers generalizing next with
  | ended returned =>
      obtain ⟨c, called⟩ := called
      cases returned.symm.trans called
  | option returned rest ih =>
      by_contra untaken
      have called : GetoptCall args.length (stringsArgv args) optstring _ _ := ⟨_, returned⟩
      obtain ⟨⟨last, again⟩, untaken⟩ := called.stuck untaken
      exact untaken (ih again)

theorem Delivers.stops (delivers : Delivers args optstring state [] after) (cStrings : AreCStrings args)
    (scanAt : ScanAt state j b) : ∃ j' : Nat, after.getopt.optind = (j' : Int) ∧ ScanStops args j j' := by
  cases delivers with
  | ended returned =>
      obtain ⟨-, scans, -⟩ := mrshGetopt_done returned
      exact scans.stops cStrings scanAt.1

theorem Delivers.takes (delivers : Delivers args optstring state ((c, optarg) :: results) after)
    (visible : nul ∉ optstring) (cStrings : AreCStrings args) (scanAt : ScanAt state j b) :
    ∃ between j' b', OptionTaken optstring args j b c optarg j' b' ∧ ScanAt between j' b' ∧
      Delivers args optstring between results after := by
  have taking : ∀ next, GetoptCall args.length (stringsArgv args) optstring state next →
      TakesOption args.length (stringsArgv args) optstring state.getopt.started :=
        fun _ called => delivers.takesOption called
  cases delivers with
  | option returned rest =>
      obtain ⟨-, scans, -⟩ := mrshGetopt_done returned
      have called : GetoptCall args.length (stringsArgv args) optstring state _ := ⟨_, returned⟩
      obtain ⟨sameInd, samePos⟩ := called.started_next
      obtain ⟨j', optind, takes⟩ :=
        scans.taken (taking _ called) visible cStrings scanAt.1 state.getopt.started_optarg
      exact ⟨_, j', _, scanAt.2 ▸ takes, ⟨sameInd.trans optind, samePos⟩, rest⟩

theorem Delivers.of_takes (delivers : Delivers args optstring state results after)
    (takes : OptionTaken optstring args j b c optarg j' b') (cStrings : AreCStrings args) (scanAt : ScanAt state j b) :
    ∃ between rest, results = (c, optarg) :: rest ∧ ScanAt between j' b' ∧
      Delivers args optstring between rest after := by
  obtain ⟨between, called, rfl, -, next⟩ := takes.returned cStrings scanAt
  cases delivers with
  | ended returned => cases returned.symm.trans called
  | option returned rest =>
      cases returned.symm.trans called
      exact ⟨_, _, rfl, next, rest⟩

theorem Delivers.of_stops (delivers : Delivers args optstring state results after) (stops : ScanStops args j j')
    (cStrings : AreCStrings args) (scanAt : ScanAt state j b) : results = [] ∧ after.getopt.optind = (j' : Int) := by
  obtain ⟨last, called, optind⟩ := stops.returned optstring cStrings scanAt
  cases delivers with
  | ended returned =>
      cases returned.symm.trans called
      exact ⟨rfl, optind⟩
  | option returned rest => cases returned.symm.trans called

end

/-! ## Vectors without options -/

/-- The variables of `getopt.c` after a scan that has found an operand at once. -/
def Getopt.plain (getopt : Getopt) : Getopt := { getopt with optarg := none, optind := 1, optpos := 1 }

section

variable {World : Type} [System World] {β : Type} {name operand optstring : Str} {args : List Str} {value : β}
  {step : β → Char → Leaf World (Except Int β)}

theorem mrshGetopt_first (name operand optstring : Str) (args : List Str) {state : Shell World}
    (reset : state.getopt.optind = 0) :
    Leaf.run (mrshGetopt (name :: operand :: args).length (stringsArgv (name :: operand :: args)) optstring) state =
      Leaf.run (if strChar operand 0 != '-' || strChar operand 1 == nul then pure none
        else if strChar operand 1 == '-' then do
          setGetopt fun getopt => { getopt with optind := getopt.optind + 1 }
          pure none
        else getoptOption (name :: operand :: args).length (stringsArgv (name :: operand :: args)) optstring operand)
        { state with getopt := state.getopt.plain } := by
  have ended := slotOf_strings_end (name :: operand :: args)
  have started : state.getopt.started = state.getopt.plain := if_pos reset
  have found : slotOf (stringsArgv (name :: operand :: args)) state.getopt.started.optind = some (some operand) := by
    rw [started]
    exact slotOf_strings_some (i := 1).mpr rfl
  have inside : state.getopt.started.optind < (name :: operand :: args).length := by
    rw [started, Getopt.plain]
    simp only [List.length_cons]
    omega
  rw [mrshGetopt_at ended inside found, started]

theorem forOptions_plain (name optstring : Str) (args : List Str) (value : β)
    (step : β → Char → Leaf World (Except Int β))
    (plain : strChar operand 0 ≠ '-' ∨ strChar operand 1 = nul) (state : Shell World) :
    Leaf.run (forOptions (name :: operand :: args) optstring value step) state =
      .done (.ok value) { state with getopt := state.getopt.plain } := by
  have got := @mrshGetopt_first World _ name operand optstring args
    { state with getopt := { state.getopt with optind := 0 } } rfl
  rw [if_pos (by simpa using plain), Leaf.run_pure] at got
  simp only [forOptions, resetOptind, Leaf.run_bind, setGetopt_run, Outcome.andThen_done, optionLoop, got,
    Leaf.run_pure]
  rfl

theorem forOptions_dashes (state : Shell World) :
    Leaf.run (forOptions (name :: ['-', '-'] :: args) optstring value step) state =
      .done (.ok value) { state with getopt := { state.getopt.plain with optind := 2 } } := by
  have got := @mrshGetopt_first World _ name ['-', '-'] optstring args
    { state with getopt := { state.getopt with optind := 0 } } rfl
  have notPlain : ¬ (strChar ['-', '-'] 0 != '-' || strChar ['-', '-'] 1 == nul) = true := by decide
  have double : (strChar ['-', '-'] 1 == '-') = true := rfl
  rw [if_neg notPlain, if_pos double] at got
  simp only [forOptions, resetOptind, Leaf.run_bind, setGetopt_run, Outcome.andThen_done, optionLoop, got,
    Leaf.run_pure]
  rfl

end

end Mrsh

import Mrsh.Builtin.Variables

namespace Mrsh

open Mrsh.Data

/-! # What `shift` leaves behind

The loop of `shift` moves the entries that are far enough from the end and frees the
others. A shift by one moves all of them, a shift by every parameter does nothing, and any
other shift frees the last entry that is kept.
-/

/-- The entries after the first one are strings with the values of the parameters. -/
def HoldsParams (argv : List ArgSlot) (argc : Int) (params : List Str) : Prop :=
  argc = params.length + 1 ∧
    ∀ i param, params[i]? = some param → ∃ number, argv[i + 1]? = some (.string number param)

theorem holdsParams_strings (zero : Str) (params : List Str) :
    HoldsParams (stringsArgv (zero :: params)) (params.length + 1) params :=
  ⟨rfl, fun i _ found => ⟨i + 1, stringsArgv_string (i := i + 1) found⟩⟩

/-- The arguments of `shift n`. -/
def AsksForShift (args : List Str) (n : Nat) : Prop :=
  (∃ name, args = [name] ∧ n = 1) ∨
  ∃ name arg, args = [name, arg] ∧ (strtol 10 arg).rest = [] ∧ (strtol 10 arg).outOfRange = false ∧
    toInt32 (strtol 10 arg).value = n

section Loop

variable {argc n m : Nat} {argv moved : List ArgSlot} {params : List Str}

theorem range_succ_drop_one (positive : 0 < m) : (List.range (m + 1)).drop 1 = (List.range m).drop 1 ++ [m] := by
  rw [List.range_succ, List.drop_append_of_le_length (by rw [List.length_range]; exact positive)]

theorem shiftSlot_move (near : m + n ≤ argc - n) :
    shiftSlot argc n argv m = (argv[m + n]?).map fun slot => argv.set m slot := by
  rw [shiftSlot, if_pos near]
  cases argv[m + n]? <;> rfl

theorem shiftSlots_move (near : ∀ i < m, i + n ≤ argc - n) (inside : ∀ i < m, i + n < argv.length) :
    ∃ moved, ((List.range m).drop 1).foldlM (shiftSlot argc n) argv = some moved ∧
      ∀ i, moved[i]? = if 1 ≤ i ∧ i < m then argv[i + n]? else argv[i]? := by
  induction m with
  | zero => exact ⟨argv, rfl, fun i => by rw [if_neg (by omega)]⟩
  | succ m ih =>
      obtain ⟨moved, rounds, holds⟩ := ih (fun i below => near i (by omega)) (fun i below => inside i (by omega))
      cases m with
      | zero => exact ⟨argv, rfl, fun i => by rw [if_neg (by omega)]⟩
      | succ m =>
          have bound : m + 1 + n < argv.length := inside (m + 1) (by omega)
          have source : moved[m + 1 + n]? = some argv[m + 1 + n] := by
            rw [holds, if_neg (by omega), List.getElem?_eq_getElem bound]
          have long : m + 1 < moved.length := by
            have := (List.getElem?_eq_some_iff.mp source).1
            omega
          refine ⟨moved.set (m + 1) argv[m + 1 + n], ?_, fun i => ?_⟩
          · rw [range_succ_drop_one (by omega), List.foldlM_append, rounds]
            simp only [Option.bind_eq_bind, Option.bind_some, List.foldlM_cons, List.foldlM_nil,
              shiftSlot_move (near (m + 1) (by omega)), source, Option.map_some]
            rfl
          · by_cases last : i = m + 1
            · subst last
              rw [if_pos (by omega), List.getElem?_set_self long, List.getElem?_eq_getElem bound]
            · rw [List.getElem?_set_ne (by omega), holds]
              by_cases early : 1 ≤ i ∧ i < m + 1
              · rw [if_pos early, if_pos (by omega)]
              · rw [if_neg early, if_neg (by omega)]

theorem freeSlot_noString (freed : freeSlot argv m = some moved) :
    ∀ number str, moved[m]? ≠ some (.string number str) := by
  intro number str left
  rw [freeSlot] at freed
  cases slot : argv[m]? with
  | none => simp [slot] at freed
  | some found =>
      cases found with
      | string other text =>
          simp only [slot, Option.some.injEq] at freed
          simp [← freed, slot] at left
      | freed => simp [slot] at freed
      | null =>
          simp only [slot, Option.some.injEq] at freed
          simp [← freed, slot] at left

/-- The last round frees the last entry that is kept, if the shift is by more than one. -/
theorem shiftArgv_noString (many : 2 ≤ n) (few : n + 1 < argc) (shifted : shiftArgv argc n argv = some moved) :
    ∀ number str, moved[argc - n - 1]? ≠ some (.string number str) := by
  obtain ⟨last, count⟩ : ∃ last, argc - n = last + 2 := ⟨argc - n - 2, by omega⟩
  rw [shiftArgv, count, range_succ_drop_one (by omega), List.foldlM_append] at shifted
  cases rounds : ((List.range (last + 1)).drop 1).foldlM (shiftSlot argc n) argv with
  | none => simp only [rounds, Option.bind_eq_bind, Option.bind_none, reduceCtorEq] at shifted
  | some before =>
      simp only [rounds, Option.bind_eq_bind, Option.bind_some, List.foldlM_cons] at shifted
      rw [show argc - n - 1 = last + 1 by omega]
      have far : ¬ last + 1 + n ≤ argc - n := by omega
      rw [shiftSlot, if_neg far] at shifted
      cases freed : freeSlot before (last + 1) with
      | none => simp [freed] at shifted
      | some after =>
          simp only [freed, Option.bind_some, List.foldlM_nil, Option.pure_def, Option.some.injEq] at shifted
          subst shifted
          exact freeSlot_noString freed

theorem shiftSlot_notNull {i j : Nat} (apart : i ≠ j) (present : argv[j]? ≠ some .null)
    (shifted : shiftSlot argc n argv i = some moved) : moved[j]? ≠ some .null := by
  intro null
  rw [shiftSlot] at shifted
  split at shifted
  · cases source : argv[i + n]? with
    | none => simp [source] at shifted
    | some slot =>
        simp only [source, Option.some.injEq] at shifted
        rw [← shifted, List.getElem?_set_ne apart] at null
        exact present null
  · rw [freeSlot] at shifted
    split at shifted
    · simp only [Option.some.injEq] at shifted
      rw [← shifted, List.getElem?_map] at null
      obtain ⟨slot, found, freed⟩ := Option.map_eq_some_iff.mp null
      cases slot with
      | string number str =>
          dsimp only at freed
          split at freed <;> cases freed
      | freed => cases freed
      | null => exact present found
    · cases shifted
      exact present null
    · cases shifted

theorem shiftSlots_notNull {j : Nat} (rounds : List Nat) (apart : ∀ i ∈ rounds, i ≠ j)
    (present : argv[j]? ≠ some .null) (shifted : rounds.foldlM (shiftSlot argc n) argv = some moved) :
    moved[j]? ≠ some .null := by
  induction rounds generalizing argv with
  | nil =>
      cases shifted
      exact present
  | cons i rounds ih =>
      rw [List.foldlM_cons] at shifted
      obtain ⟨after, round, shifted⟩ := Option.bind_eq_some_iff.mp shifted
      exact ih (fun i member => apart i (List.mem_cons_of_mem _ member))
        (shiftSlot_notNull (apart i List.mem_cons_self) present round) shifted

/-- The entry that the frame ends with is not a null pointer after a shift. -/
theorem shiftArgv_notNull (present : argv[argc - n]? ≠ some .null) (shifted : shiftArgv argc n argv = some moved) :
    moved[argc - n]? ≠ some .null := by
  refine shiftSlots_notNull _ (fun i member => ?_) present shifted
  have below := List.mem_range.mp (List.mem_of_mem_drop member)
  omega

theorem shiftArgv_one_holds (present : 1 ≤ params.length) (held : HoldsParams argv (params.length + 1) params) :
    ∃ argv', shiftArgv (params.length + 1) 1 argv = some argv' ∧
      HoldsParams argv' (params.length + 1 - (1 : Nat)) (params.drop 1) := by
  have inside : ∀ i < params.length, i + 1 < argv.length := by
    intro i below
    obtain ⟨number, found⟩ := held.2 i params[i] (List.getElem?_eq_getElem below)
    exact (List.getElem?_eq_some_iff.mp found).1
  have near : ∀ i < params.length, i + 1 ≤ params.length + 1 - 1 := by omega
  obtain ⟨moved, rounds, holds⟩ := shiftSlots_move near inside
  refine ⟨moved, rounds, ?_, fun i param found => ?_⟩
  · rw [List.length_drop]
    omega
  · rw [List.getElem?_drop, Nat.add_comm] at found
    have below : i + 1 < params.length := (List.getElem?_eq_some_iff.mp found).1
    rw [holds, if_pos (by omega)]
    exact held.2 (i + 1) param found

theorem shiftArgv_all_holds :
    ∃ argv', shiftArgv (params.length + 1) params.length argv = some argv' ∧
      HoldsParams argv' (params.length + 1 - params.length) (params.drop params.length) := by
  refine ⟨argv, ?_, ?_, fun i param found => ?_⟩
  · rw [shiftArgv, Nat.add_sub_cancel_left]
    rfl
  · rw [List.drop_length, List.length_nil]
    omega
  · simp at found

theorem shiftArgv_holds_iff (positive : 0 < n) (enough : n ≤ params.length)
    (held : HoldsParams argv (params.length + 1) params) :
    (∃ argv', shiftArgv (params.length + 1) n argv = some argv' ∧
      HoldsParams argv' (params.length + 1 - n) (params.drop n)) ↔ n ≤ 1 ∨ n = params.length := by
  constructor
  · rintro ⟨argv', shifted, -, left⟩
    by_contra middle
    have kept : params.length - n - 1 < (params.drop n).length := by
      rw [List.length_drop]
      omega
    obtain ⟨number, last⟩ := left _ _ (List.getElem?_eq_getElem kept)
    rw [show params.length - n - 1 + 1 = params.length + 1 - n - 1 by omega] at last
    exact shiftArgv_noString (by omega) (by omega) shifted number _ last
  · rintro (few | all)
    · obtain rfl : n = 1 := by omega
      exact shiftArgv_one_holds enough held
    · subst all
      exact shiftArgv_all_holds

end Loop

section

variable {World : Type} [System World] {state : Shell World} {args params : List Str} {n : Nat}

theorem builtinShift_of_asks (asks : AsksForShift args n) : builtinShift args = (shiftBy n : Leaf World Int) := by
  rcases asks with ⟨name, rfl, rfl⟩ | ⟨name, arg, rfl, whole, fits, value⟩
  · rfl
  · simp [builtinShift, whole, fits, value]

theorem shiftBy_zero : Leaf.run (shiftBy 0) state = .done 0 state := rfl

theorem shiftBy_pos (positive : 0 < n) (enough : n < state.argc) :
    Leaf.run (shiftBy n) state =
      match shiftArgv state.argc.toNat n state.argv with
      | some argv => .done 0 { state with argv, argc := state.argc - n }
      | none => .stopped .aborted state := by
  have nonzero : ((n : Int) == 0) = false := beq_eq_false_iff_ne.mpr (by omega)
  have notLess : ¬ (n : Int) < 1 := by omega
  have notMore : ¬ state.argc - 1 < n := by omega
  cases shifted : shiftArgv state.argc.toNat n state.argv <;>
    simp only [shiftBy, Leaf.run_bind, Leaf.run_gets, Outcome.andThen_done, nonzero, Bool.false_eq_true, if_neg notLess,
      if_neg notMore, if_false, Int.toNat_natCast, shifted, orCrash, Leaf.run_pure, Leaf.run_abort,
      Outcome.andThen_stopped, Leaf.run_update]

/-- A shift changes the parameters as its loop changes the argument vector. -/
theorem shiftBy_holds_iff {rest : List Str} (positive : 0 < n) (enough : n ≤ params.length)
    (count : state.argc = params.length + 1) :
    (∃ after, Leaf.run (shiftBy n) state = .done 0 after ∧ HoldsParams after.argv after.argc rest) ↔
      ∃ argv, shiftArgv (params.length + 1) n state.argv = some argv ∧
        HoldsParams argv (params.length + 1 - n) rest := by
  have total : state.argc.toNat = params.length + 1 := by omega
  rw [shiftBy_pos positive (by omega), total]
  cases shiftArgv (params.length + 1) n state.argv with
  | none => simp
  | some argv => simp [count]

/-- The parameters that `shift n` leaves are exactly the last ones if it shifts by at most one
parameter or by all of them. -/
theorem builtinShift_holds_iff (asks : AsksForShift args n) (enough : n ≤ params.length)
    (held : HoldsParams state.argv state.argc params) :
    (∃ after, Leaf.run (builtinShift args) state = .done 0 after ∧
      HoldsParams after.argv after.argc (params.drop n)) ↔ n ≤ 1 ∨ n = params.length := by
  have count := held.1
  rw [builtinShift_of_asks asks]
  cases n with
  | zero => exact ⟨fun _ => .inl (by omega), fun _ => ⟨state, shiftBy_zero, held⟩⟩
  | succ n =>
      rw [shiftBy_holds_iff (by omega) enough count]
      rw [count] at held
      exact shiftArgv_holds_iff (by omega) enough held

end

/-! ## A shell with three parameters -/

def threeParameters : Shell Machine :=
  { mrshStateCreate [] Machine.isolated with argv := stringsArgv [['m'], ['a'], ['b'], ['c']], argc := 4 }

theorem builtinShift_holds_three :
    ∃ after, Leaf.run (builtinShift [['s']]) threeParameters = .done 0 after ∧
      HoldsParams after.argv after.argc [['b'], ['c']] :=
  (builtinShift_holds_iff (.inl ⟨['s'], rfl, rfl⟩) (show 1 ≤ [['a'], ['b'], ['c']].length by decide)
    (holdsParams_strings ['m'] [['a'], ['b'], ['c']])).mpr (.inl (Nat.le_refl 1))

/-- `shift 2` frees the parameter that it keeps. -/
theorem builtinShift_frees_kept : AsksForShift [['s'], ['2']] 2 ∧
    HoldsParams threeParameters.argv threeParameters.argc [['a'], ['b'], ['c']] ∧
    ∃ after, Leaf.run (builtinShift [['s'], ['2']]) threeParameters = .done 0 after ∧
      after.argc = 2 ∧ after.argv[1]? = some .freed ∧ ¬ HoldsParams after.argv after.argc [['c']] := by
  have asks : AsksForShift [['s'], ['2']] 2 := .inr ⟨['s'], ['2'], by decide⟩
  have frees : shiftArgv threeParameters.argc.toNat 2 threeParameters.argv =
      some [.string 0 ['m'], .freed, .string 2 ['b'], .string 3 ['c'], .null] := by decide
  have enough : (2 : Nat) < threeParameters.argc := by decide
  have shifted := shiftBy_pos (by decide) enough
  rw [frees, ← builtinShift_of_asks asks] at shifted
  refine ⟨asks, holdsParams_strings ['m'] [['a'], ['b'], ['c']], _, shifted, rfl, rfl, fun held => ?_⟩
  obtain ⟨number, found⟩ := held.2 0 ['c'] rfl
  cases found

end Mrsh

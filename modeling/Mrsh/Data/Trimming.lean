import Mathlib.Data.List.Basic

namespace Mrsh.Data

/-! # Removing a prefix or a suffix of a list

A split point cuts a list in two. One of the two parts is removed if it matches, and the
split point is chosen so that the removed part is the shortest or the longest that matches.
-/

variable {α : Type} (isMatch : List α → Bool) (text : List α) (suffix largest : Bool)

/-- The part that is removed at a split point. -/
def removed (i : Nat) : List α := if suffix then text.drop i else text.take i

/-- The part that is left. -/
def remaining (i : Nat) : List α := if suffix then text.take i else text.drop i

/-- The first of two split points removes the shorter part if the shortest is asked for, and
the longer part if the longest is. -/
def Prefers (i j : Nat) : Prop := if suffix = largest then i < j else j < i

/-- The text without the best part that matches, or the text itself if none matches. -/
def IsTrimmed (result : List α) : Prop :=
  (∃ i ≤ text.length, isMatch (removed text suffix i) = true ∧
    (∀ j ≤ text.length, Prefers suffix largest j i → isMatch (removed text suffix j) = false) ∧
    result = remaining text suffix i) ∨
  ((∀ i ≤ text.length, isMatch (removed text suffix i) = false) ∧ result = text)

/-- The first of the split points below a bound at which something holds, the preferred ones first. -/
def searchSplits (bound : Nat) (holds : Nat → Bool) : Option Nat :=
  (if suffix = largest then List.range bound else (List.range bound).reverse).find? holds

/-- Removes the part that a search finds. -/
def trimBelow (bound : Nat) : List α :=
  match searchSplits suffix largest bound fun i => isMatch (removed text suffix i) with
  | some i => remaining text suffix i
  | none => text

variable {isMatch : List α → Bool} {text : List α} {suffix largest : Bool} {bound i : Nat} {holds : Nat → Bool}

theorem searchSplits_up (upward : suffix = largest) : searchSplits suffix largest (bound + 1) holds =
    (searchSplits suffix largest bound holds).or (if holds bound then some bound else none) := by
  rw [searchSplits, searchSplits, if_pos upward, if_pos upward, List.range_succ, List.find?_append,
    List.find?_singleton]

theorem searchSplits_down (downward : suffix ≠ largest) : searchSplits suffix largest (bound + 1) holds =
    if holds bound then some bound else searchSplits suffix largest bound holds := by
  rw [searchSplits, searchSplits, if_neg downward, if_neg downward, List.range_succ, List.reverse_append,
    List.reverse_singleton, List.singleton_append, List.find?_cons]
  cases holds bound <;> rfl

theorem searchSplits_none (missing : searchSplits suffix largest bound holds = none) :
    ∀ j < bound, holds j = false := by
  intro j below
  have member : j ∈ if suffix = largest then List.range bound else (List.range bound).reverse := by
    split <;> simpa using below
  simpa using List.find?_eq_none.mp missing j member

theorem searchSplits_some (found : searchSplits suffix largest bound holds = some i) :
    i < bound ∧ holds i = true ∧ ∀ j < bound, Prefers suffix largest j i → holds j = false := by
  induction bound with
  | zero => cases upward : decide (suffix = largest) <;> simp_all [searchSplits]
  | succ bound ih =>
      by_cases upward : suffix = largest
      · rw [searchSplits_up upward] at found
        cases earlier : searchSplits suffix largest bound holds with
        | some k =>
            rw [earlier, Option.some_or] at found
            obtain rfl := Option.some.inj found
            obtain ⟨below, held, best⟩ := ih earlier
            refine ⟨by omega, held, fun j _ preferred => best j ?_ preferred⟩
            rw [Prefers, if_pos upward] at preferred
            omega
        | none =>
            rw [earlier, Option.none_or] at found
            split at found
            · rename_i held
              obtain rfl := Option.some.inj found
              refine ⟨Nat.lt_succ_self _, held, fun j _ preferred => searchSplits_none earlier j ?_⟩
              rw [Prefers, if_pos upward] at preferred
              exact preferred
            · cases found
      · rw [searchSplits_down upward] at found
        split at found
        · rename_i held
          obtain rfl := Option.some.inj found
          refine ⟨Nat.lt_succ_self _, held, fun j below preferred => ?_⟩
          rw [Prefers, if_neg upward] at preferred
          omega
        · rename_i notHeld
          obtain ⟨below, held, best⟩ := ih found
          refine ⟨by omega, held, fun j below preferred => ?_⟩
          by_cases last : j = bound
          · rw [last]
            simpa using notHeld
          · exact best j (by omega) preferred

theorem trimBelow_isTrimmed : IsTrimmed isMatch text suffix largest
    (trimBelow isMatch text suffix largest (text.length + 1)) := by
  unfold trimBelow
  cases found : searchSplits suffix largest (text.length + 1) fun i => isMatch (removed text suffix i) with
  | some i =>
      obtain ⟨below, held, best⟩ := searchSplits_some found
      exact .inl ⟨i, by omega, held, fun j below => best j (by omega), rfl⟩
  | none => exact .inr ⟨fun i below => searchSplits_none found i (by omega), rfl⟩

theorem IsTrimmed.unique {first second : List α} (firstTrimmed : IsTrimmed isMatch text suffix largest first)
    (secondTrimmed : IsTrimmed isMatch text suffix largest second) : first = second := by
  rcases firstTrimmed with ⟨i, below, held, best, rfl⟩ | ⟨missing, rfl⟩
  · rcases secondTrimmed with ⟨j, otherBelow, otherHeld, otherBest, rfl⟩ | ⟨missing, _⟩
    · have same : i = j := by
        by_contra different
        have preferred : Prefers suffix largest i j ∨ Prefers suffix largest j i := by
          unfold Prefers
          split <;> omega
        rcases preferred with preferred | preferred
        · rw [otherBest i below preferred] at held
          cases held
        · rw [best j otherBelow preferred] at otherHeld
          cases otherHeld
      rw [same]
    · rw [missing i below] at held
      cases held
  · rcases secondTrimmed with ⟨j, otherBelow, otherHeld, _⟩ | ⟨_, rfl⟩
    · rw [missing j otherBelow] at otherHeld
      cases otherHeld
    · rfl

/-! ## A search that leaves out the last split point -/

/-- What is removed or left at the end of the text makes no difference. -/
def EndIrrelevant (isMatch : List α → Bool) (text : List α) : (suffix largest : Bool) → Prop
  | false, false => text = [] ∨ isMatch text = false ∨ ∃ i < text.length, isMatch (text.take i) = true
  | false, true => text = [] ∨ isMatch text = false
  | true, false => isMatch [] = false ∨ ∀ i < text.length, isMatch (text.drop i) = false
  | true, true => True

theorem trimBelow_of_some
    (found : (searchSplits suffix largest bound fun i => isMatch (removed text suffix i)) = some i) :
    trimBelow isMatch text suffix largest bound = remaining text suffix i := by
  rw [trimBelow, found]

theorem trimBelow_of_none
    (missing : (searchSplits suffix largest bound fun i => isMatch (removed text suffix i)) = none) :
    trimBelow isMatch text suffix largest bound = text := by
  rw [trimBelow, missing]

theorem searchSplits_isSome :
    (searchSplits suffix largest bound holds).isSome = true ↔ ∃ i < bound, holds i = true := by
  constructor
  · intro isSome
    obtain ⟨i, found⟩ := Option.isSome_iff_exists.mp isSome
    obtain ⟨below, held, _⟩ := searchSplits_some found
    exact ⟨i, below, held⟩
  · rintro ⟨i, below, held⟩
    cases found : searchSplits suffix largest bound holds with
    | some j => rfl
    | none =>
        rw [searchSplits_none found i below] at held
        cases held

theorem trimBelow_up (upward : suffix = largest) :
    trimBelow isMatch text suffix largest bound = trimBelow isMatch text suffix largest (bound + 1) ↔
      (∃ i < bound, isMatch (removed text suffix i) = true) ∨ isMatch (removed text suffix bound) = false ∨
        remaining text suffix bound = text := by
  have step := @searchSplits_up suffix largest bound (fun i => isMatch (removed text suffix i)) upward
  rw [← @searchSplits_isSome suffix largest bound fun i => isMatch (removed text suffix i)]
  cases found : searchSplits suffix largest bound fun i => isMatch (removed text suffix i) with
  | some i =>
      rw [found, Option.some_or] at step
      rw [trimBelow_of_some found, trimBelow_of_some step]
      simp
  | none =>
      rw [found, Option.none_or] at step
      cases held : isMatch (removed text suffix bound) with
      | true =>
          rw [held] at step
          rw [trimBelow_of_none found, trimBelow_of_some step]
          simp [eq_comm]
      | false =>
          rw [held] at step
          rw [trimBelow_of_none found, trimBelow_of_none step]
          simp

theorem trimBelow_down (downward : suffix ≠ largest) :
    trimBelow isMatch text suffix largest bound = trimBelow isMatch text suffix largest (bound + 1) ↔
      isMatch (removed text suffix bound) = false ∨
        trimBelow isMatch text suffix largest bound = remaining text suffix bound := by
  have step := @searchSplits_down suffix largest bound (fun i => isMatch (removed text suffix i)) downward
  cases held : isMatch (removed text suffix bound) with
  | true =>
      rw [held, if_pos rfl] at step
      rw [trimBelow_of_some step]
      simp
  | false =>
      rw [held, if_neg Bool.false_ne_true] at step
      have same : trimBelow isMatch text suffix largest (bound + 1) = trimBelow isMatch text suffix largest bound := by
        rw [trimBelow, trimBelow, step]
      simp [same]

/-- A search that leaves out the last split point finds the best exactly if the end is irrelevant. -/
theorem trimBelow_length_iff :
    IsTrimmed isMatch text suffix largest (trimBelow isMatch text suffix largest text.length) ↔
    EndIrrelevant isMatch text suffix largest := by
  have complete : IsTrimmed isMatch text suffix largest (trimBelow isMatch text suffix largest text.length) ↔
      trimBelow isMatch text suffix largest text.length = trimBelow isMatch text suffix largest (text.length + 1) :=
    ⟨fun trimmed => trimmed.unique trimBelow_isTrimmed, fun same => same ▸ trimBelow_isTrimmed⟩
  rw [complete]
  match suffix, largest with
  | false, false =>
      rw [trimBelow_up rfl]
      simp only [removed, remaining, Bool.false_eq_true, if_false, List.take_length, List.drop_length, EndIrrelevant]
      grind
  | true, true =>
      rw [trimBelow_up rfl]
      simp [remaining, EndIrrelevant]
  | false, true =>
      rw [trimBelow_down (by decide)]
      have emptied : trimBelow isMatch text false true text.length = [] ↔ text = [] := by
        cases found : searchSplits false true text.length fun i => isMatch (removed text false i) with
        | some i =>
            have below := (searchSplits_some found).1
            rw [trimBelow_of_some found]
            simp only [remaining, Bool.false_eq_true, if_false, List.drop_eq_nil_iff]
            constructor
            · omega
            · rintro rfl
              exact absurd below (Nat.not_lt_zero i)
        | none => rw [trimBelow_of_none found]
      simp only [removed, remaining, Bool.false_eq_true, if_false, List.take_length, List.drop_length, EndIrrelevant,
        emptied]
      exact or_comm
  | true, false =>
      rw [trimBelow_down (by decide)]
      have kept : trimBelow isMatch text true false text.length = text ↔
          ∀ i < text.length, isMatch (text.drop i) = false := by
        cases found : searchSplits true false text.length fun i => isMatch (removed text true i) with
        | some i =>
            obtain ⟨below, held, _⟩ := searchSplits_some found
            rw [trimBelow_of_some found]
            constructor
            · intro same
              have shorter := congrArg List.length same
              simp only [remaining, if_true, List.length_take] at shorter
              omega
            · intro none
              have unheld : isMatch (removed text true i) = false := none i below
              rw [unheld] at held
              cases held
        | none =>
            rw [trimBelow_of_none found]
            exact ⟨fun _ => searchSplits_none found, fun _ => rfl⟩
      simp only [removed, remaining, if_true, List.drop_length, List.take_length, EndIrrelevant, kept]

end Mrsh.Data

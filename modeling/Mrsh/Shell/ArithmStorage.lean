import Mrsh.Data.Rounding
import Mrsh.Numerals
import Mrsh.Shell.ArithmSteps

namespace Mrsh

open Mrsh.Data

/-! # Numbers in variables

An arithmetic assignment prints a number with `%ld`, and `strtod` reads it. A
`double` has 53 bits, so that not every `long` is read back.
-/

/-- `strtod` gives the `double` that is nearest to a decimal integer, and the conversion to `long` is exact where the
`double` is in range. Out of range the conversion is undefined. -/
def ConvertsDecimals (World : Type) [System World] : Prop :=
  ∀ value, longMin ≤ value → value ≤ longMax → roundInteger 53 value ≤ longMax →
    System.strtod World (decimal value) = (roundInteger 53 value, [])

/-- An evaluation of the variable right after an assignment that stores the number yields the number. -/
def ReadsBack (World : Type) [System World] (value : Int) : Prop :=
  ∀ (op : ArithmAssignOp) (name : Str) (expr : ArithmExpr) (location location' : Int) (state after : Shell World),
    Leaf.run (mrshRunArithmExpr (.assign op name expr) location) state = .done (some value) after →
      Leaf.run (mrshRunArithmExpr (.var name) location') after = .done (some value) after

section

variable {World : Type}

theorem assigned_stores {name : Str} {attribs : Attribs} (evaluation : Evaluation) {world worldAfter : World}
    {value : Int}
    {vars : Table Variable}
    (assigns : Delivery.ofEvaluation world (evaluation.andThen (assigned name attribs)) =
      .value value vars worldAfter) :
    vars.get name = some ⟨decimal value, attribs⟩ := by
  cases evaluation with
  | value number before =>
      cases assigns
      rw [Hashtable.get_set, if_pos rfl]
  | failed before => cases assigns
  | undefined => cases assigns

variable [System World]

theorem assignment_stores {op : ArithmAssignOp} {name : Str} {expr : ArithmExpr} {location value : Int}
    {state after : Shell World}
    (ended : Leaf.run (mrshRunArithmExpr (.assign op name expr) location) state = .done (some value) after) :
    ∃ attribs, after.vars.get name = some ⟨decimal value, attribs⟩ := by
  have comes := mrshRunArithmExpr_comes (.assign op name expr) location state
  rw [ended] at comes
  obtain ⟨delivered, -⟩ := comes.delivered
  unfold deliver at delivered
  cases operand : intoLocal (fun place => deliver (state.options .nounset) expr place state.vars) state.world with
  | failed | undefined => simp [operand] at delivered
  | value number vars world =>
      rw [operand, Delivery.andThen_value] at delivered
      cases compound : assignBinop op with
      | none =>
          rw [compound] at delivered
          exact ⟨.none, assigned_stores (.value number vars) delivered⟩
      | some type =>
          cases found : convertedVariable World (state.options .nounset) vars name with
          | none => simp [compound, found] at delivered
          | some pair =>
              simp only [compound, found] at delivered
              exact ⟨pair.2, assigned_stores _ delivered⟩

theorem stored_read {state : Shell World} {name : Str} {value converted : Int} {attribs : Attribs}
    (stored : state.vars.get name = some ⟨decimal value, attribs⟩)
    (converts : System.strtod World (decimal value) = (converted, [])) (location : Int) :
    Leaf.run (mrshRunArithmExpr (.var name) location) state = .done (some converted) state := by
  have comes := mrshRunArithmExpr_comes (.var name) location state
  have nonempty : (decimal value).isEmpty = false := by simpa using decimal_nonempty value
  have different : ([] == decimal value) = false := by
    simpa using decimal_nonempty value
  have read : convertedVariable World (state.options .nounset) state.vars name = some (converted, attribs) := by
    simp [convertedVariable, stored, numericValue.strtodValue, converts, different]
  rw [deliver, read] at comes
  exact comes.value_inv

end

/-- A system with 53 bits of precision. A `double` that is out of range is converted as many processors do it. -/
@[reducible] def doubleSystem : System Machine :=
  { (inferInstance : System Machine) with
    strtod := fun text =>
      let rounded := roundInteger 53 (strtol 10 text).value
      (if rounded ≤ longMax then rounded else longMin, (strtol 10 text).rest) }

theorem doubleSystem_strtod {value : Int} (low : longMin ≤ value) (high : value ≤ longMax) :
    @System.strtod Machine doubleSystem (decimal value) =
      (if roundInteger 53 value ≤ longMax then roundInteger 53 value else longMin, []) := by
  show (if roundInteger 53 (strtol 10 (decimal value)).value ≤ longMax then _ else _, _) = _
  rw [strtol_decimal_long low high]

theorem doubleSystem_converts : @ConvertsDecimals Machine doubleSystem := by
  intro value low high inRange
  rw [doubleSystem_strtod low high, if_pos inRange]

/-- The shell after `$((x = value))`. -/
def holding (value : Int) : Shell Machine :=
  { namedShell with vars := namedShell.vars.set ['x'] ⟨decimal value, .none⟩ }

theorem holding_assigned (value : Int) :
    Leaf.run (@mrshRunArithmExpr Machine doubleSystem (.assign .none ['x'] (.literal value)) 0) namedShell =
      .done (some value) (holding value) := rfl

theorem holding_read {value : Int} (low : longMin ≤ value) (high : value ≤ longMax) :
    Leaf.run (@mrshRunArithmExpr Machine doubleSystem (.var ['x']) 0) (holding value) =
      .done (some (if roundInteger 53 value ≤ longMax then roundInteger 53 value else longMin)) (holding value) := by
  have stored : (holding value).vars.get ['x'] = some ⟨decimal value, .none⟩ := by
    rw [holding, Hashtable.get_set, if_pos rfl]
  exact @stored_read Machine doubleSystem _ _ _ _ _ stored (doubleSystem_strtod low high) 0

theorem longMin_representable : Representable 53 longMin := ⟨-1, 63, by decide, by decide⟩

/-- The shell can rely on reading a number back where a `double` holds it exactly. -/
theorem readsBack_iff (value : Int) (low : longMin ≤ value) (high : value ≤ longMax) :
    (∀ (World : Type) [System World], ConvertsDecimals World → ReadsBack World value) ↔ Representable 53 value := by
  constructor
  · intro relied
    have reads := @relied Machine doubleSystem doubleSystem_converts _ _ _ 0 0 _ _ (holding_assigned value)
    have same : value = if roundInteger 53 value ≤ longMax then roundInteger 53 value else longMin := by
      rw [holding_read low high] at reads
      exact (Option.some.inj (Outcome.done.inj reads).1).symm
    split at same
    next inRange => exact (roundInteger_eq_iff 53 value).mp same.symm
    next outside =>
      rw [same]
      exact longMin_representable
  · intro exactly World _ converts op name expr location location' state after ended
    have unchanged : roundInteger 53 value = value := (roundInteger_eq_iff 53 value).mpr exactly
    obtain ⟨attribs, stored⟩ := assignment_stores ended
    have converted := converts value low high (by rw [unchanged]; exact high)
    rw [unchanged] at converted
    exact stored_read stored converted location'

/-- The least number is read back. -/
theorem readsBack_longMin : @ReadsBack Machine doubleSystem longMin := by
  have relied := (readsBack_iff longMin (by decide) (by decide)).mpr longMin_representable
  exact @relied Machine doubleSystem doubleSystem_converts

/-- `$((x = 9007199254740993))`, then `$((x))` -/
theorem not_readsBack_odd : ¬ @ReadsBack Machine doubleSystem 9007199254740993 := by
  intro readsBack
  have reads := readsBack .none ['x'] (.literal 9007199254740993) 0 0 namedShell _ (holding_assigned _)
  have rounded : roundInteger 53 9007199254740993 = 9007199254740992 := by decide
  rw [holding_read (by decide) (by decide), rounded, if_pos (by decide)] at reads
  cases reads

end Mrsh

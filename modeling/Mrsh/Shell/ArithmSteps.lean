import Mrsh.Shell.ArithmMeaning

namespace Mrsh

open Mrsh.Data

/-! # The operations of an evaluation

What the shell delivers for an expression, told with the locations that its
results are written to: all operands are evaluated, a variable is converted by
`strtod`, and an unary plus leaves its location as it is. Two faults of the
evaluation are faults of single operations: an unary plus, and a division or a
shift whose behaviour is undefined. `EachStep` says that the operations an
evaluation comes to are good ones.
-/

/-- What an evaluation delivers. The world is part of it, as it holds the contents of the locations. -/
inductive Delivery (World : Type) where
  | value (number : Int) (vars : Table Variable) (world : World)
  | failed
  /-- The behaviour is undefined in C. -/
  | undefined

/-- An operation on values. -/
inductive ArithmStep where
  | unary (type : ArithmUnopType) (value : Int)
  | binary (type : ArithmBinopType) (left right : Int)

namespace Delivery

variable {World : Type}

def andThen (delivery : Delivery World) (next : Int → Table Variable → World → Delivery World) : Delivery World :=
  match delivery with
  | .value number vars world => next number vars world
  | .failed => .failed
  | .undefined => .undefined

/-- If a value is delivered, then this holds of it. -/
def Satisfies (delivery : Delivery World) (good : Int → Table Variable → World → Prop) : Prop :=
  ∀ number vars world, delivery = .value number vars world → good number vars world

def ofEvaluation (world : World) : Evaluation → Delivery World
  | .value number vars => .value number vars world
  | .failed _ => .failed
  | .undefined => .undefined

@[simp] theorem andThen_value (number : Int) (vars : Table Variable) (world : World)
    (next : Int → Table Variable → World → Delivery World) :
    (value number vars world).andThen next = next number vars world := rfl

@[simp] theorem andThen_failed (next : Int → Table Variable → World → Delivery World) :
    (failed : Delivery World).andThen next = failed := rfl

@[simp] theorem andThen_undefined (next : Int → Table Variable → World → Delivery World) :
    (undefined : Delivery World).andThen next = undefined := rfl

@[simp] theorem satisfies_value {number : Int} {vars : Table Variable} {world : World}
    {good : Int → Table Variable → World → Prop} :
    (value number vars world).Satisfies good ↔ good number vars world := by
  constructor
  · intro satisfied
    exact satisfied _ _ _ rfl
  · rintro holds _ _ _ ⟨⟩
    exact holds

@[simp] theorem satisfies_failed {good : Int → Table Variable → World → Prop} :
    (failed : Delivery World).Satisfies good := by
  rintro _ _ _ ⟨⟩

@[simp] theorem satisfies_undefined {good : Int → Table Variable → World → Prop} :
    (undefined : Delivery World).Satisfies good := by
  rintro _ _ _ ⟨⟩

end Delivery

section

variable {World : Type} [System World] (nounset : Bool)

/-- Evaluates into a new location, whose contents are whatever they are. -/
def intoLocal {α : Sort*} (evaluation : Int → World → α) (world : World) : α :=
  evaluation (System.indeterminate world).1 (System.indeterminate world).2

def deliver : ArithmExpr → Int → Table Variable → World → Delivery World
  | .literal value, _, vars, world => .value value vars world
  | .var name, _, vars, world =>
      match convertedVariable World nounset vars name with
      | some (value, _) => .value value vars world
      | none => .failed
  | .unop type body, location, vars, world =>
      (intoLocal (fun place => deliver body place vars) world).andThen fun value vars world =>
        .value (if type = .plus then location else unaryValue type value) vars world
  | .binop type left right, _, vars, world =>
      (intoLocal (fun place => deliver left place vars) world).andThen fun left vars world =>
        (intoLocal (fun place => deliver right place vars) world).andThen fun right vars world =>
          .ofEvaluation world (operate type left right vars)
  | .cond condition body elsePart, location, vars, world =>
      (intoLocal (fun place => deliver condition place vars) world).andThen fun condition vars world =>
        if condition ≠ 0 then deliver body location vars world else deliver elsePart location vars world
  | .assign op name value, _, vars, world =>
      (intoLocal (fun place => deliver value place vars) world).andThen fun value vars world =>
        match assignBinop op with
        | none => .ofEvaluation world (assigned name .none value vars)
        | some type =>
            match convertedVariable World nounset vars name with
            | none => .failed
            | some (current, attribs) =>
                .ofEvaluation world ((operate type current value vars).andThen (assigned name attribs))

/-- The operations that the evaluation comes to are good. -/
def EachStep (good : ArithmStep → Prop) : ArithmExpr → Table Variable → World → Prop
  | .literal _, _, _ => True
  | .var _, _, _ => True
  | .unop type body, vars, world =>
      intoLocal (fun _ => EachStep good body vars) world ∧
        (intoLocal (fun place => deliver nounset body place vars) world).Satisfies fun value _ _ =>
          good (.unary type value)
  | .binop type left right, vars, world =>
      intoLocal (fun _ => EachStep good left vars) world ∧
        (intoLocal (fun place => deliver nounset left place vars) world).Satisfies fun left vars world =>
          intoLocal (fun _ => EachStep good right vars) world ∧
            (intoLocal (fun place => deliver nounset right place vars) world).Satisfies fun right _ _ =>
              good (.binary type left right)
  | .cond condition body elsePart, vars, world =>
      intoLocal (fun _ => EachStep good condition vars) world ∧
        (intoLocal (fun place => deliver nounset condition place vars) world).Satisfies fun condition vars world =>
          if condition ≠ 0 then EachStep good body vars world else EachStep good elsePart vars world
  | .assign op name value, vars, world =>
      intoLocal (fun _ => EachStep good value vars) world ∧
        (intoLocal (fun place => deliver nounset value place vars) world).Satisfies fun value vars _ =>
          ∀ type, assignBinop op = some type →
            ∀ current attribs, convertedVariable World nounset vars name = some (current, attribs) →
              good (.binary type current value)

end

/-! ## The run of the shell -/

section

variable {World : Type}

/-- The run comes to the delivery. A failure is reported under the name of the shell. -/
inductive Comes (before : Shell World) : Outcome Ending (Shell World) (Option Int) → Delivery World → Prop where
  | value (number : Int) (vars : Table Variable) (world : World) :
      Comes before (.done (some number) { before with vars, world }) (.value number vars world)
  | failed (outcome : Outcome Ending (Shell World) (Option Int))
      (unsuccessful : ∀ number after, outcome ≠ .done (some number) after)
      (reported : HasName before → ∃ after, outcome = .done none after) : Comes before outcome .failed
  | undefined (after : Shell World) : Comes before (.stopped .aborted after) .undefined

theorem Comes.pure (state : Shell World) (number : Int) :
    Comes state (Leaf.run (Pure.pure (some number)) state) (.value number state.vars state.world) :=
  .value number state.vars state.world

/-- What happened before changed at most the variables and the world. -/
theorem Comes.shift {before : Shell World} {vars : Table Variable} {world : World}
    {outcome : Outcome Ending (Shell World) (Option Int)} {delivery : Delivery World}
    (comes : Comes { before with vars, world } outcome delivery) : Comes before outcome delivery := by
  cases comes with
  | value number varsAfter worldAfter => exact .value number varsAfter worldAfter
  | failed outcome unsuccessful reported => exact .failed outcome unsuccessful reported
  | undefined after => exact .undefined after

theorem Comes.andThen {before : Shell World} {prog : Leaf World (Option Int)} {first : Delivery World}
    {next : Option Int → Leaf World (Option Int)} {nextDelivery : Int → Table Variable → World → Delivery World}
    (comes : Comes before (Leaf.run prog before) first)
    (fails : ∀ state, Leaf.run (next none) state = .done none state)
    (nextComes : ∀ number vars world, Comes { before with vars, world }
      (Leaf.run (next (some number)) { before with vars, world }) (nextDelivery number vars world)) :
    Comes before (Leaf.run (prog >>= next) before) (first.andThen nextDelivery) := by
  rw [Leaf.run_bind]
  generalize Leaf.run prog before = outcome at comes
  cases comes with
  | value number vars world => exact (nextComes number vars world).shift
  | failed outcome unsuccessful reported =>
      refine .failed _ ?_ ?_
      · intro number after ended
        cases outcome with
        | stopped reason between => cases ended
        | done found between =>
            cases found with
            | some number => exact unsuccessful number between rfl
            | none =>
                rw [Outcome.andThen_done, fails] at ended
                cases ended
      · intro named
        obtain ⟨after, rfl⟩ := reported named
        exact ⟨after, fails after⟩
  | undefined after => exact .undefined after

variable [System World]

theorem Comes.message (state : Shell World) (parts : List Str) :
    Comes state (Leaf.run (do argv0Message parts; Pure.pure none) state) .failed := by
  refine .failed _ ?_ ?_
  · intro number after ended
    obtain ⟨_, between, -, finished⟩ := (Leaf.run_bind_done).mp ended
    cases finished
  · intro named
    obtain ⟨world, reported⟩ := argv0Message_run named parts
    exact ⟨{ state with world }, by rw [Leaf.run_bind, reported]; rfl⟩

theorem Comes.unread {β : Type} {state : Shell World} {parts : List Str} {prog : Leaf World (Option β)}
    {next : Option β → Leaf World (Option Int)}
    (read : Leaf.run prog state = Leaf.run (do argv0Message parts; Pure.pure none) state)
    (fails : ∀ state, Leaf.run (next none) state = .done none state) :
    Comes state (Leaf.run (prog >>= next) state) .failed := by
  have message := Comes.message state parts
  rw [Leaf.run_bind] at message
  rw [Leaf.run_bind, read, Leaf.run_bind]
  cases reported : Leaf.run (argv0Message parts) state with
  | done value after =>
      rw [reported] at message
      rw [Outcome.andThen_done, Leaf.run_pure, Outcome.andThen_done, fails]
      exact message
  | stopped reason after =>
      rw [reported] at message
      exact message

omit [System World] in
theorem Operates.comes {failing : Leaf World (Option Int)} {state : Shell World}
    {outcome : Outcome Ending (Shell World) (Option Int)} {evaluation : Evaluation}
    (operates : Operates failing state outcome evaluation) (fails : Comes state (Leaf.run failing state) .failed) :
    Comes state outcome (.ofEvaluation state.world evaluation) := by
  cases operates with
  | value number => exact .value number state.vars state.world
  | failed => exact fails
  | undefined => exact .undefined state

theorem Comes.operand {state : Shell World} {operand : ArithmExpr}
    {next : Option Int → Leaf World (Option Int)} {nextDelivery : Int → Table Variable → World → Delivery World}
    (comes : ∀ (location : Int) (world : World),
      Comes { state with world } (Leaf.run (mrshRunArithmExpr operand location) { state with world })
        (deliver (state.options .nounset) operand location state.vars world))
    (fails : ∀ state, Leaf.run (next none) state = .done none state)
    (nextComes : ∀ number vars world, Comes { state with vars, world }
      (Leaf.run (next (some number)) { state with vars, world }) (nextDelivery number vars world)) :
    Comes state
      (Leaf.run ((call System.indeterminate : Leaf World Int) >>= fun location =>
        mrshRunArithmExpr operand location >>= next) state)
      ((intoLocal (fun place => deliver (state.options .nounset) operand place state.vars) state.world).andThen
        nextDelivery) := by
  have placed := Comes.andThen (comes (System.indeterminate state.world).1 (System.indeterminate state.world).2) fails
    nextComes
  exact placed.shift

/-- The assignment of a number, with the operation of a compound assignment. -/
theorem runAssignment_comes (op : ArithmAssignOp) (name : Str) (number : Int) (state : Shell World) :
    Comes state
      (Leaf.run (do
        match ← if op == .none then Pure.pure (some (0, .none)) else runVariable name with
        | none => Pure.pure none
        | some (cur, attribs) =>
            match ← runArithmAssignOp op cur number with
            | none => Pure.pure none
            | some result => do
                mrshEnvSet .arithmetic name (decimal result) attribs
                Pure.pure (some result)) state)
      (match assignBinop op with
        | none => .ofEvaluation state.world (assigned name .none number state.vars)
        | some type =>
            match convertedVariable World (state.options .nounset) state.vars name with
            | none => .failed
            | some (current, attribs) =>
                .ofEvaluation state.world
                  ((operate type current number state.vars).andThen (assigned name attribs))) := by
  have bound : ∀ (attribs : Attribs) (result : Int), Comes state
      (Leaf.run (do mrshEnvSet .arithmetic name (decimal result) attribs; Pure.pure (some result)) state)
      (.ofEvaluation state.world (assigned name attribs result state.vars)) := by
    intro attribs result
    exact .value result (state.vars.set name ⟨decimal result, attribs⟩) state.world
  cases compound : assignBinop op with
  | none =>
      have plain : op = .none := by cases op <;> cases compound; rfl
      subst plain
      exact bound .none number
  | some type =>
      have notPlain : op ≠ .none := by intro plain; subst plain; cases compound
      have checked : (op == .none) = false := by simpa using notPlain
      have read := runVariable_converts name state
      simp only [checked, Bool.false_eq_true, if_false]
      cases found : convertedVariable World (state.options .nounset) state.vars name with
      | none =>
          rw [found] at read
          obtain ⟨parts, read⟩ := read
          exact Comes.unread read fun _ => rfl
      | some pair =>
          obtain ⟨current, attribs⟩ := pair
          rw [found] at read
          rw [Leaf.run_bind_of_done read]
          obtain ⟨text, operates⟩ := runArithmAssignOp_operates op type compound current number state
          simp only [Leaf.run_bind state (runArithmAssignOp op current number)]
          generalize Leaf.run (runArithmAssignOp op current number) state = outcome at operates
          generalize operate type current number state.vars = evaluation at operates
          cases operates with
          | value result => exact bound attribs result
          | failed => exact .failed _ (by rintro _ _ ⟨⟩) fun _ => ⟨_, rfl⟩
          | undefined => exact .undefined state

theorem mrshRunArithmExpr_comes (expr : ArithmExpr) (location : Int) (state : Shell World) :
    Comes state (Leaf.run (mrshRunArithmExpr expr location) state)
      (deliver (state.options .nounset) expr location state.vars state.world) := by
  induction expr generalizing location state with
  | literal value => exact .pure state value
  | var name =>
      have read := runVariable_converts name state
      unfold mrshRunArithmExpr deliver
      cases found : convertedVariable World (state.options .nounset) state.vars name with
      | some value =>
          rw [found] at read
          rw [Leaf.run_bind, read]
          exact .pure state value.1
      | none =>
          rw [found] at read
          obtain ⟨parts, read⟩ := read
          exact Comes.unread read fun _ => rfl
  | unop type body ih =>
      refine Comes.operand (fun place world => ih place { state with world }) (fun _ => rfl)
        fun value vars world => ?_
      have unary :
        (if type = .plus then location else unaryValue type value) = runArithmUnopType type value location := by
        cases type with
        | plus => rfl
        | minus => exact (wrapLong_neg value).symm
        | tilde => rfl
        | bang => rfl
      rw [unary]
      exact .pure { state with vars, world } _
  | binop type left right leftIh rightIh =>
      refine Comes.operand (fun place world => leftIh place { state with world }) (fun _ => rfl)
        fun leftValue vars world => ?_
      refine @Comes.operand _ _ { state with vars, world } _ _ _
        (fun place world => rightIh place { state with vars, world }) (fun _ => rfl)
        fun rightValue vars world => ?_
      obtain ⟨parts, operates⟩ := runArithmBinopType_operates type leftValue rightValue { state with vars, world }
      exact operates.comes (.message _ parts)
  | cond condition body elsePart conditionIh bodyIh elseIh =>
      refine Comes.operand (fun place world => conditionIh place { state with world }) (fun _ => rfl)
        fun value vars world => ?_
      by_cases chosen : value ≠ 0
      · have checked : (value != 0) = true := by simpa using chosen
        rw [if_pos chosen]
        simp only [checked, if_true]
        exact bodyIh location { state with vars, world }
      · have checked : (value != 0) = false := by simpa using chosen
        rw [if_neg chosen]
        simp only [checked, Bool.false_eq_true, if_false]
        exact elseIh location { state with vars, world }
  | assign op name value ih =>
      refine Comes.operand (fun place world => ih place { state with world }) (fun _ => rfl)
        fun number vars world => ?_
      exact runAssignment_comes op name number { state with vars, world }

omit [System World] in
theorem Comes.value_inv {before : Shell World} {outcome : Outcome Ending (Shell World) (Option Int)} {number : Int}
    {vars : Table Variable} {world : World} (comes : Comes before outcome (.value number vars world)) :
    outcome = .done (some number) { before with vars, world } := by
  generalize shape : Delivery.value number vars world = delivery at comes
  cases comes with
  | value _ _ _ =>
      cases shape
      rfl
  | failed | undefined => cases shape

omit [System World] in
theorem Comes.delivered {before after : Shell World} {delivery : Delivery World} {number : Int}
    (comes : Comes before (.done (some number) after) delivery) :
    delivery = .value number after.vars after.world ∧
      after = { before with vars := after.vars, world := after.world } := by
  generalize shape : Outcome.done (some number) after = outcome at comes
  cases comes with
  | value _ _ _ =>
      cases shape
      exact ⟨rfl, rfl⟩
  | failed _ unsuccessful _ => exact absurd shape.symm (unsuccessful number after)
  | undefined => cases shape

omit [System World] in
theorem Comes.done_iff {before : Shell World} {outcome : Outcome Ending (Shell World) (Option Int)}
    {delivery : Delivery World} (comes : Comes before outcome delivery) (named : HasName before) :
    (∃ result after, outcome = .done result after) ↔ delivery ≠ .undefined := by
  cases comes with
  | value number vars world => exact ⟨fun _ => nofun, fun _ => ⟨_, _, rfl⟩⟩
  | failed outcome unsuccessful reported =>
      obtain ⟨after, rfl⟩ := reported named
      exact ⟨fun _ => nofun, fun _ => ⟨_, _, rfl⟩⟩
  | undefined after =>
      constructor
      · rintro ⟨_, _, ⟨⟩⟩
      · intro wrong
        exact absurd rfl wrong

/-! ## Undefined behaviour -/

/-- The operation does not trap and C defines it, or it is a division by zero, which the shell reports. -/
def DefinedStep : ArithmStep → Prop
  | .unary _ _ => True
  | .binary type left right =>
      ((type = .slash ∨ type = .percent) → ¬(left = longMin ∧ right = -1)) ∧
        ((type = .dless ∨ type = .dgreat) → 0 ≤ right ∧ right < 64)

theorem operate_defined_iff (type : ArithmBinopType) (left right : Int) (vars : Table Variable) :
    operate type left right vars ≠ .undefined ↔ DefinedStep (.binary type left right) := by
  have division : ∀ operation : Int → Int → Int,
      quotient operation left right vars ≠ .undefined ↔ ¬(left = longMin ∧ right = -1) := by
    intro operation
    unfold quotient
    split
    next zero => simp [zero]
    next nonzero =>
      split
      next overflow => simp [overflow]
      next inRange => simp [inRange]
  have shift : ∀ operation : Int → Nat → Int,
      shifted operation left right vars ≠ .undefined ↔ 0 ≤ right ∧ right < 64 := by
    intro operation
    unfold shifted
    split
    next inRange => simp [inRange]
    next outside => simp [outside]
  cases type with
  | slash | percent => simp [operate, DefinedStep, division]
  | dless | dgreat => simp [operate, DefinedStep, shift]
  | asterisk | plus | minus | less | lesseq | great | greateq | deq | bangeq | and | circ | or | dand | dor =>
      simp [operate, DefinedStep]

theorem assigned_defined_iff {name : Str} {attribs : Attribs} {evaluation : Evaluation} :
    evaluation.andThen (assigned name attribs) ≠ .undefined ↔ evaluation ≠ .undefined := by
  cases evaluation <;> simp [Evaluation.andThen, assigned]

omit [System World] in
theorem Delivery.ofEvaluation_defined_iff {world : World} {evaluation : Evaluation} :
    Delivery.ofEvaluation world evaluation ≠ .undefined ↔ evaluation ≠ .undefined := by
  cases evaluation <;> simp [Delivery.ofEvaluation]

omit [System World] in
theorem Delivery.andThen_defined_iff {delivery : Delivery World}
    {next : Int → Table Variable → World → Delivery World} :
    delivery.andThen next ≠ .undefined ↔
      delivery ≠ .undefined ∧ delivery.Satisfies fun number vars world => next number vars world ≠ .undefined := by
  cases delivery <;> simp

omit [System World] in
theorem Delivery.satisfies_congr {delivery : Delivery World} {good other : Int → Table Variable → World → Prop}
    (same : ∀ number vars world, good number vars world ↔ other number vars world) :
    delivery.Satisfies good ↔ delivery.Satisfies other := by
  simp only [Delivery.Satisfies, same]

theorem deliver_defined_iff (nounset : Bool) (expr : ArithmExpr) (location : Int) (vars : Table Variable)
    (world : World) :
    deliver nounset expr location vars world ≠ .undefined ↔ EachStep nounset DefinedStep expr vars world := by
  induction expr generalizing location vars world with
  | literal value => simp [deliver, EachStep]
  | var name =>
      unfold deliver EachStep
      cases convertedVariable World nounset vars name <;> simp
  | unop type body ih =>
      unfold deliver EachStep
      rw [Delivery.andThen_defined_iff]
      refine and_congr (ih _ _ _) (Delivery.satisfies_congr fun value vars world => ?_)
      simp [DefinedStep]
  | binop type left right leftIh rightIh =>
      unfold deliver EachStep
      rw [Delivery.andThen_defined_iff]
      refine and_congr (leftIh _ _ _) (Delivery.satisfies_congr fun leftValue vars world => ?_)
      rw [Delivery.andThen_defined_iff]
      refine and_congr (rightIh _ _ _) (Delivery.satisfies_congr fun rightValue vars world => ?_)
      rw [Delivery.ofEvaluation_defined_iff, operate_defined_iff]
  | cond condition body elsePart conditionIh bodyIh elseIh =>
      unfold deliver EachStep
      rw [Delivery.andThen_defined_iff]
      refine and_congr (conditionIh _ _ _) (Delivery.satisfies_congr fun value vars world => ?_)
      split
      next => exact bodyIh _ _ _
      next => exact elseIh _ _ _
  | assign op name value ih =>
      unfold deliver EachStep
      rw [Delivery.andThen_defined_iff]
      refine and_congr (ih _ _ _) (Delivery.satisfies_congr fun number vars world => ?_)
      cases compound : assignBinop op with
      | none => simp [assigned, Delivery.ofEvaluation]
      | some type =>
          cases found : convertedVariable World nounset vars name with
          | none => simp
          | some pair =>
              obtain ⟨current, attribs⟩ := pair
              simp only [Delivery.ofEvaluation_defined_iff, assigned_defined_iff, operate_defined_iff]
              simp

/-- An evaluation ends, with a value or an error, where every division and every shift it comes to is defined. -/
theorem mrshRunArithmExpr_ends_iff (expr : ArithmExpr) (location : Int) {state : Shell World} (named : HasName state) :
    (∃ result after, Leaf.run (mrshRunArithmExpr expr location) state = .done result after) ↔
      EachStep (state.options .nounset) DefinedStep expr state.vars state.world := by
  rw [(mrshRunArithmExpr_comes expr location state).done_iff named, deliver_defined_iff]

end

/-- `$((1 << 3))` ends. -/
theorem mrshRunArithmExpr_ends_shift :
    ∃ result after,
      Leaf.run (mrshRunArithmExpr (.binop .dless (.literal 1) (.literal 3)) 0) namedShell = .done result after := by
  have named : HasName namedShell := ⟨0, "sh".toList, rfl⟩
  refine (mrshRunArithmExpr_ends_iff _ 0 named).mpr ?_
  simp [EachStep, intoLocal, deliver, DefinedStep]

/-- `((-9223372036854775807) - 1) / -1` -/
def overflowingQuotient : ArithmExpr :=
  .binop .slash (.binop .minus (.unop .minus (.literal longMax)) (.literal 1)) (.unop .minus (.literal 1))

theorem overflowingQuotient_undefined :
    ¬ ∃ result after, Leaf.run (mrshRunArithmExpr overflowingQuotient 0) namedShell = .done result after := by
  have stopped : Leaf.run (mrshRunArithmExpr overflowingQuotient 0) namedShell = .stopped .aborted namedShell := rfl
  rintro ⟨result, after, ended⟩
  rw [stopped] at ended
  cases ended

/-! ## The contents of the locations -/

section

variable {World : Type} [system : System World]

/-- The system with other contents of uninitialised locations. -/
@[reducible] def relocated (contents : World → Int) : System World :=
  { system with indeterminate := fun world => (contents world, (System.indeterminate world).2) }

/-- An evaluation that succeeds in the first system does so in the second one, with the same result and the same state
after it, whatever the location of the result holds before. -/
def SameResult (first second : System World) (expr : ArithmExpr) (state : Shell World) : Prop :=
  ∀ (location location' value : Int) (after : Shell World),
    Leaf.run (@mrshRunArithmExpr World first expr location) state = .done (some value) after →
      Leaf.run (@mrshRunArithmExpr World second expr location') state = .done (some value) after

/-- The operation writes its result. -/
def WritesResult : ArithmStep → Prop
  | .unary type _ => type ≠ .plus
  | .binary _ _ _ => True

/-- The evaluation ends in an unary plus, whose result is that of the expression. -/
def DeliversLocation (nounset : Bool) : ArithmExpr → Table Variable → World → Prop
  | .unop type body, vars, world =>
      type = .plus ∧ ¬ (intoLocal (fun place => deliver nounset body place vars) world).Satisfies fun _ _ _ => False
  | .cond condition body elsePart, vars, world =>
      ¬ (intoLocal (fun place => deliver nounset condition place vars) world).Satisfies fun condition vars world =>
        ¬ if condition ≠ 0 then DeliversLocation nounset body vars world else DeliversLocation nounset elsePart vars
          world
  | _, _, _ => False

omit [System World] in
theorem Delivery.andThen_congr {first other : Delivery World}
    {next otherNext : Int → Table Variable → World → Delivery World}
    (same : other = first)
    (sameNext : first.Satisfies fun number vars world => otherNext number vars world = next number vars world) :
    other.andThen otherNext = first.andThen next := by
  subst same
  cases other with
  | value number vars world => exact sameNext _ _ _ rfl
  | failed | undefined => rfl

/-- Where every operation writes its result, the contents of the locations do not matter. -/
theorem deliver_relocated (contents : World → Int) (nounset : Bool) (expr : ArithmExpr) (location location' : Int)
    (vars : Table Variable) (world : World) (writes : EachStep nounset WritesResult expr vars world) :
    @deliver World (relocated contents) nounset expr location' vars world =
      deliver nounset expr location vars world := by
  induction expr generalizing location location' vars world with
  | literal value => rfl
  | var name => rfl
  | unop type body ih =>
      obtain ⟨bodyWrites, written⟩ := writes
      refine Delivery.andThen_congr (ih _ _ _ _ bodyWrites) fun value vars world delivered => ?_
      have notPlus : type ≠ .plus := written value vars world delivered
      simp only [if_neg notPlus]
  | binop type left right leftIh rightIh =>
      obtain ⟨leftWrites, rest⟩ := writes
      refine Delivery.andThen_congr (leftIh _ _ _ _ leftWrites) fun leftValue vars world delivered => ?_
      exact Delivery.andThen_congr (rightIh _ _ _ _ (rest leftValue vars world delivered).1) fun _ _ _ _ => rfl
  | cond condition body elsePart conditionIh bodyIh elseIh =>
      obtain ⟨conditionWrites, rest⟩ := writes
      refine Delivery.andThen_congr (conditionIh _ _ _ _ conditionWrites) fun value vars world delivered => ?_
      have chosenWrites := rest value vars world delivered
      by_cases chosen : value ≠ 0
      · simp only [if_pos chosen] at chosenWrites ⊢
        exact bodyIh _ _ _ _ chosenWrites
      · simp only [if_neg chosen] at chosenWrites ⊢
        exact elseIh _ _ _ _ chosenWrites
  | assign op name value ih =>
      exact Delivery.andThen_congr (ih _ _ _ _ writes.1) fun _ _ _ _ => rfl

theorem DeliversLocation.delivered {nounset : Bool} {expr : ArithmExpr} {vars : Table Variable} {world : World}
    (delivers : DeliversLocation nounset expr vars world) :
    ∃ varsAfter worldAfter, ∀ location,
      deliver nounset expr location vars world = .value location varsAfter worldAfter := by
  induction expr generalizing vars world with
  | literal value => exact delivers.elim
  | var name => exact delivers.elim
  | binop type left right => exact delivers.elim
  | assign op name value => exact delivers.elim
  | unop type body ih =>
      obtain ⟨rfl, succeeds⟩ := delivers
      cases bodyDelivers : intoLocal (fun place => deliver nounset body place vars) world with
      | value value varsAfter worldAfter =>
          refine ⟨varsAfter, worldAfter, fun location => ?_⟩
          unfold deliver
          rw [bodyDelivers]
          rfl
      | failed | undefined => simp [bodyDelivers] at succeeds
  | cond condition body elsePart conditionIh bodyIh elseIh =>
      unfold DeliversLocation at delivers
      unfold deliver
      cases conditionDelivers : intoLocal (fun place => deliver nounset condition place vars) world with
      | value value varsAfter worldAfter =>
          simp only [conditionDelivers, Delivery.satisfies_value, not_not] at delivers
          by_cases chosen : value ≠ 0
          · simp only [Delivery.andThen_value, if_pos chosen] at delivers ⊢
            exact bodyIh delivers
          · simp only [Delivery.andThen_value, if_neg chosen] at delivers ⊢
            exact elseIh delivers
      | failed | undefined => simp [conditionDelivers] at delivers

theorem deliver_location_free {nounset : Bool} {expr : ArithmExpr} {vars : Table Variable} {world : World}
    (free : ¬ DeliversLocation nounset expr vars world) (location location' : Int) :
    deliver nounset expr location vars world = deliver nounset expr location' vars world := by
  induction expr generalizing vars world with
  | literal value => rfl
  | var name => rfl
  | binop type left right => rfl
  | assign op name value => rfl
  | unop type body ih =>
      refine Delivery.andThen_congr rfl fun value varsAfter worldAfter delivered => ?_
      have notPlus : type ≠ .plus := by
        intro plus
        apply free
        refine ⟨plus, fun unsatisfied => unsatisfied value varsAfter worldAfter delivered⟩
      simp only [if_neg notPlus]
  | cond condition body elsePart conditionIh bodyIh elseIh =>
      refine Delivery.andThen_congr rfl fun value varsAfter worldAfter delivered => ?_
      unfold DeliversLocation at free
      have branchFree := not_not.mp free value varsAfter worldAfter delivered
      by_cases chosen : value ≠ 0
      · simp only [if_pos chosen] at branchFree ⊢
        exact bodyIh branchFree
      · simp only [if_neg chosen] at branchFree ⊢
        exact elseIh branchFree

omit system in
theorem SameResult.of_delivered (first second : System World) (expr : ArithmExpr) (state : Shell World)
    (same : ∀ location location',
      @deliver World first (state.options .nounset) expr location state.vars state.world =
        @deliver World second (state.options .nounset) expr location' state.vars state.world) :
    SameResult first second expr state := by
  intro location location' value after ended
  have firstComes := @mrshRunArithmExpr_comes World first expr location state
  have secondComes := @mrshRunArithmExpr_comes World second expr location' state
  rw [ended] at firstComes
  obtain ⟨delivered, frame⟩ := firstComes.delivered
  rw [← same location location', delivered] at secondComes
  rw [secondComes.value_inv, ← frame]

/-- The result does not depend on any uninitialised location where the evaluation comes to no unary plus, and depends on
its own location exactly where it is that of an unary plus. -/
theorem mrshRunArithmExpr_determined (expr : ArithmExpr) (state : Shell World) :
    (EachStep (state.options .nounset) WritesResult expr state.vars state.world →
      ∀ contents contents', SameResult (relocated contents) (relocated contents') expr state) ∧
    (SameResult system system expr state ↔
      ¬ DeliversLocation (state.options .nounset) expr state.vars state.world) := by
  refine ⟨?_, ?_, ?_⟩
  · intro writes contents contents'
    apply SameResult.of_delivered
    intro location location'
    rw [deliver_relocated contents _ expr location' location _ _ writes,
      deliver_relocated contents' _ expr location' location' _ _ writes]
  · intro same delivers
    obtain ⟨vars, world, delivered⟩ := delivers.delivered
    have zero := mrshRunArithmExpr_comes expr 0 state
    have one := mrshRunArithmExpr_comes expr 1 state
    rw [delivered] at zero one
    have ended := same 0 1 _ _ zero.value_inv
    rw [one.value_inv] at ended
    cases ended
  · intro free
    exact .of_delivered system system expr state (deliver_location_free free)

end

/-- `$((1 + 2))` is 3 whatever the locations hold. -/
theorem mrshRunArithmExpr_determined_sum :
    SameResult (relocated fun _ => 5) (relocated fun _ => 7) (.binop .plus (.literal 1) (.literal 2)) namedShell := by
  refine (mrshRunArithmExpr_determined _ namedShell).1 ?_ _ _
  simp [EachStep, intoLocal, deliver, WritesResult]

/-- `$((+1))` is what the location of the result holds. -/
theorem unary_plus_delivers_location :
    ¬ SameResult inferInstance inferInstance (.unop .plus (.literal 1)) namedShell := by
  intro same
  have ended := same 0 1 0 namedShell rfl
  cases ended

end Mrsh

import Mrsh.Shell.Arithm

namespace Mrsh

open Mrsh.Data

/-! # The meaning of arithmetic expressions

The value of an expression and the variables after it, as C has it for numbers
of 64 bits in two's complement. `&&`, `||` and `?:` evaluate the operands that
they need. The evaluator of the shell agrees with it unless it reaches an unary
plus, a right operand of `&&` or `||` that does something although it is not
needed, or a number that `strtod` does not convert exactly.
-/

/-- What an evaluation comes to. -/
inductive Evaluation where
  | value (value : Int) (vars : Table Variable)
  | failed (vars : Table Variable)
  /-- The behaviour is undefined in C. -/
  | undefined

namespace Evaluation

def andThen (first : Evaluation) (next : Int → Table Variable → Evaluation) : Evaluation :=
  match first with
  | .value number vars => next number vars
  | .failed vars => .failed vars
  | .undefined => .undefined

end Evaluation

/-- The number that a text stands for: that of a numeral in range, and else what `strtod` says. -/
def numericValue (World : Type) [System World] (text : Str) : Option Int :=
  let scanned := strtol 10 text
  if scanned.rest.isEmpty && !scanned.outOfRange && !text.isEmpty then some scanned.value
  else strtodValue text
where
  /-- The number that the whole text is converted to. -/
  strtodValue (text : Str) : Option Int :=
    let (value, rest) := System.strtod World text
    if rest == text || !rest.isEmpty then none else some value

section

variable (World : Type) [System World] (nounset : Bool)

def variableValue (vars : Table Variable) (name : Str) : Option (Int × Attribs) :=
  match vars.get name with
  | none => if nounset then none else some (0, .none)
  | some var => (numericValue World var.value).map (·, var.attribs)

/-- What the shell reads of a variable. -/
def convertedVariable (vars : Table Variable) (name : Str) : Option (Int × Attribs) :=
  match vars.get name with
  | none => if nounset then none else some (0, .none)
  | some var => (numericValue.strtodValue World var.value).map (·, var.attribs)

/-- A division by zero is an error, and the one quotient that is no number is undefined. -/
def quotient (operation : Int → Int → Int) (left right : Int) (vars : Table Variable) : Evaluation :=
  if right = 0 then .failed vars
  else if left = longMin ∧ right = -1 then .undefined
  else .value (operation left right) vars

def shifted (operation : Int → Nat → Int) (left right : Int) (vars : Table Variable) : Evaluation :=
  if 0 ≤ right ∧ right < 64 then .value (wrapLong (operation left right.toNat)) vars else .undefined

/-- An operator that needs both operands. -/
def operate (type : ArithmBinopType) (left right : Int) (vars : Table Variable) : Evaluation :=
  match type with
  | .asterisk => .value (bitsOf left * bitsOf right).toInt vars
  | .slash => quotient Int.tdiv left right vars
  | .percent => quotient Int.tmod left right vars
  | .plus => .value (bitsOf left + bitsOf right).toInt vars
  | .minus => .value (bitsOf left - bitsOf right).toInt vars
  | .dless => shifted shiftLeft left right vars
  | .dgreat => shifted shiftRight left right vars
  | .less => .value (boolLong (left < right)) vars
  | .lesseq => .value (boolLong (left ≤ right)) vars
  | .great => .value (boolLong (right < left)) vars
  | .greateq => .value (boolLong (right ≤ left)) vars
  | .deq => .value (boolLong (left = right)) vars
  | .bangeq => .value (boolLong (left ≠ right)) vars
  | .and => .value (bitsOf left &&& bitsOf right).toInt vars
  | .circ => .value (bitsOf left ^^^ bitsOf right).toInt vars
  | .or => .value (bitsOf left ||| bitsOf right).toInt vars
  | .dand => .value (boolLong (left ≠ 0 ∧ right ≠ 0)) vars
  | .dor => .value (boolLong (left ≠ 0 ∨ right ≠ 0)) vars

def unaryValue (type : ArithmUnopType) (value : Int) : Int :=
  match type with
  | .plus => value
  | .minus => (-bitsOf value).toInt
  | .tilde => -value - 1
  | .bang => boolLong (value = 0)

/-- The operator of a compound assignment. -/
def assignBinop : ArithmAssignOp → Option ArithmBinopType
  | .none => none
  | .asterisk => some .asterisk
  | .slash => some .slash
  | .percent => some .percent
  | .plus => some .plus
  | .minus => some .minus
  | .dless => some .dless
  | .dgreat => some .dgreat
  | .and => some .and
  | .circ => some .circ
  | .or => some .or

def assigned (name : Str) (attribs : Attribs) (value : Int) (vars : Table Variable) : Evaluation :=
  .value value (vars.set name ⟨decimal value, attribs⟩)

def evaluate : ArithmExpr → Table Variable → Evaluation
  | .literal value, vars => .value value vars
  | .var name, vars =>
      match variableValue World nounset vars name with
      | some (value, _) => .value value vars
      | none => .failed vars
  | .unop type body, vars => (evaluate body vars).andThen fun value => .value (unaryValue type value)
  | .binop type left right, vars =>
      (evaluate left vars).andThen fun left vars =>
        if type = .dand ∧ left = 0 then .value 0 vars
        else if type = .dor ∧ left ≠ 0 then .value 1 vars
        else (evaluate right vars).andThen fun right => operate type left right
  | .cond condition body elsePart, vars =>
      (evaluate condition vars).andThen fun condition vars =>
        if condition ≠ 0 then evaluate body vars else evaluate elsePart vars
  | .assign op name value, vars =>
      (evaluate value vars).andThen fun value vars =>
        match assignBinop op with
        | none => assigned name .none value vars
        | some type =>
            match variableValue World nounset vars name with
            | none => .failed vars
            | some (current, attribs) => (operate type current value vars).andThen (assigned name attribs)

/-- The variable is unset, or its value is what `strtod` says. -/
def ExactVariable (vars : Table Variable) (name : Str) : Prop :=
  ∀ var, vars.get name = some var → numericValue.strtodValue World var.value = numericValue World var.value

/-- The evaluation reaches no unary plus, no right operand of `&&` or `||` that is not needed but fails or changes a
variable, and no number that `strtod` does not convert exactly. -/
def Faithful : ArithmExpr → Table Variable → Prop
  | .literal _, _ => True
  | .var name, vars => ExactVariable World vars name
  | .unop type body, vars => type ≠ .plus ∧ Faithful body vars
  | .binop type left right, vars =>
      Faithful left vars ∧
        match evaluate World nounset left vars with
        | .value leftValue vars =>
            Faithful right vars ∧
              ((type = .dand ∧ leftValue = 0) ∨ (type = .dor ∧ leftValue ≠ 0) →
                ∃ rightValue, evaluate World nounset right vars = .value rightValue vars)
        | _ => True
  | .cond condition body elsePart, vars =>
      Faithful condition vars ∧
        match evaluate World nounset condition vars with
        | .value condition vars => if condition ≠ 0 then Faithful body vars else Faithful elsePart vars
        | _ => True
  | .assign op name value, vars =>
      Faithful value vars ∧
        match evaluate World nounset value vars with
        | .value _ vars => op ≠ .none → ExactVariable World vars name
        | _ => True

end

section

variable {World : Type}

/-- The current call frame has a name, which error messages start with. -/
def HasName (state : Shell World) : Prop := ∃ number name, state.argv[0]? = some (.string number name)

/-- What the evaluation of an expression leaves alone. -/
def SameFrame (before after : Shell World) : Prop :=
  after.options = before.options ∧ after.argv = before.argv

/-- The run comes to the evaluation. -/
inductive Agrees (before : Shell World) : Outcome Ending (Shell World) (Option Int) → Evaluation → Prop where
  | value (number : Int) (after : Shell World) (same : SameFrame before after) :
      Agrees before (.done (some number) after) (.value number after.vars)
  | failed (after : Shell World) (same : SameFrame before after) :
      Agrees before (.done none after) (.failed after.vars)
  | undefined (after : Shell World) : Agrees before (.stopped .aborted after) .undefined

theorem SameFrame.hasName {before after : Shell World} (same : SameFrame before after) (named : HasName before) :
    HasName after := by
  obtain ⟨number, name, slot⟩ := named
  exact ⟨number, name, by rw [same.2]; exact slot⟩

theorem Agrees.frame {before middle : Shell World} {outcome : Outcome Ending (Shell World) (Option Int)}
    {evaluation : Evaluation} (agrees : Agrees middle outcome evaluation) (same : SameFrame before middle) :
    Agrees before outcome evaluation := by
  cases agrees with
  | value number after sameAfter => exact .value number after ⟨sameAfter.1.trans same.1, sameAfter.2.trans same.2⟩
  | failed after sameAfter => exact .failed after ⟨sameAfter.1.trans same.1, sameAfter.2.trans same.2⟩
  | undefined after => exact .undefined after

theorem Agrees.andThen {before : Shell World} {prog : Leaf World (Option Int)} {first : Evaluation}
    {next : Option Int → Leaf World (Option Int)} {nextEvaluation : Int → Table Variable → Evaluation}
    (agrees : Agrees before (Leaf.run prog before) first)
    (fails : ∀ state, Leaf.run (next none) state = .done none state)
    (nextAgrees : ∀ number after, SameFrame before after → first = .value number after.vars →
      Agrees after (Leaf.run (next (some number)) after) (nextEvaluation number after.vars)) :
    Agrees before (Leaf.run (prog >>= next) before) (first.andThen nextEvaluation) := by
  rw [Leaf.run_bind]
  generalize Leaf.run prog before = outcome at agrees
  cases agrees with
  | value number after same => exact (nextAgrees number after same rfl).frame same
  | failed after same =>
      rw [Outcome.andThen_done, fails]
      exact .failed after same
  | undefined after => exact .undefined after

theorem Agrees.pure (state : Shell World) (number : Int) :
    Agrees state (Leaf.run (Pure.pure (some number)) state) (.value number state.vars) :=
  .value number state ⟨rfl, rfl⟩

variable [System World]

theorem argv0Message_run {state : Shell World} (named : HasName state) (parts : List Str) :
    ∃ world, Leaf.run (argv0Message parts) state = .done () { state with world } := by
  obtain ⟨number, name, slot⟩ := named
  refine ⟨(System.printErr (name ++ (parts.flatMap fun part => ": ".toList ++ part) ++ ['\n']) state.world).2, ?_⟩
  simp [argv0Message, frameArg, slotAt, slot, eprintf]

theorem Agrees.message {state : Shell World} (named : HasName state) (parts : List Str) :
    Agrees state (Leaf.run (do argv0Message parts; Pure.pure none) state) (.failed state.vars) := by
  obtain ⟨world, reported⟩ := argv0Message_run named parts
  rw [Leaf.run_bind, reported]
  exact .failed { state with world } ⟨rfl, rfl⟩

/-- The run of an operation, which fails as `failing` does. -/
inductive Operates (failing : Leaf World (Option Int)) (state : Shell World) :
    Outcome Ending (Shell World) (Option Int) → Evaluation → Prop where
  | value (number : Int) : Operates failing state (.done (some number) state) (.value number state.vars)
  | failed : Operates failing state (Leaf.run failing state) (.failed state.vars)
  | undefined : Operates failing state (.stopped .aborted state) .undefined

omit [System World] in
theorem Operates.agrees {failing : Leaf World (Option Int)} {state : Shell World}
    {outcome : Outcome Ending (Shell World) (Option Int)} {evaluation : Evaluation}
    (operates : Operates failing state outcome evaluation)
    (fails : Agrees state (Leaf.run failing state) (.failed state.vars)) : Agrees state outcome evaluation := by
  cases operates with
  | value number => exact .value number state ⟨rfl, rfl⟩
  | failed => exact fails
  | undefined => exact .undefined state

omit [System World] in
theorem division_operates (failing : Leaf World (Option Int)) (operation : Int → Int → Int) (left right : Int)
    (state : Shell World) :
    Operates failing state
      (Leaf.run (if right == 0 then failing else some <$> divideLong operation left right) state)
      (quotient operation left right state.vars) := by
  by_cases zero : right = 0
  · rw [if_pos (by simpa using zero), quotient, if_pos zero]
    exact .failed
  · rw [if_neg (by simpa using zero), quotient, if_neg zero]
    by_cases overflow : left = longMin ∧ right = -1
    · obtain ⟨rfl, rfl⟩ := overflow
      rw [if_pos ⟨rfl, rfl⟩]
      exact .undefined
    · have checked : (!(left == longMin && right == -1)) = true := by grind
      rw [if_neg overflow, divideLong, checked]
      exact .value _

omit [System World] in
theorem shiftLong_operates (failing : Leaf World (Option Int)) (operation : Int → Nat → Int) (left right : Int)
    (state : Shell World) :
    Operates failing state (Leaf.run (some <$> shiftLong operation left right) state)
      (shifted operation left right state.vars) := by
  unfold shifted shiftLong
  by_cases inRange : 0 ≤ right ∧ right < 64
  · have checked : (decide (0 ≤ right) && decide (right < 64)) = true := by simpa using inRange
    rw [if_pos inRange, checked]
    exact .value _
  · have checked : (decide (0 ≤ right) && decide (right < 64)) = false := by simpa using inRange
    rw [if_neg inRange, checked]
    exact .undefined

theorem wrapLong_mul (left right : Int) : wrapLong (left * right) = (bitsOf left * bitsOf right).toInt := by
  simp [wrapLong, bitsOf]

theorem wrapLong_add (left right : Int) : wrapLong (left + right) = (bitsOf left + bitsOf right).toInt := by
  simp [wrapLong, bitsOf]

theorem wrapLong_sub (left right : Int) : wrapLong (left - right) = (bitsOf left - bitsOf right).toInt := by
  simp [wrapLong, bitsOf]

theorem wrapLong_neg (value : Int) : wrapLong (-value) = (-bitsOf value).toInt := by
  simp [wrapLong, bitsOf, ← BitVec.ofInt_neg]

theorem runArithmBinopType_operates (type : ArithmBinopType) (left right : Int) (state : Shell World) :
    ∃ parts, Operates (do argv0Message parts; Pure.pure none) state
      (Leaf.run (runArithmBinopType type left right) state) (operate type left right state.vars) := by
  cases type with
  | slash => exact ⟨_, division_operates _ _ _ _ _⟩
  | percent => exact ⟨_, division_operates _ _ _ _ _⟩
  | dless => exact ⟨[], shiftLong_operates _ _ _ _ _⟩
  | dgreat => exact ⟨[], shiftLong_operates _ _ _ _ _⟩
  | asterisk =>
      rw [operate, ← wrapLong_mul]
      exact ⟨[], .value _⟩
  | plus =>
      rw [operate, ← wrapLong_add]
      exact ⟨[], .value _⟩
  | minus =>
      rw [operate, ← wrapLong_sub]
      exact ⟨[], .value _⟩
  | bangeq =>
      have same : decide (left ≠ right) = (left != right) := by grind
      rw [operate, same]
      exact ⟨[], .value _⟩
  | dand =>
      have same : decide (left ≠ 0 ∧ right ≠ 0) = (left != 0 && right != 0) := by grind
      rw [operate, same]
      exact ⟨[], .value _⟩
  | dor =>
      have same : decide (left ≠ 0 ∨ right ≠ 0) = (left != 0 || right != 0) := by grind
      rw [operate, same]
      exact ⟨[], .value _⟩
  | less | lesseq | great | greateq | deq | and | circ | or => exact ⟨[], .value _⟩

theorem runArithmAssignOp_operates (op : ArithmAssignOp) (type : ArithmBinopType)
    (compound : assignBinop op = some type) (current value : Int) (state : Shell World) :
    ∃ text, Operates (do eprintf text; Pure.pure none) state
      (Leaf.run (runArithmAssignOp op current value) state) (operate type current value state.vars) := by
  cases op <;> cases compound
  case slash => exact ⟨_, division_operates _ _ _ _ _⟩
  case percent => exact ⟨_, division_operates _ _ _ _ _⟩
  case dless => exact ⟨[], shiftLong_operates _ _ _ _ _⟩
  case dgreat => exact ⟨[], shiftLong_operates _ _ _ _ _⟩
  case asterisk =>
      rw [operate, ← wrapLong_mul]
      exact ⟨[], .value _⟩
  case plus =>
      rw [operate, ← wrapLong_add]
      exact ⟨[], .value _⟩
  case minus =>
      rw [operate, ← wrapLong_sub]
      exact ⟨[], .value _⟩
  all_goals exact ⟨[], .value _⟩

theorem runArithmBinopType_agrees (type : ArithmBinopType) (left right : Int) {state : Shell World}
    (named : HasName state) :
    Agrees state (Leaf.run (runArithmBinopType type left right) state) (operate type left right state.vars) := by
  obtain ⟨parts, operates⟩ := runArithmBinopType_operates type left right state
  exact operates.agrees (.message named parts)

theorem runArithmAssignOp_agrees (op : ArithmAssignOp) (type : ArithmBinopType) (compound : assignBinop op = some type)
    (current value : Int) (state : Shell World) :
    Agrees state (Leaf.run (runArithmAssignOp op current value) state) (operate type current value state.vars) := by
  obtain ⟨text, operates⟩ := runArithmAssignOp_operates op type compound current value state
  exact operates.agrees (.failed { state with world := (System.printErr text state.world).2 } ⟨rfl, rfl⟩)

theorem runVariable_converts (name : Str) (state : Shell World) :
    match convertedVariable World (state.options .nounset) state.vars name with
    | some found => Leaf.run (runVariable name) state = .done (some found) state
    | none => ∃ parts, Leaf.run (runVariable name) state =
        Leaf.run (do argv0Message parts; Pure.pure none) state := by
  have step : ∀ next : Option Variable → Leaf World (Option (Int × Attribs)),
      Leaf.run (mrshEnvGet name >>= next) state = Leaf.run (next (state.vars.get name)) state := fun _ => rfl
  unfold convertedVariable runVariable
  rw [step]
  cases found : state.vars.get name with
  | none =>
      have option : ∀ next : Bool → Leaf World (Option (Int × Attribs)),
          Leaf.run (optionSet .nounset >>= next) state = Leaf.run (next (state.options .nounset)) state := fun _ => rfl
      simp only [option]
      cases state.options .nounset with
      | true => exact ⟨_, rfl⟩
      | false => rfl
  | some var =>
      simp only [numericValue.strtodValue]
      cases converted : System.strtod World var.value with
      | mk value rest =>
          by_cases bad : (rest == var.value || !rest.isEmpty) = true
          · simp only [if_pos bad, Option.map_none]
            exact ⟨_, rfl⟩
          · simp only [if_neg bad, Option.map_some]
            rfl

theorem ExactVariable.converted {vars : Table Variable} {name : Str} (exact_ : ExactVariable World vars name)
    (nounset : Bool) : convertedVariable World nounset vars name = variableValue World nounset vars name := by
  unfold convertedVariable variableValue
  cases found : vars.get name with
  | none => rfl
  | some var => simp only [exact_ var found]

theorem runVariable_run {state : Shell World} (named : HasName state) (name : Str)
    (exact_ : ExactVariable World state.vars name) :
    match variableValue World (state.options .nounset) state.vars name with
    | some found => Leaf.run (runVariable name) state = .done (some found) state
    | none => ∃ world, Leaf.run (runVariable name) state = .done none { state with world } := by
  have read := runVariable_converts name state
  rw [exact_.converted] at read
  cases found : variableValue World (state.options .nounset) state.vars name with
  | some value =>
      rw [found] at read
      exact read
  | none =>
      rw [found] at read
      obtain ⟨parts, read⟩ := read
      obtain ⟨world, reported⟩ := argv0Message_run named parts
      exact ⟨world, by rw [read, Leaf.run_bind, reported]; rfl⟩

theorem Agrees.operand {state : Shell World} {operand : ArithmExpr} {first : Evaluation}
    {next : Option Int → Leaf World (Option Int)} {nextEvaluation : Int → Table Variable → Evaluation}
    (agrees : ∀ (location : Int) (world : World),
      Agrees { state with world } (Leaf.run (mrshRunArithmExpr operand location) { state with world }) first)
    (fails : ∀ state, Leaf.run (next none) state = .done none state)
    (nextAgrees : ∀ number after, SameFrame state after → first = .value number after.vars →
      Agrees after (Leaf.run (next (some number)) after) (nextEvaluation number after.vars)) :
    Agrees state
      (Leaf.run ((call System.indeterminate : Leaf World Int) >>= fun location =>
        mrshRunArithmExpr operand location >>= next) state)
      (first.andThen nextEvaluation) := by
  have placed := Agrees.andThen (agrees (System.indeterminate state.world).1 (System.indeterminate state.world).2) fails
    nextAgrees
  exact placed.frame ⟨rfl, rfl⟩

/-- The assignment of a number, with the operation of a compound assignment. -/
theorem runAssignment_agrees (op : ArithmAssignOp) (name : Str) (number : Int) {state : Shell World}
    (named : HasName state)
    (exactValue : op ≠ .none → ExactVariable World state.vars name) :
    Agrees state
      (Leaf.run (do
        match ← if op == .none then Pure.pure (some (0, .none)) else runVariable name with
        | none => Pure.pure none
        | some (cur, attribs) =>
            match ← runArithmAssignOp op cur number with
            | none => Pure.pure none
            | some result => do
                mrshEnvSet .arithmetic name (decimal result) attribs
                Pure.pure (some result)) state)
      (match assignBinop op with
        | none => assigned name .none number state.vars
        | some type =>
            match variableValue World (state.options .nounset) state.vars name with
            | none => .failed state.vars
            | some (current, attribs) => (operate type current number state.vars).andThen (assigned name attribs)) := by
  have bound : ∀ (attribs : Attribs) (result : Int) (last : Shell World), Agrees last
      (Leaf.run (do mrshEnvSet .arithmetic name (decimal result) attribs; Pure.pure (some result)) last)
      (assigned name attribs result last.vars) := by
    intro attribs result last
    exact .value result { last with vars := last.vars.set name ⟨decimal result, attribs⟩ } ⟨rfl, rfl⟩
  cases compound : assignBinop op with
  | none =>
      have plain : op = .none := by cases op <;> cases compound; rfl
      subst plain
      exact bound .none number state
  | some type =>
      have notPlain : op ≠ .none := by intro plain; subst plain; cases compound
      have checked : (op == .none) = false := by simpa using notPlain
      have read := runVariable_run named name (exactValue notPlain)
      simp only [checked]
      cases found : variableValue World (state.options .nounset) state.vars name with
      | none =>
          rw [found] at read
          obtain ⟨world, read⟩ := read
          simp only [Bool.false_eq_true, if_false]
          rw [Leaf.run_bind, read]
          exact .failed { state with world } ⟨rfl, rfl⟩
      | some current =>
          rw [found] at read
          simp only [Bool.false_eq_true, if_false]
          rw [Leaf.run_bind, read]
          apply Agrees.andThen (runArithmAssignOp_agrees op type compound current.1 number state) (fun _ => rfl)
          intro result last _ _
          exact bound current.2 result last

/-- Where an evaluation is faithful, the shell comes to the value and the variables of C. -/
theorem mrshRunArithmExpr_agrees (expr : ArithmExpr) (result : Int) {state : Shell World} (named : HasName state)
    (faithful : Faithful World (state.options .nounset) expr state.vars) :
    Agrees state (Leaf.run (mrshRunArithmExpr expr result) state)
      (evaluate World (state.options .nounset) expr state.vars) := by
  induction expr generalizing result state with
  | literal value => exact .pure state value
  | var name =>
      have read := runVariable_run named name faithful
      unfold mrshRunArithmExpr evaluate
      cases found : variableValue World (state.options .nounset) state.vars name with
      | some value =>
          rw [found] at read
          rw [Leaf.run_bind, read]
          exact .pure state value.1
      | none =>
          rw [found] at read
          obtain ⟨world, read⟩ := read
          rw [Leaf.run_bind, read]
          exact .failed { state with world } ⟨rfl, rfl⟩
  | unop type body ih =>
      obtain ⟨notPlus, bodyFaithful⟩ := faithful
      refine Agrees.operand (fun location world => ih location (SameFrame.hasName ⟨rfl, rfl⟩ named) bodyFaithful)
        (fun _ => rfl) fun value after _ _ => ?_
      have unary : runArithmUnopType type value result = unaryValue type value := by
        cases type with
        | plus => exact absurd rfl notPlus
        | minus => exact wrapLong_neg value
        | tilde => rfl
        | bang => rfl
      rw [← unary]
      exact .pure after _
  | binop type left right leftIh rightIh =>
      obtain ⟨leftFaithful, rest⟩ := faithful
      refine Agrees.operand (fun location world => leftIh location (SameFrame.hasName ⟨rfl, rfl⟩ named) leftFaithful)
        (fun _ => rfl) fun leftValue after same first => ?_
      rw [first] at rest
      obtain ⟨rightFaithful, decided⟩ := rest
      have options : after.options = state.options := same.1
      have namedAfter : HasName after := same.hasName named
      have rightAgrees : ∀ (location : Int) (world : World), Agrees { after with world }
          (Leaf.run (mrshRunArithmExpr right location) { after with world })
          (evaluate World (state.options .nounset) right after.vars) := by
        intro location world
        rw [← options]
        exact rightIh location (SameFrame.hasName ⟨rfl, rfl⟩ namedAfter) (by rw [options]; exact rightFaithful)
      have both := @Agrees.operand World _ after right _
        (fun | none => Pure.pure none | some rightValue => runArithmBinopType type leftValue rightValue)
        (operate type leftValue) rightAgrees (fun _ => rfl) fun rightValue last sameLast _ =>
          runArithmBinopType_agrees type leftValue rightValue (sameLast.hasName namedAfter)
      -- An operand that is not needed does nothing, so that it does not matter that the shell evaluates it.
      by_cases isAnd : type = .dand ∧ leftValue = 0
      · obtain ⟨rightValue, second⟩ := decided (.inl isAnd)
        obtain ⟨rfl, rfl⟩ := isAnd
        have zero : (Evaluation.value rightValue after.vars).andThen (operate .dand 0) = .value 0 after.vars := by
          simp [Evaluation.andThen, operate, boolLong]
        rw [second, zero] at both
        rw [if_pos ⟨rfl, rfl⟩]
        exact both
      · by_cases isOr : type = .dor ∧ leftValue ≠ 0
        · obtain ⟨rightValue, second⟩ := decided (.inr isOr)
          obtain ⟨rfl, nonzero⟩ := isOr
          have one :
            (Evaluation.value rightValue after.vars).andThen (operate .dor leftValue) = .value 1 after.vars := by
            simp [Evaluation.andThen, operate, boolLong, nonzero]
          rw [second, one] at both
          rw [if_neg (by simp), if_pos ⟨rfl, nonzero⟩]
          exact both
        · rw [if_neg isAnd, if_neg isOr]
          exact both
  | cond condition body elsePart conditionIh bodyIh elseIh =>
      obtain ⟨conditionFaithful, rest⟩ := faithful
      refine Agrees.operand
        (fun location world => conditionIh location (SameFrame.hasName ⟨rfl, rfl⟩ named) conditionFaithful)
        (fun _ => rfl) fun value after same first => ?_
      rw [first] at rest
      have options : after.options = state.options := same.1
      have namedAfter : HasName after := same.hasName named
      simp only [] at rest
      by_cases chosen : value ≠ 0
      · have checked : (value != 0) = true := by simpa using chosen
        rw [if_pos chosen, ← options] at rest
        rw [if_pos chosen, ← options]
        simp only [checked, if_true]
        exact bodyIh result namedAfter rest
      · have checked : (value != 0) = false := by simpa using chosen
        rw [if_neg chosen, ← options] at rest
        rw [if_neg chosen, ← options]
        simp only [checked, Bool.false_eq_true, if_false]
        exact elseIh result namedAfter rest
  | assign op name value ih =>
      obtain ⟨valueFaithful, rest⟩ := faithful
      refine Agrees.operand (fun location world => ih location (SameFrame.hasName ⟨rfl, rfl⟩ named) valueFaithful)
        (fun _ => rfl) fun number after same first => ?_
      rw [first] at rest
      have options : after.options = state.options := same.1
      have namedAfter : HasName after := same.hasName named
      rw [← options]
      exact runAssignment_agrees op name number namedAfter rest

omit [System World] in
theorem Agrees.value_inv {before : Shell World} {outcome : Outcome Ending (Shell World) (Option Int)} {number : Int}
    {vars : Table Variable} (agrees : Agrees before outcome (.value number vars)) :
    ∃ after, outcome = .done (some number) after ∧ after.vars = vars := by
  generalize shape : Evaluation.value number vars = evaluation at agrees
  cases agrees with
  | value _ after same =>
      cases shape
      exact ⟨after, rfl, rfl⟩
  | failed after same => cases shape
  | undefined after => cases shape

end

/-- A shell that was called by its name. -/
def namedShell : Shell Machine :=
  { mrshStateCreate [] Machine.isolated with argv := stringsArgv ["sh".toList], argc := 1 }

/-- `1 + (x = 2)` -/
theorem mrshRunArithmExpr_agrees_sum : ∃ after,
    Leaf.run (mrshRunArithmExpr (.binop .plus (.literal 1) (.assign .none ['x'] (.literal 2))) 0) namedShell =
      .done (some 3) after ∧
    after.vars = namedShell.vars.set ['x'] ⟨['2'], .none⟩ := by
  have named : HasName namedShell := ⟨0, "sh".toList, rfl⟩
  have faithful : Faithful Machine (namedShell.options .nounset)
      (.binop .plus (.literal 1) (.assign .none ['x'] (.literal 2))) namedShell.vars := by
    simp [Faithful, evaluate]
  exact (mrshRunArithmExpr_agrees _ 0 named faithful).value_inv

/-- `0 && (x = 1)` sets the variable. -/
theorem and_evaluates_unneeded :
    let expr : ArithmExpr := .binop .dand (.literal 0) (.assign .none ['x'] (.literal 1))
    evaluate Machine (namedShell.options .nounset) expr namedShell.vars = .value 0 namedShell.vars ∧
    namedShell.vars.get ['x'] = none ∧
    (Leaf.run (mrshRunArithmExpr expr 0) namedShell).state.vars.get ['x'] = some ⟨['1'], .none⟩ := by
  refine ⟨rfl, rfl, ?_⟩
  decide +kernel

end Mrsh

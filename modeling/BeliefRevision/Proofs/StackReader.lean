import BeliefRevision.Proofs.RoundTrip

/-!
# Reading with two stacks

Formulas can also be read with a stack for operands and another one for the operators that wait for them.
To apply an operator is to take as many operands from the top of their stack as it needs. Nothing in the
stacks themselves ensures that there are enough of these, and a reader that misses one has to report a
fault.

* `StackReader` — the reader, with any fault that it may report of a missing operand
* `StackReader.StandsFor` — how the stacks hold what is known of a formula
* `StackReader.step_standsFor` — both readers do the same with a lexeme
* `StackReader.run_eq` — both readers end alike, so that no operand is ever missing

A negation stays on the stack until the next connective, parenthesis or end, while its operand is already
complete. So what stands for a completed operand is not one thing only, and stacks and knowledge are related
by `StandsFor` rather than by a function.
-/

namespace BeliefRevision

/-- What waits in the stack of operators. -/
inductive Operator where
  | not
  | binary (c : Connective)
  /-- An open parenthesis, which keeps apart what waits outside of it. -/
  | openParen (position : Nat)

/-- The two stacks, last in first out. -/
structure StackReader where
  /-- An operand must follow. -/
  expectsOperand : Bool
  operands : List Formula
  operators : List Operator

section

-- what is reported of a missing operand
variable (shortage : ParseError)

/-- Puts the result of an operator in the place of its operands. -/
def Operator.apply : Operator → List Formula → Except ParseError (List Formula)
  | .not, operand :: operands => .ok (.not operand :: operands)
  | .binary c, right :: left :: operands => .ok (.binary c left right :: operands)
  | .openParen position, _ => .error (.unbalancedParenthesis position)
  | _, _ => .error shortage

/-- Applies operators, the first one first. -/
def Operator.applyAll (operators : List Operator) (operands : List Formula) :
    Except ParseError (List Formula) :=
  operators.foldlM (fun operands operator => operator.apply shortage operands) operands

namespace StackReader

/-- With empty stacks. -/
def start : StackReader := ⟨true, [], []⟩

/-- Applies the operators that bind at least as tightly as `c`. -/
def reduceFor (c : Connective) :
    List Operator → List Formula → Except ParseError (List Operator × List Formula)
  | .not :: operators, operands => do
    reduceFor c operators (← Operator.not.apply shortage operands)
  | .binary d :: operators, operands =>
    if c.strength ≤ d.strength then do
      reduceFor c operators (← (Operator.binary d).apply shortage operands)
    else
      .ok (.binary d :: operators, operands)
  | operators, operands => .ok (operators, operands)

/-- Applies the operators that came after the last open parenthesis, and removes the parenthesis. -/
def reduceGroup (position : Nat) :
    List Operator → List Formula → Except ParseError (List Operator × List Formula)
  | .openParen _ :: operators, operands => .ok (operators, operands)
  | operator :: operators, operands => do
    reduceGroup position operators (← operator.apply shortage operands)
  | [], _ => .error (.unbalancedParenthesis position)

/-- Reads one lexeme. -/
def step : StackReader → Lexeme → Except ParseError StackReader
  | ⟨true, operands, operators⟩, ⟨position, token⟩ =>
    match token with
    | .constant value => .ok ⟨false, .constant value :: operands, operators⟩
    | .atom name => .ok ⟨false, .atom name :: operands, operators⟩
    | .not => .ok ⟨true, operands, .not :: operators⟩
    | .openParen => .ok ⟨true, operands, .openParen position :: operators⟩
    | .closeParen => .error (.unbalancedParenthesis position)
    | .binary _ => .error (.unexpectedToken position)
  | ⟨false, operands, operators⟩, ⟨position, token⟩ =>
    match token with
    | .binary c => do
      let (operators, operands) ← reduceFor shortage c operators operands
      pure ⟨true, operands, .binary c :: operators⟩
    | .closeParen => do
      let (operators, operands) ← reduceGroup shortage position operators operands
      pure ⟨false, operands, operators⟩
    | _ => .error (.unexpectedToken position)

/-- The formula, if it may end here. -/
def finish : StackReader → Except ParseError Formula
  | ⟨true, _, _⟩ => .error .unexpectedEnd
  | ⟨false, operands, operators⟩ => do
    match ← Operator.applyAll shortage operators operands with
    | [formula] => pure formula
    | _ => throw shortage

/-- Reads all lexemes. -/
def run : StackReader → List Lexeme → Except ParseError Formula
  | reader, [] => reader.finish shortage
  | reader, lexeme :: rest => do
    let reader ← reader.step shortage lexeme
    reader.run rest

end StackReader

end

/-! ## What stands for what is known -/

/-- The operators that wait for a right operand. -/
def Pending.operators (pending : Pending) : List Operator := pending.map (.binary ·.1)

/-- The left operands that wait with them. -/
def Pending.operands (pending : Pending) : List Formula := pending.map (·.2)

/-- The operators put aside for a group, behind its parenthesis. -/
def OpenGroup.operators (group : OpenGroup) : List Operator :=
  .openParen group.position :: (List.replicate group.negations .not ++ group.pending.operators)

namespace StackReader

/-- All operators that wait, for `negations` read after them. -/
def operatorsOf (groups : List OpenGroup) (pending : Pending) (negations : Nat) : List Operator :=
  (List.replicate negations .not ++ pending.operators) ++ groups.flatMap OpenGroup.operators

/-- All operands that wait. -/
def operandsOf (groups : List OpenGroup) (pending : Pending) : List Formula :=
  pending.operands ++ groups.flatMap (·.pending.operands)

/-- The stacks hold what is known of the formula. -/
inductive StandsFor : StackReader → Progress → Prop where
  | awaiting (groups : List OpenGroup) (pending : Pending) (negations : Nat) :
    StandsFor ⟨true, operandsOf groups pending, operatorsOf groups pending negations⟩
      (.awaiting groups pending negations)
  | ended (groups : List OpenGroup) (pending : Pending) (negations : Nat) (operand : Formula) :
    StandsFor ⟨false, operand :: operandsOf groups pending, operatorsOf groups pending negations⟩
      (.ended groups pending (.negated negations operand))

variable {shortage : ParseError} {groups : List OpenGroup} {pending : Pending} {negations : Nat}
  {operand : Formula} {operands : List Formula} {operators : List Operator}

/-! ## Applying what waits -/

theorem applyAll_cons (operator : Operator) :
    Operator.applyAll shortage (operator :: operators) operands =
      operator.apply shortage operands >>= Operator.applyAll shortage operators :=
  List.foldlM_cons

theorem applyAll_append (more : List Operator) :
    Operator.applyAll shortage (operators ++ more) operands =
      Operator.applyAll shortage operators operands >>= Operator.applyAll shortage more :=
  List.foldlM_append

theorem applyAll_negations : Operator.applyAll shortage (List.replicate negations .not)
    (operand :: operands) = .ok (.negated negations operand :: operands) := by
  induction negations generalizing operand with
  | zero => rfl
  | succ negations ih =>
    rw [List.replicate_succ, applyAll_cons, ← Formula.negated_not]
    exact ih

theorem applyAll_pending : Operator.applyAll shortage pending.operators
    (operand :: (pending.operands ++ operands)) = .ok (pending.close operand :: operands) := by
  induction pending generalizing operand with
  | nil => rfl
  | cons waiting pending ih => exact ih

/-- **What waits in a group has all its operands**, and the operand that has ended is the last of them. -/
theorem applyAll_group : Operator.applyAll shortage (List.replicate negations .not ++ pending.operators)
    (operand :: (pending.operands ++ operands)) =
      .ok (pending.close (.negated negations operand) :: operands) := by
  rw [applyAll_append, applyAll_negations]
  exact applyAll_pending

/-- Up to the next parenthesis everything is applied. -/
theorem reduceGroup_append {position : Nat} {inside : List Operator} (outside : List Operator)
    (hinside : ∀ other, .openParen other ∉ inside) :
    reduceGroup shortage position (inside ++ outside) operands =
      Operator.applyAll shortage inside operands >>= reduceGroup shortage position outside := by
  induction inside generalizing operands with
  | nil => rfl
  | cons operator inside ih =>
    have hrest : ∀ other, .openParen other ∉ inside :=
      fun other hmem => hinside other (List.mem_cons_of_mem _ hmem)
    have hreduce : reduceGroup shortage position (operator :: (inside ++ outside)) operands =
        operator.apply shortage operands >>= reduceGroup shortage position (inside ++ outside) := by
      cases operator with
      | not | binary => rfl
      | openParen other => exact absurd List.mem_cons_self (hinside other)
    rw [List.cons_append, hreduce, applyAll_cons]
    cases operator.apply shortage operands with
    | error fault => rfl
    | ok more => exact ih hrest

theorem openParen_not_mem (position : Nat) :
    .openParen position ∉ List.replicate negations .not ++ pending.operators := by
  simp [Pending.operators]

theorem reduceFor_negations (c : Connective) :
    reduceFor shortage c (List.replicate negations .not ++ operators) (operand :: operands) =
      reduceFor shortage c operators (.negated negations operand :: operands) := by
  induction negations generalizing operand with
  | zero => rfl
  | succ negations ih =>
    rw [← Formula.negated_not]
    exact ih

/-- **A connective finds on the stacks what it finds among all that waits.** -/
theorem reduceFor_pending (shortage : ParseError) (groups : List OpenGroup) (pending : Pending)
    (c : Connective) (operand : Formula) :
    ∃ operators, reduceFor shortage c (pending.operators ++ groups.flatMap OpenGroup.operators)
        (operand :: operandsOf groups pending) =
          .ok (operators, operandsOf groups (pending.push c operand)) ∧
      .binary c :: operators = operatorsOf groups (pending.push c operand) 0 := by
  induction pending generalizing operand with
  | nil =>
    -- what is left was put aside with a parenthesis
    refine ⟨groups.flatMap OpenGroup.operators, ?_, rfl⟩
    cases groups <;> rfl
  | cons waiting pending ih =>
    obtain ⟨d, left⟩ := waiting
    by_cases hle : c.strength ≤ d.strength
    · have hpush : Pending.push c ((d, left) :: pending) operand =
          Pending.push c pending (.binary d left operand) := by rw [Pending.push, if_pos hle]
      obtain ⟨operators, hreduce, hoperators⟩ := ih (.binary d left operand)
      refine ⟨operators, ?_, ?_⟩
      · rw [hpush, ← hreduce]
        show reduceFor shortage c (.binary d :: (Pending.operators pending ++ _)) _ = _
        rw [reduceFor, if_pos hle]
        rfl
      · rw [hpush, hoperators]
    · have hpush : Pending.push c ((d, left) :: pending) operand =
          (c, operand) :: (d, left) :: pending := by rw [Pending.push, if_neg hle]
      refine ⟨.binary d :: (Pending.operators pending ++ groups.flatMap OpenGroup.operators), ?_, ?_⟩
      · rw [hpush]
        show reduceFor shortage c (.binary d :: (Pending.operators pending ++ _)) _ = _
        rw [reduceFor, if_neg hle]
        rfl
      · rw [hpush]
        rfl

/-! ## Both readers -/

/-- **Both readers do the same with a lexeme**: they report the same fault, or go on with stacks that hold
what is known then. -/
theorem step_standsFor (shortage : ParseError) {reader : StackReader} {progress : Progress}
    (h : reader.StandsFor progress) (lexeme : Lexeme) :
    (∃ fault, reader.step shortage lexeme = .error fault ∧ progress.step lexeme = .error fault) ∨
      ∃ reader' progress', reader.step shortage lexeme = .ok reader' ∧
        progress.step lexeme = .ok progress' ∧ reader'.StandsFor progress' := by
  obtain ⟨position, token⟩ := lexeme
  cases h with
  | awaiting groups pending negations =>
    cases token with
    | constant value => exact .inr ⟨_, _, rfl, rfl, .ended groups pending negations (.constant value)⟩
    | atom name => exact .inr ⟨_, _, rfl, rfl, .ended groups pending negations (.atom name)⟩
    | not => exact .inr ⟨_, _, rfl, rfl, .awaiting groups pending (negations + 1)⟩
    | openParen =>
      exact .inr ⟨_, _, rfl, rfl, .awaiting (⟨position, pending, negations⟩ :: groups) [] 0⟩
    | closeParen | binary => exact .inl ⟨_, rfl, rfl⟩
  | ended groups pending negations operand =>
    cases token with
    | constant | atom | not | openParen => exact .inl ⟨_, rfl, rfl⟩
    | binary c =>
      obtain ⟨operators, hreduce, hoperators⟩ :=
        reduceFor_pending shortage groups pending c (.negated negations operand)
      refine .inr ⟨_, _, ?_, rfl, .awaiting groups (pending.push c (.negated negations operand)) 0⟩
      rw [step, operatorsOf, List.append_assoc, reduceFor_negations, hreduce, ← hoperators]
      rfl
    | closeParen =>
      have hreduce : reduceGroup shortage position (operatorsOf groups pending negations)
          (operand :: operandsOf groups pending) =
            reduceGroup shortage position (groups.flatMap OpenGroup.operators)
              (pending.close (.negated negations operand) :: groups.flatMap (·.pending.operands)) := by
        rw [operatorsOf, operandsOf, reduceGroup_append _ openParen_not_mem, applyAll_group]
        rfl
      cases groups with
      | nil =>
        refine .inl ⟨.unbalancedParenthesis position, ?_, rfl⟩
        rw [step, hreduce]
        rfl
      | cons group groups =>
        refine .inr ⟨_, _, ?_, rfl, .ended groups group.pending group.negations
          (pending.close (.negated negations operand))⟩
        rw [step, hreduce]
        rfl

theorem finish_eq {reader : StackReader} {progress : Progress} (h : reader.StandsFor progress) :
    reader.finish shortage = progress.finish := by
  cases h with
  | awaiting => rfl
  | ended groups pending negations operand =>
    rw [finish, operatorsOf, operandsOf, applyAll_append, applyAll_group]
    cases groups with
    | nil => rfl
    | cons group groups => rfl

/-- **Both readers end alike.** As they do so for any fault that could be reported of a missing operand,
none is ever reported. -/
theorem run_eq (shortage : ParseError) {reader : StackReader} {progress : Progress}
    (h : reader.StandsFor progress) (lexemes : List Lexeme) :
    reader.run shortage lexemes = progress.run lexemes := by
  induction lexemes generalizing reader progress with
  | nil => exact finish_eq h
  | cons lexeme rest ih =>
    rw [run, Progress.run]
    rcases step_standsFor shortage h lexeme with
      ⟨fault, hreader, hprogress⟩ | ⟨reader', progress', hreader, hprogress, hnext⟩
    · rw [hreader, hprogress]
      rfl
    · rw [hreader, hprogress]
      exact ih hnext

end StackReader

end BeliefRevision

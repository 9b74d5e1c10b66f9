import BeliefRevision.Formula.Fold

/-!
# Folding with two stacks

A fold need not recurse. A traversal works off a stack of steps, to enter a formula or to leave it, and
keeps the values found so far on another one. Entering a formula puts its operands in front of the step
that leaves it, and leaving it takes their values from the top of the values. Nothing but the order of the
steps puts these values there: a traversal that finds too few of them breaks down.

* `traverse` — the traversal, in any monad in which a breakdown can be reported
* `traverse_enter` — entering a formula leads to leaving it with its value on top
* `traverse_eq_foldM` — a traversal makes the visits of the fold and never breaks down by itself
* `traverse_eq_pure` — what a traversal computes, by a look at each single visit

## Termination

Each subformula is entered once and left once at most, and a step for each of the two is what
`TraversalStep.cost` counts.
-/

namespace BeliefRevision

universe v

/-- What a traversal, or a visit in one, can run into that it is not made for. -/
inductive Breakdown where
  /-- No value is there for the operand, or for the right one. -/
  | missingOperand
  /-- No value is there for the left operand. -/
  | missingLeftOperand
  /-- No value is there in the end. -/
  | missingResult
  /-- The operands given for a formula are not as many as its connective takes. -/
  | operandMismatch
  /-- A formula with operands is given none. -/
  | withoutOperands
  /-- A formula that is converted is not in negation normal form. -/
  | notNormal
deriving DecidableEq

/-- What a traversal has to do. -/
inductive TraversalStep where
  /-- To go through a formula. -/
  | enter (φ : Formula)
  /-- To visit a formula, after its operands. -/
  | leave (φ : Formula)

/-- The number of steps to which pending steps lead, themselves included. -/
def TraversalStep.cost : List TraversalStep → Nat
  | [] => 0
  | .enter φ :: pending => 2 * φ.nodes + cost pending
  | .leave _ :: pending => 1 + cost pending

/-- Takes the operands of a formula from the values, the last one found first. -/
def Formula.takeOperands {α : Type} :
    Formula → List α → Except Breakdown (Operands α × List α)
  | .not _, operand :: values => .ok (.one operand, values)
  | _, right :: left :: values => .ok (.two left right, values)
  | _, [_] => .error .missingLeftOperand
  | _, [] => .error .missingOperand

section

variable {m : Type → Type v} [Monad m] [MonadExcept Breakdown m] {α : Type}

/-- Works off the pending steps, the next one first, with the values found so far, the last one first. -/
def traverse (visit : Formula → Operands α → m α) : List TraversalStep → List α → m α
  | [], result :: _ => pure result
  | [], [] => throw Breakdown.missingResult
  | .enter (.constant value) :: pending, values => do
    let found ← visit (.constant value) .none
    traverse visit pending (found :: values)
  | .enter (.atom name) :: pending, values => do
    let found ← visit (.atom name) .none
    traverse visit pending (found :: values)
  | .enter (.not operand) :: pending, values =>
    traverse visit (.enter operand :: .leave (.not operand) :: pending) values
  | .enter (.binary c left right) :: pending, values =>
    traverse visit (.enter left :: .enter right :: .leave (.binary c left right) :: pending) values
  | .leave φ :: pending, values => do
    let (operands, rest) ← MonadExcept.ofExcept (φ.takeOperands values)
    let found ← visit φ operands
    traverse visit pending (found :: rest)
termination_by pending => TraversalStep.cost pending
decreasing_by all_goals simp only [TraversalStep.cost, Formula.nodes]; omega

/-- **To enter a formula is to fold it** and to go on with its value. -/
theorem traverse_enter [LawfulMonad m] (visit : Formula → Operands α → m α) (φ : Formula)
    (pending : List TraversalStep) (values : List α) :
    traverse visit (.enter φ :: pending) values = (do
      let found ← φ.foldM visit
      traverse visit pending (found :: values)) := by
  induction φ generalizing pending values with
  | constant | atom => rw [traverse, Formula.foldM]
  | not operand ih =>
    rw [traverse, ih, Formula.foldM, bind_assoc]
    refine congrArg _ (funext fun found => ?_)
    -- the value of the operand is on top when the negation is left
    rw [traverse]
    show (pure (Operands.one found, values) >>= _) = _
    rw [pure_bind]
  | binary c left right ihl ihr =>
    rw [traverse, ihl, Formula.foldM, bind_assoc]
    refine congrArg _ (funext fun leftFound => ?_)
    rw [ihr, bind_assoc]
    refine congrArg _ (funext fun rightFound => ?_)
    rw [traverse]
    show (pure (Operands.two leftFound rightFound, values) >>= _) = _
    rw [pure_bind]

/-- **A traversal folds.** It makes the visits of the fold, has its result, and breaks down only where a
visit does. -/
theorem traverse_eq_foldM [LawfulMonad m] (visit : Formula → Operands α → m α) (φ : Formula) :
    traverse visit [.enter φ] [] = φ.foldM visit := by
  rw [traverse_enter]
  simp [traverse]

/-! ## Traversals that compute -/

/-- What a function finds for the operands of a formula. -/
def Formula.found (f : Formula → α) : Formula → Operands α
  | .constant _ | .atom _ => .none
  | .not operand => .one (f operand)
  | .binary _ left right => .two (f left) (f right)

/-- **A traversal computes what each of its visits computes**, if the visit is given the same of the
operands. -/
theorem traverse_eq_pure [LawfulMonad m] {visit : Formula → Operands α → m α} {f : Formula → α}
    (h : ∀ φ : Formula, visit φ (φ.found f) = pure (f φ)) (φ : Formula) :
    traverse visit [.enter φ] [] = pure (f φ) := by
  rw [traverse_eq_foldM]
  induction φ with
  | constant | atom => exact h _
  | not operand ih =>
    rw [Formula.foldM, ih, pure_bind]
    exact h (.not operand)
  | binary c left right ihl ihr =>
    rw [Formula.foldM, ihl, pure_bind, ihr, pure_bind]
    exact h (.binary c left right)

end

end BeliefRevision

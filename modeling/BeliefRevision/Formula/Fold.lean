import BeliefRevision.Formula.Basic

/-!
# Folding over formulas

A fold visits every subformula occurrence once, operands before the formula they belong to and left
before right, and hands each visit the values found for the operands. The visitor runs in any monad,
so it may keep a state or fail; a failing visit ends the fold.
-/

namespace BeliefRevision

universe u v

/-- What the fold found for the operands of a formula. -/
inductive Operands (α : Type u) where
  | none
  | one (operand : α)
  | two (left right : α)

namespace Operands

/-- The operands from left to right. -/
def toList {α : Type u} : Operands α → List α
  | .none => []
  | .one operand => [operand]
  | .two left right => [left, right]

end Operands

/-- The operands given for a formula are not as many as its connective takes. -/
structure OperandMismatch where

/-- The wording of a mismatch. -/
def OperandMismatch.message (_ : OperandMismatch) : String :=
  "! Operands do not match the connective"

namespace Formula

/-- Visits the subformulas in post-order, left to right. -/
def foldM {m : Type u → Type v} [Monad m] {α : Type u} (visit : Formula → Operands α → m α) :
    Formula → m α
  | .constant value => visit (.constant value) .none
  | .atom name => visit (.atom name) .none
  | .not operand => do
    let value ← operand.foldM visit
    visit (.not operand) (.one value)
  | .binary c left right => do
    let leftValue ← left.foldM visit
    let rightValue ← right.foldM visit
    visit (.binary c left right) (.two leftValue rightValue)

/-- The formula with its operands replaced. Constants and atoms have none and ignore what is given. -/
def rebuild : Formula → Operands Formula → Except OperandMismatch Formula
  | .constant value, _ => .ok (.constant value)
  | .atom name, _ => .ok (.atom name)
  | .not _, .one operand => .ok (.not operand)
  | .binary c _ _, .two left right => .ok (.binary c left right)
  | _, _ => .error {}

/-- Rebuilding every subformula from what was rebuilt for its operands changes nothing. -/
theorem foldM_rebuild (φ : Formula) : φ.foldM rebuild = .ok φ := by
  induction φ with
  | constant | atom => rfl
  | not operand ih => rw [foldM, ih]; rfl
  | binary c left right ihl ihr => rw [foldM, ihl, ihr]; rfl

end Formula

end BeliefRevision

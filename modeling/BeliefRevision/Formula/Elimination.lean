import BeliefRevision.Formula.Basic

/-!
# Eliminating connectives

Biconditionals and implications are replaced by formulas of other connectives that have the same
value on every partial assignment.
-/

namespace BeliefRevision

namespace Connective

/-- Applies a connective, a biconditional as two implications. -/
def applyWithoutIff : Connective → Formula → Formula → Formula
  | .iff, left, right =>
    .binary .and (.binary .implies left right) (.binary .implies right left)
  | c, left, right => .binary c left right

/-- Applies a connective, an implication as a disjunction and a biconditional as two of them. -/
def applyWithoutImplies : Connective → Formula → Formula → Formula
  | .implies, left, right => .binary .or (.not left) right
  | .iff, left, right =>
    .binary .and (.binary .or (.not left) right) (.binary .or (.not right) left)
  | c, left, right => .binary c left right

end Connective

namespace Formula

/-- The formula with every `A ↔ B` written `(A → B) ∧ (B → A)`. -/
def withoutIff : Formula → Formula
  | .constant value => .constant value
  | .atom name => .atom name
  | .not operand => .not operand.withoutIff
  | .binary c left right => c.applyWithoutIff left.withoutIff right.withoutIff

/-- The formula with every `A → B` written `¬A ∨ B`, and every `A ↔ B` as two of these. -/
def withoutImplies : Formula → Formula
  | .constant value => .constant value
  | .atom name => .atom name
  | .not operand => .not operand.withoutImplies
  | .binary c left right => c.applyWithoutImplies left.withoutImplies right.withoutImplies

end Formula

end BeliefRevision

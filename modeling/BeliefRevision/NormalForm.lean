import BeliefRevision.Formula.Basic

/-!
# Negation normal form

In negation normal form a formula is built from constants and literals with `∧` and `∨` alone. A
formula and its negation are put into normal form together, by a function with a polarity: negation
only changes the polarity of what stands under it.
-/

namespace BeliefRevision

/-- A formula in negation normal form. -/
inductive NormalForm where
  | constant (value : Bool)
  | literal (name : String) (polarity : Bool)
  | and (left right : NormalForm)
  | or (left right : NormalForm)
deriving DecidableEq

namespace NormalForm

/-- The formula that a normal form writes. -/
def toFormula : NormalForm → Formula
  | .constant value => .constant value
  | .literal name true => .atom name
  | .literal name false => .not (.atom name)
  | .and left right => .binary .and left.toFormula right.toFormula
  | .or left right => .binary .or left.toFormula right.toFormula

end NormalForm

namespace Formula

/-- The normal form of a formula (polarity `true`) or of its negation (polarity `false`). -/
def normalForm : Bool → Formula → NormalForm
  | polarity, .constant value => .constant (value == polarity)
  | polarity, .atom name => .literal name polarity
  | polarity, .not operand => operand.normalForm (!polarity)
  | true, .binary .and left right => .and (left.normalForm true) (right.normalForm true)
  | false, .binary .and left right => .or (left.normalForm false) (right.normalForm false)
  | true, .binary .or left right => .or (left.normalForm true) (right.normalForm true)
  | false, .binary .or left right => .and (left.normalForm false) (right.normalForm false)
  | true, .binary .implies left right => .or (left.normalForm false) (right.normalForm true)
  | false, .binary .implies left right => .and (left.normalForm true) (right.normalForm false)
  | true, .binary .iff left right =>
    .and (.or (left.normalForm false) (right.normalForm true))
      (.or (right.normalForm false) (left.normalForm true))
  | false, .binary .iff left right =>
    .or (.and (left.normalForm true) (right.normalForm false))
      (.and (left.normalForm false) (right.normalForm true))

/-- The formula with negation on atoms alone, and neither `→` nor `↔`. -/
def negationNormal (φ : Formula) : Formula := (φ.normalForm true).toFormula

/-- A normal form is its own normal form. -/
theorem normalForm_toFormula (ψ : NormalForm) : ψ.toFormula.normalForm true = ψ := by
  induction ψ with
  | constant value => simp [NormalForm.toFormula, normalForm]
  | literal name polarity => cases polarity <;> simp [NormalForm.toFormula, normalForm]
  | and left right ihl ihr | or left right ihl ihr =>
    simp [NormalForm.toFormula, normalForm, ihl, ihr]

end Formula

end BeliefRevision

/-!
# Errors of operations

Each error names its cause; the wording is in one place. Lines are counted from 1.
-/

namespace BeliefRevision

/-- Why an operation gives no answer. -/
inductive Error where
  /-- A priority is zero or too large. -/
  | invalidPriority
  /-- The base holds too many beliefs to look through its subsets. -/
  | contractionLimit
  /-- A formula has too many clauses. -/
  | conversionLimit
  /-- Too many clauses are needed to decide satisfiability. -/
  | saturationLimit
  /-- A line of a belief file is no belief. -/
  | malformedLine (line : Nat)
  /-- A line of a belief file has a priority that cannot be given. -/
  | malformedPriority (line : Nat)
deriving DecidableEq

/-- The wording of an error. -/
def Error.message : Error → String
  | .invalidPriority => "Belief base: InvalidPriority"
  | .contractionLimit => "Belief base: ContractionLimit"
  | .conversionLimit => "CNF conversion: ClauseLimit"
  | .saturationLimit => "Resolution: ClauseLimit"
  | .malformedLine line => s!"Parse: malformed formula on line {line}"
  | .malformedPriority line => s!"Parse: invalid priority on line {line}"

end BeliefRevision

import BeliefRevision.Clause.Set
import BeliefRevision.Formula.Display
import BeliefRevision.Settings
import BeliefRevision.Vocabulary

/-!
# Belief bases

A belief base is a sequence of beliefs in the order in which they came, no two of the same formula.
The clauses of a belief are computed once, when it comes, with the vocabulary of that moment; since a
vocabulary only grows, they stay right.
-/

namespace BeliefRevision

/-- A belief: a formula with a priority, and the clauses of the formula. -/
structure Entry where
  formula : Formula
  /-- How firmly the formula is held; of remainders of one size the one with the greatest sum is kept. -/
  priority : Nat
  clauses : ClauseSet

/-- The line of a belief in a belief file. -/
def Entry.display (entry : Entry) : String := s!"{entry.priority} {entry.formula.display}"

/-- How much work has been done for a base. -/
structure Tally where
  /-- Checks whether some beliefs entail a formula, each subset looked at counted. -/
  checks : Nat := 0
  /-- Passes over pairs of clauses in saturations. -/
  passes : Nat := 0
  /-- Clauses derived in saturations. -/
  resolvents : Nat := 0
  /-- Subsets of the base looked at. -/
  subsets : Nat := 0
deriving DecidableEq

/-- A belief base. -/
structure Base where
  settings : Settings := {}
  tally : Tally := {}
  vocabulary : Vocabulary := .empty
  /-- The beliefs in order of arrival. -/
  entries : List Entry := []

namespace Base

/-- The formulas of the beliefs, in order of arrival. -/
def formulas (base : Base) : List Formula := base.entries.map Entry.formula

/-- Whether the formula itself is believed, not merely an equivalent one. -/
def contains (base : Base) (φ : Formula) : Bool := base.entries.any (·.formula == φ)

theorem contains_iff {base : Base} {φ : Formula} : base.contains φ = true ↔ φ ∈ base.formulas := by
  simp [contains, formulas]

/-- The belief file of the base: one line for each belief. -/
def display (base : Base) : String := String.join (base.entries.map fun entry => entry.display ++ "\n")

end Base

end BeliefRevision

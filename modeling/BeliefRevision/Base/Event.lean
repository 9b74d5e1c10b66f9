import BeliefRevision.Formula.Basic

/-!
# Events

What an observer of a base is told: changes of its beliefs, answers to questions, and how much work
an operation took.
-/

namespace BeliefRevision

/-- One thing that happened. -/
inductive Event where
  /-- The formula was added with the priority. -/
  | added (formula : Formula) (priority : Nat)
  /-- The formula was to be added and was there already. -/
  | duplicate (formula : Formula)
  /-- The formula was taken out. -/
  | removed (formula : Formula)
  /-- The base was contracted by the target, and the formulas of the remainder were kept. -/
  | contracted (target : Formula) (remainder : List Formula)
  /-- There was nothing to contract: the formula does not follow from the base, or from anything. -/
  | contractionRejected (formula : Formula)
  /-- The base was revised by the formula. -/
  | revised (formula : Formula)
  /-- Whether the base entails the formula. -/
  | entailment (formula : Formula) (entailed : Bool)
  /-- The number of beliefs in a belief file. -/
  | beliefsRead (count : Nat)
  /-- How many beliefs of a file were added, and how many were there already. -/
  | beliefsAdded (added duplicates : Nat)
  /-- The number of passes over pairs of clauses in an operation. -/
  | passes (count : Nat)
  /-- The number of clauses derived in an operation. -/
  | resolvents (count : Nat)
  /-- The number of subsets looked at in a contraction. -/
  | subsets (count : Nat)
  /-- A contraction was timed. -/
  | timed
deriving DecidableEq

/-- The wording of the reports on a belief file. -/
def Event.text : Event → Option String
  | .beliefsRead count => some s!"Parse result: {count} beliefs"
  | .beliefsAdded n d => some s!"Added {n} beliefs, with {d} duplicates"
  | _ => none

end BeliefRevision

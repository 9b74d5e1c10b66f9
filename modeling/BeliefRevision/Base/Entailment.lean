import BeliefRevision.Base.Operation
import BeliefRevision.Saturation

/-!
# Entailment

A formula follows from beliefs if their clauses and the clauses of its negation cannot all be true.
-/

namespace BeliefRevision.Operation

/-- Whether the beliefs given entail the goal, of whose negation the clauses are `negatedGoal`. -/
def entailedBy (entries : List Entry) (negatedGoal : ClauseSet) : Operation Bool := do
  modifyTally fun tally => { tally with checks := tally.checks + 1 }
  let settings := (← base).settings
  let clauses := negatedGoal ∪ ClauseSet.unions (entries.map Entry.clauses)
  let saturation := Saturation.start settings.clauseLimit.value settings.tautologyElimination.value
    clauses.toList
  match saturation.saturate with
  | (.ok verdict, saturation) =>
    modifyTally fun tally =>
      { tally with
        passes := tally.passes + saturation.passes
        resolvents := tally.resolvents + saturation.resolvents }
    pure (verdict == .unsatisfiable)
  | (.error error, _) => throw error

/-- Whether the base entails the formula. -/
def entails (φ : Formula) : Operation Bool := do
  let before := (← base).tally
  let negated ← clausesOf (.not φ)
  let entailed ← entailedBy (← base).entries negated
  emitWork before
  emit (.entailment φ entailed)
  pure entailed

/-- Whether the beliefs can all be true. The negation of `⊥`, which they must not entail, has no
clauses. -/
def isConsistent : Operation Bool := do
  let before := (← base).tally
  let inconsistent ← entailedBy (← base).entries ∅
  emitWork before
  pure (!inconsistent)

end BeliefRevision.Operation

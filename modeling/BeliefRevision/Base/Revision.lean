import BeliefRevision.Base.Contraction
import BeliefRevision.Base.Expansion

/-!
# Revision

A base is revised by a formula in two steps: it is contracted by the negation of the formula, and
what is left is expanded by the formula.
-/

namespace BeliefRevision

/-- The outcome of a revision. -/
structure Revision where
  contraction : Contraction
  expansion : Expansion
deriving DecidableEq

namespace Operation

/-- Makes room for a formula and adds it with a priority. -/
def revise (φ : Formula) (priority : Nat) : Operation Revision := do
  if Parameter.defaultPriority.Admits priority then
    let contraction ← contract (.not φ)
    let expansion ← expandWith φ priority
    emit (.revised φ)
    pure { contraction, expansion }
  else
    throw .invalidPriority

end Operation

end BeliefRevision

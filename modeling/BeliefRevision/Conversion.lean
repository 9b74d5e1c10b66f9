import BeliefRevision.Clause.Set
import BeliefRevision.Error
import BeliefRevision.Formula.Elimination
import BeliefRevision.NormalForm
import BeliefRevision.Vocabulary

/-!
# Conversion to clauses

A normal form is turned into clauses by distributing `∨` over `∧`. Names are interned while the
formula is walked through from left to right, so a conversion that is given up keeps the names met
until then. No conjunction and no disjunction may have more clauses than a limit.
-/

namespace BeliefRevision

/-- A computation that interns names and may give up. -/
abbrev Conversion := ExceptT Error (StateM Vocabulary)

namespace Conversion

/-- The atom of a name. -/
def intern (name : String) : Conversion Nat := fun v => ((.ok (v.intern name).1), (v.intern name).2)

/-- The clauses, unless there were too many. -/
def orLimit : Option ClauseSet → Conversion ClauseSet
  | some clauses => pure clauses
  | none => throw .conversionLimit

end Conversion

/-- The clauses of a normal form. -/
def NormalForm.clauses (limit : Nat) : NormalForm → Conversion ClauseSet
  | .constant true => pure ∅
  | .constant false => pure {[]}
  | .literal name polarity => do
    let atom ← Conversion.intern name
    pure {[⟨atom, polarity⟩]}
  | .and left right => do
    let leftClauses ← left.clauses limit
    let rightClauses ← right.clauses limit
    Conversion.orLimit (ClauseSet.within limit (leftClauses ∪ rightClauses))
  | .or left right => do
    let leftClauses ← left.clauses limit
    let rightClauses ← right.clauses limit
    Conversion.orLimit (ClauseSet.productWithin limit leftClauses rightClauses)

namespace Formula

/-- The clauses of a formula, by way of its normal form. -/
def distribute (limit : Nat) (φ : Formula) : Conversion ClauseSet :=
  (φ.normalForm true).clauses limit

/-- The clauses of a formula: biconditionals are eliminated first, then implications, and what is left
is distributed. -/
def clauses (limit : Nat) (φ : Formula) : Conversion ClauseSet :=
  φ.withoutIff.withoutImplies.distribute limit

end Formula

end BeliefRevision

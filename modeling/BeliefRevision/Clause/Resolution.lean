import BeliefRevision.Clause.Basic

/-!
# Resolution

Two clauses, one with a literal and the other with its negation, together imply the clause of all
their other literals.

## Termination

`Clause.pivots` drops the head of one of its two lists, or of both, so their total length decreases.
-/

namespace BeliefRevision.Clause

/-- The literals of the first clause whose negation stands in the second, in one walk along both. -/
def pivots : Clause → Clause → List Literal
  | [], _ => []
  | _, [] => []
  | a :: left, b :: right =>
    match compare a.atom b.atom with
    | .lt => pivots left (b :: right)
    | .gt => pivots (a :: left) right
    | .eq => if a.polarity = b.polarity then pivots left right else a :: pivots left right
termination_by left right => left.length + right.length

/-- The literals of the first clause without the pivot and of the second without its negation. -/
def resolve (left right : Clause) (pivot : Literal) : Clause :=
  merge (left.filter (· ≠ pivot)) (right.filter (· ≠ pivot.negate))

/-- A literal stays unless it is the pivot's in its clause. -/
theorem mem_resolve {l pivot : Literal} {left right : Clause} :
    l ∈ resolve left right pivot ↔ l ∈ left ∧ l ≠ pivot ∨ l ∈ right ∧ l ≠ pivot.negate := by
  simp [resolve, mem_merge]

/-- The resolvents on every pivot of the first clause, in the order of the pivots. -/
def resolvents (left right : Clause) : List Clause :=
  (left.pivots right).map (left.resolve right)

end BeliefRevision.Clause

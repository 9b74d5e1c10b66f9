import BeliefRevision.Base.Entailment
import BeliefRevision.Enumeration

/-!
# Contraction

Contracting a base by a formula keeps a largest part of the base that does not entail the formula. Of
several such parts the one with the greatest sum of priorities is kept, and of these the first in
lexicographic order of positions.

## How it works

Sizes are tried from large to small. All selections of one size are looked at, and the first size at
which one does not entail the formula ends the search.
-/

namespace BeliefRevision

/-- The beliefs at the given positions. -/
def entriesAt (entries : List Entry) (positions : List Nat) : List Entry :=
  positions.filterMap (entries[·]?)

/-- The sum of the priorities of some beliefs. -/
def prioritySum (entries : List Entry) : Nat :=
  entries.foldl (fun sum entry => sum + entry.priority) 0

/-- The outcome of a contraction. -/
inductive Contraction where
  /-- These formulas were given up, in order of arrival. -/
  | contracted (removed : List Formula)
  /-- The base does not entail the formula. -/
  | notEntailed
  /-- No base fails to entail the formula. -/
  | tautology
deriving DecidableEq

/-! ## Searching for a best selection -/

/-- What a search has found so far. -/
structure Search where
  /-- The best selection found, and its sum of priorities. -/
  best : Option (List Nat × Nat) := none
  /-- The number of selections looked at. -/
  examined : Nat := 0

namespace Search

/-- Takes a selection that does not entail the formula into account; of equals the first stays. -/
def offer (search : Search) (positions : List Nat) (sum : Nat) : Search :=
  match search.best with
  | some (_, bestSum) =>
    if bestSum < sum then { search with best := some (positions, sum) } else search
  | none => { search with best := some (positions, sum) }

end Search

namespace Operation

/-- Looks at every selection of an enumeration. -/
def searchAmong (entries : List Entry) (negatedGoal : ClauseSet) :
    Enumeration (List Nat) → Search → Operation Search
  | .done, search => pure search
  | .item positions rest, search => do
    let kept := entriesAt entries positions
    let search := { search with examined := search.examined + 1 }
    let entailed ← entailedBy kept negatedGoal
    searchAmong entries negatedGoal (rest ())
      (if entailed then search else search.offer positions (prioritySum kept))

/-- Looks at the selections of less than `size` positions, the largest ones first, until a size has
a selection that does not entail the goal. -/
def searchBelow (entries : List Entry) (negatedGoal : ClauseSet) : Nat → Search → Operation Search
  | 0, search => pure search
  | size + 1, search => do
    let search ← searchAmong entries negatedGoal (selections entries.length size) search
    if search.best.isSome then pure search else searchBelow entries negatedGoal size search

/-! ## Contracting -/

/-- Ends a contraction that leaves the base as it is. -/
def rejectContraction (target : Formula) (before : Tally) (outcome : Contraction) :
    Operation Contraction := do
  emit (.contractionRejected target)
  emitWork before
  pure outcome

/-- Gives up beliefs until the base does not entail the target, if that can be. -/
def contract (target : Formula) : Operation Contraction := do
  let before := (← base).tally
  let negated ← clausesOf (.not target)
  let entries := (← base).entries
  if ← entailedBy entries negated then
    if ← entailedBy [] negated then
      rejectContraction target before .tautology
    else if (← base).settings.contractionLimit.value < entries.length then
      throw .contractionLimit
    else
      let search ← searchBelow entries negated entries.length {}
      modifyTally fun tally => { tally with subsets := tally.subsets + search.examined }
      let kept := (search.best.map Prod.fst).getD []
      let givenUp := (List.range entries.length).filter (!kept.contains ·)
      let remainder := entriesAt entries kept
      modifyBase fun base => { base with entries := remainder }
      emit (.contracted target (remainder.map Entry.formula))
      emit (.subsets search.examined)
      emitWork before
      emit .timed
      pure (.contracted ((entriesAt entries givenUp).map Entry.formula))
  else
    rejectContraction target before .notEntailed

end Operation

end BeliefRevision

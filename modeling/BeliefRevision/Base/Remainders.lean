import BeliefRevision.Base.Contraction

/-!
# Remainders

The remainders of a base are its largest parts, by inclusion, that do not entail a formula.

## How it works

Selections are visited from large to small. A selection inside a remainder already found is passed
over; any other one that does not entail the formula is a remainder, since all larger ones around it
were seen to entail it.
-/

namespace BeliefRevision

/-- The selections of at most `size` positions below `count`, the largest ones first and those of one
size in lexicographic order. -/
def selectionsDown (count : Nat) : Nat → Enumeration (List Nat)
  | 0 => selections count 0
  | size + 1 => (selections count (size + 1)).append fun _ => selectionsDown count size

namespace Operation

/-- Adds the remainders of an enumeration to those already found. -/
def remaindersAmong (entries : List Entry) (negatedGoal : ClauseSet) :
    Enumeration (List Nat) → List (List Nat) → Operation (List (List Nat))
  | .done, found => pure found
  | .item positions rest, found =>
    if found.any positions.isSublist then remaindersAmong entries negatedGoal (rest ()) found
    else do
      modifyTally fun tally => { tally with subsets := tally.subsets + 1 }
      let entailed ← entailedBy (entriesAt entries positions) negatedGoal
      remaindersAmong entries negatedGoal (rest ())
        (if entailed then found else found ++ [positions])

/-- The remainders of the base, from large to small. -/
def remainders (φ : Formula) : Operation (List (List Entry)) := do
  let before := (← base).tally
  let negated ← clausesOf (.not φ)
  let entries := (← base).entries
  if (← base).settings.contractionLimit.value < entries.length then
    throw .contractionLimit
  else
    let found ← remaindersAmong entries negated (selectionsDown entries.length entries.length) []
    emitWork before
    pure (found.map (entriesAt entries))

end Operation

end BeliefRevision

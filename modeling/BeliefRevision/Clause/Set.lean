import BeliefRevision.Clause.Basic
import Std.Data.ExtTreeSet

/-!
# Sets of clauses

A set of clauses stands for their conjunction. Its members are listed in lexicographic order, a
clause before those it is the beginning of, and two sets with the same members are equal.
-/

namespace BeliefRevision

/-- A finite set of clauses. -/
abbrev ClauseSet := Std.ExtTreeSet Clause

namespace ClauseSet

/-- The set, if it has at most `limit` clauses. -/
def within (limit : Nat) (clauses : ClauseSet) : Option ClauseSet :=
  if clauses.size ≤ limit then some clauses else none

/-- Adds the union of two clauses, unless it is a tautology. -/
def insertMerge (a b : Clause) (clauses : ClauseSet) : ClauseSet :=
  let merged := a.merge b
  if merged.isTautology then clauses else clauses.insert merged

/-- The unions of a clause of the first set with one of the second that are no tautologies. -/
def product (left right : ClauseSet) : ClauseSet :=
  left.toList.foldl (fun found a => right.toList.foldl (fun found b => insertMerge a b found) found) ∅

/-- The product, if it has at most `limit` clauses; given up as soon as it has more. -/
def productWithin (limit : Nat) (left right : ClauseSet) : Option ClauseSet :=
  let rights := right.toList
  left.toList.foldlM
    (fun found a => rights.foldlM (fun found b => within limit (insertMerge a b found)) found) ∅

/-- The clauses of either set. -/
def unions (sets : List ClauseSet) : ClauseSet := sets.foldl (· ∪ ·) ∅

end ClauseSet

end BeliefRevision

import Std.Data.ExtTreeSet

/-!
# Literals

A literal is an atom, given by its number, or the negation of one. Literals are ordered by atom, and
of one atom the negation comes first.
-/

namespace BeliefRevision

/-- An atom (polarity `true`) or its negation (polarity `false`). -/
structure Literal where
  atom : Nat
  polarity : Bool
deriving DecidableEq

namespace Literal

/-- Compares by atom, then by polarity. -/
instance : Ord Literal where
  compare a b := (compare a.atom b.atom).then (compare a.polarity b.polarity)

theorem compare_eq (a b : Literal) :
    compare a b = (compare a.atom b.atom).then (compare a.polarity b.polarity) := rfl

instance : Std.TransOrd Literal :=
  inferInstanceAs (Std.TransCmp (compareLex (compareOn Literal.atom) (compareOn Literal.polarity)))

instance : Std.LawfulEqOrd Literal where
  eq_of_compare {a b} h := by
    rw [compare_eq, Ordering.then_eq_eq, Std.compare_eq_iff_eq, Std.compare_eq_iff_eq] at h
    cases a; cases b; simp_all

/-- The literal of the same atom with the other polarity. -/
def negate (literal : Literal) : Literal := { literal with polarity := !literal.polarity }

@[simp] theorem negate_negate (literal : Literal) : literal.negate.negate = literal := by
  simp [negate]

theorem negate_ne (literal : Literal) : literal.negate ≠ literal := by
  cases literal; simp [negate]

/-- The number of the atom, with a minus sign for a negation. -/
def text (literal : Literal) : String :=
  if literal.polarity then s!"{literal.atom}" else s!"-{literal.atom}"

end Literal

end BeliefRevision

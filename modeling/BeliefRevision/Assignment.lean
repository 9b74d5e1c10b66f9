/-!
# Partial assignments

An assignment gives truth values to some keys and leaves the others without one. Formulas are
evaluated on assignments of names, clauses on assignments of atom numbers.
-/

namespace BeliefRevision

/-- A truth value for some of the keys. -/
abbrev Assignment (κ : Type) := κ → Option Bool

namespace Assignment

/-- The assignment that gives every key the same value. -/
def constant {κ : Type} (value : Bool) : Assignment κ := fun _ => some value

/-- The assignment of numbered keys listed in order; keys beyond the list have no value. -/
def ofList (values : List (Option Bool)) : Assignment Nat := fun key => values[key]?.join

theorem ofList_of_length_le {values : List (Option Bool)} {key : Nat} (h : values.length ≤ key) :
    ofList values key = none := by
  simp [ofList, List.getElem?_eq_none h]

end Assignment

end BeliefRevision

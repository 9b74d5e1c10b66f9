import BeliefRevision.Assignment
import BeliefRevision.Literal

/-!
# Clauses

A clause is a disjunction of literals, written as a list. A canonical clause is strictly ascending:
its literals are sorted and distinct. The functions here look at the list as it stands and are meant
for canonical clauses.

## Termination

`Clause.merge` takes the head of one of its two lists, or of both, so their total length decreases.
-/

namespace BeliefRevision

/-- A disjunction of literals. -/
abbrev Clause := List Literal

namespace Clause

/-! ## Canonical clauses -/

/-- The literals are sorted and distinct. -/
def Canonical (clause : Clause) : Prop := clause.Pairwise fun a b => compare a b = .lt

/-- Puts a literal at its place, unless it is there already. -/
def insert (literal : Literal) : Clause → Clause
  | [] => [literal]
  | first :: rest =>
    match compare literal first with
    | .lt => literal :: first :: rest
    | .eq => first :: rest
    | .gt => first :: insert literal rest

/-- The canonical clause of some literals. -/
def ofLiterals (literals : List Literal) : Clause := literals.foldr insert []

theorem mem_insert {literal l : Literal} {clause : Clause} :
    l ∈ insert literal clause ↔ l = literal ∨ l ∈ clause := by
  induction clause with
  | nil => simp [insert]
  | cons first rest ih =>
    rw [insert]
    split
    · simp
    · next h => rw [Std.compare_eq_iff_eq] at h; simp [h]
    · simp only [List.mem_cons, ih]; grind

theorem mem_ofLiterals {l : Literal} {literals : List Literal} :
    l ∈ ofLiterals literals ↔ l ∈ literals := by
  induction literals with
  | nil => simp [ofLiterals]
  | cons first rest ih => simp only [ofLiterals, List.foldr_cons, mem_insert, List.mem_cons] at *; grind

/-! ## Union -/

/-- The union of two clauses, taking the smaller head first and equal heads once. -/
def merge : Clause → Clause → Clause
  | [], right => right
  | left, [] => left
  | a :: left, b :: right =>
    match compare a b with
    | .lt => a :: merge left (b :: right)
    | .eq => a :: merge left right
    | .gt => b :: merge (a :: left) right
termination_by left right => left.length + right.length

theorem mem_merge {l : Literal} {left right : Clause} :
    l ∈ merge left right ↔ l ∈ left ∨ l ∈ right := by
  fun_induction merge left right with
  | case1 => simp
  | case2 => simp
  | case3 a left b right h ih => simp only [List.mem_cons, ih]; grind
  | case4 a left b right h ih =>
    rw [Std.compare_eq_iff_eq] at h
    simp only [List.mem_cons, ih]; grind
  | case5 a left b right h ih => simp only [List.mem_cons, ih]; grind

/-! ## Values and texts -/

/-- Whether two neighbours have the same atom; in a canonical clause these are an atom and its negation. -/
def isTautology : Clause → Bool
  | a :: b :: rest => a.atom == b.atom || isTautology (b :: rest)
  | _ => false

/-- The value of a clause: true with a true literal, otherwise none while an atom has no value. -/
def value (assignment : Assignment Nat) : Clause → Option Bool
  | [] => some false
  | literal :: rest =>
    match assignment literal.atom with
    | some value => if value = literal.polarity then some true else Clause.value assignment rest
    | none => if Clause.value assignment rest = some true then some true else none

/-- The literals of a clause, separated by spaces. -/
def text (clause : Clause) : String := " ".intercalate (clause.map Literal.text)

end Clause

end BeliefRevision

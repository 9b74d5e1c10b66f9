import BeliefRevision.Assignment
import Std.Data.ExtTreeSet

/-!
# Propositional formulas

A formula is a tree of constants, named atoms, negations and binary connectives. Two formulas are
the same exactly when they are the same tree: `p ∧ q` and `q ∧ p` are different formulas that agree
in value.

## Values

A formula is evaluated on an assignment that may leave atoms without a value. Operands are read from
left to right, and a left operand without a value ends the reading: `p ∨ q` has no value when `p` has
none, whatever `q` is, while `q` needs no value when `p` is true.
-/

namespace BeliefRevision

/-- The binary connectives. -/
inductive Connective where
  | and
  | or
  | implies
  | iff
deriving DecidableEq

/-- A formula of propositional logic. -/
inductive Formula where
  /-- `⊤` is the constant `true` and `⊥` the constant `false`. -/
  | constant (value : Bool)
  | atom (name : String)
  | not (operand : Formula)
  | binary (connective : Connective) (left right : Formula)
deriving DecidableEq

/-! ## Values -/

namespace Connective

/-- The value of a connective from the values of its operands, the left one first. -/
def value : Connective → Option Bool → Option Bool → Option Bool
  | _, none, _ => none
  | .and, some false, _ => some false
  | .and, some true, right => right
  | .or, some true, _ => some true
  | .or, some false, right => right
  | .implies, some false, _ => some true
  | .implies, some true, right => right
  | .iff, some left, right => right.map (left == ·)

/-- Without a left value there is no value. -/
@[simp] theorem value_none (c : Connective) (right : Option Bool) : c.value none right = none := by
  cases c <;> rfl

end Connective

namespace Formula

/-- The value of a formula on a partial assignment of its atoms. -/
def value (assignment : Assignment String) : Formula → Option Bool
  | .constant value => some value
  | .atom name => assignment name
  | .not operand => (operand.value assignment).map (!·)
  | .binary c left right => c.value (left.value assignment) (right.value assignment)

/-! ## Shape -/

/-- Whether the formula is a binary connective applied to two operands. -/
def isBinary : Formula → Bool
  | .binary .. => true
  | _ => false

/-- The number of subformula occurrences. -/
def nodes : Formula → Nat
  | .constant _ | .atom _ => 1
  | .not operand => operand.nodes + 1
  | .binary _ left right => left.nodes + right.nodes + 1

/-- The number of formulas on the longest branch. -/
def depth : Formula → Nat
  | .constant _ | .atom _ => 1
  | .not operand => operand.depth + 1
  | .binary _ left right => max left.depth right.depth + 1

theorem depth_le_nodes (φ : Formula) : φ.depth ≤ φ.nodes := by
  induction φ with
  | constant | atom => simp [depth, nodes]
  | not operand ih => simpa [depth, nodes] using ih
  | binary c left right ihl ihr => simp only [depth, nodes]; omega

/-! ## Names -/

/-- The names of the atoms in reading order, with repetitions. -/
def names : Formula → List String
  | .constant _ => []
  | .atom name => [name]
  | .not operand => operand.names
  | .binary _ left right => left.names ++ right.names

/-- The names of the atoms, sorted and without repetitions. -/
def atoms (φ : Formula) : List String := (Std.ExtTreeSet.ofList φ.names).toList

theorem mem_atoms {φ : Formula} {name : String} : name ∈ φ.atoms ↔ name ∈ φ.names := by
  simp [atoms, Std.ExtTreeSet.mem_toList, Std.ExtTreeSet.mem_ofList]

end Formula

end BeliefRevision

import BeliefRevision.Formula.Basic

/-!
# Formulas in post-order

The symbols of a formula with operands before their connective. No parentheses are needed: a stack
of finished operands gives the tree back.
-/

namespace BeliefRevision

/-- What stands at the root of a formula. -/
inductive Symbol where
  | constant (value : Bool)
  | atom (name : String)
  | not
  | binary (connective : Connective)
deriving DecidableEq

namespace Formula

/-- The symbols of the formula, operands first, followed by `rest`. -/
def symbolsBefore : Formula → List Symbol → List Symbol
  | .constant value, rest => .constant value :: rest
  | .atom name, rest => .atom name :: rest
  | .not operand, rest => operand.symbolsBefore (.not :: rest)
  | .binary c left right, rest => left.symbolsBefore (right.symbolsBefore (.binary c :: rest))

/-- The symbols of the formula in post-order. -/
def postOrder (φ : Formula) : List Symbol := φ.symbolsBefore []

/-- Reads symbols onto a stack of finished formulas, the last one on top. -/
def readSymbols? : List Formula → List Symbol → Option (List Formula)
  | stack, [] => some stack
  | stack, .constant value :: rest => readSymbols? (.constant value :: stack) rest
  | stack, .atom name :: rest => readSymbols? (.atom name :: stack) rest
  | operand :: stack, .not :: rest => readSymbols? (.not operand :: stack) rest
  | right :: left :: stack, .binary c :: rest => readSymbols? (.binary c left right :: stack) rest
  | _, _ => none

/-- The formula whose symbols in post-order are the given ones. -/
def ofPostOrder? (symbols : List Symbol) : Option Formula :=
  match readSymbols? [] symbols with
  | some [φ] => some φ
  | _ => none

theorem readSymbols?_symbolsBefore (φ : Formula) (stack : List Formula) (rest : List Symbol) :
    readSymbols? stack (φ.symbolsBefore rest) = readSymbols? (φ :: stack) rest := by
  induction φ generalizing stack rest with
  | constant | atom => rw [symbolsBefore, readSymbols?]
  | not operand ih => rw [symbolsBefore, ih, readSymbols?]
  | binary c left right ihl ihr => rw [symbolsBefore, ihl, ihr, readSymbols?]

/-- **Reading the post-order of a formula gives the formula.** -/
theorem ofPostOrder?_postOrder (φ : Formula) : ofPostOrder? φ.postOrder = some φ := by
  rw [ofPostOrder?, postOrder, readSymbols?_symbolsBefore, readSymbols?]

end Formula

end BeliefRevision

import BeliefRevision.Formula.Token

/-!
# Printing formulas

A formula is printed as the texts of its tokens. An operand that is itself a binary connective
stands in parentheses, so the text does not depend on precedence; the whole formula has none around
it.
-/

namespace BeliefRevision.Formula

/-- The tokens of a formula followed by `rest`. A binary formula that is an operand has parentheses. -/
def tokensBefore (isOperand : Bool) : Formula → List Token → List Token
  | .constant value, rest => .constant value :: rest
  | .atom name, rest => .atom name :: rest
  | .not operand, rest => .not :: operand.tokensBefore true rest
  | .binary c left right, rest =>
    if isOperand then
      .openParen :: left.tokensBefore true
        (.binary c :: right.tokensBefore true (.closeParen :: rest))
    else
      left.tokensBefore true (.binary c :: right.tokensBefore true rest)

/-- The tokens that a formula is printed with. -/
def tokens (φ : Formula) : List Token := φ.tokensBefore false []

theorem tokensBefore_eq_append (φ : Formula) (isOperand : Bool) (rest : List Token) :
    φ.tokensBefore isOperand rest = φ.tokensBefore isOperand [] ++ rest := by
  induction φ generalizing isOperand rest with
  | constant | atom => rfl
  | not operand ih => rw [tokensBefore, tokensBefore, ih, List.cons_append]
  | binary c left right ihl ihr =>
    rw [tokensBefore, tokensBefore]
    split
    · rw [ihl, ihr, ihl true (_ :: _), ihr true [_]]; simp
    · rw [ihl, ihr, ihl true (_ :: _)]; simp

/-- The text of a formula. -/
def display (φ : Formula) : String := String.ofList (φ.tokens.flatMap Token.text)

instance : ToString Formula := ⟨display⟩

end BeliefRevision.Formula

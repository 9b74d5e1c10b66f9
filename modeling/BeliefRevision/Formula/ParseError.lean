/-!
# Faults in the text of a formula

Positions count characters from 0.
-/

namespace BeliefRevision

/-- Why a text is not a formula. -/
inductive ParseError where
  /-- There is nothing but blanks. -/
  | empty
  /-- The text ends where an operand should stand. -/
  | unexpectedEnd
  /-- A token stands where it cannot stand. -/
  | unexpectedToken (position : Nat)
  /-- A parenthesis has no partner. -/
  | unbalancedParenthesis (position : Nat)
  /-- A character begins no token. -/
  | invalidCharacter (position : Nat)
deriving DecidableEq

/-- The wording of a fault. -/
def ParseError.message : ParseError → String
  | .empty => "Parse: empty formula"
  | .unexpectedEnd => "Parse: unexpected end of formula"
  | .unexpectedToken position => s!"Parse: unexpected token at {position}"
  | .unbalancedParenthesis position => s!"Parse: unbalanced parenthesis at {position}"
  | .invalidCharacter position => s!"Parse: invalid character at {position}"

end BeliefRevision

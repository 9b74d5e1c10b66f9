import BeliefRevision.Formula.Display

/-!
# Reading formulas

Lexemes are read one at a time, without looking ahead. Negation binds most tightly, then `∧`, `∨`,
`→` and `↔`; every binary connective groups to the left.

## How it works

Between two lexemes the reader is in one of two states. Either an operand must follow, and the
negations read so far wait for it; or an operand has just ended, and a connective or a closing
parenthesis may follow. In both states there are left operands that wait for their right one. A
connective takes the left operands that bind at least as tightly together with the operand that has
just ended, and waits with the result. An open parenthesis puts all that waits aside, and its partner
brings it back.
-/

namespace BeliefRevision

/-- How tightly a connective binds. -/
def Connective.strength : Connective → Nat
  | .and => 4
  | .or => 3
  | .implies => 2
  | .iff => 1

/-- Left operands and their connectives that wait for a right operand, the last read first. -/
abbrev Pending := List (Connective × Formula)

namespace Pending

/-- Gives the operand to all that waits. -/
def close (pending : Pending) (operand : Formula) : Formula :=
  pending.foldl (fun right waiting => .binary waiting.1 waiting.2 right) operand

/-- Gives the operand to all that binds at least as tightly as `c`, and lets the result wait with `c`. -/
def push (c : Connective) : Pending → Formula → Pending
  | [], operand => [(c, operand)]
  | (d, left) :: rest, operand =>
    if c.strength ≤ d.strength then push c rest (.binary d left operand)
    else (c, operand) :: (d, left) :: rest

end Pending

/-- An open parenthesis, with what waits for the group that it opens. -/
structure OpenGroup where
  position : Nat
  pending : Pending
  negations : Nat

/-- The formula under a number of negations. -/
def Formula.negated : Nat → Formula → Formula
  | 0, φ => φ
  | n + 1, φ => .not (φ.negated n)

/-- What is known of a formula after some of its lexemes. -/
inductive Progress where
  /-- An operand must follow. -/
  | awaiting (groups : List OpenGroup) (pending : Pending) (negations : Nat)
  /-- An operand has just ended. -/
  | ended (groups : List OpenGroup) (pending : Pending) (operand : Formula)

namespace Progress

/-- Before the first lexeme. -/
def start : Progress := .awaiting [] [] 0

/-- Reads one lexeme. -/
def step : Progress → Lexeme → Except ParseError Progress
  | .awaiting groups pending negations, ⟨position, token⟩ =>
    match token with
    | .constant value => .ok (.ended groups pending (.negated negations (.constant value)))
    | .atom name => .ok (.ended groups pending (.negated negations (.atom name)))
    | .not => .ok (.awaiting groups pending (negations + 1))
    | .openParen => .ok (.awaiting (⟨position, pending, negations⟩ :: groups) [] 0)
    | .closeParen => .error (.unbalancedParenthesis position)
    | .binary _ => .error (.unexpectedToken position)
  | .ended groups pending operand, ⟨position, token⟩ =>
    match token with
    | .binary c => .ok (.awaiting groups (pending.push c operand) 0)
    | .closeParen =>
      match groups with
      | [] => .error (.unbalancedParenthesis position)
      | group :: groups =>
        .ok (.ended groups group.pending (.negated group.negations (pending.close operand)))
    | _ => .error (.unexpectedToken position)

/-- The formula, if it may end here. -/
def finish : Progress → Except ParseError Formula
  | .awaiting .. => .error .unexpectedEnd
  | .ended [] pending operand => .ok (pending.close operand)
  | .ended (group :: _) _ _ => .error (.unbalancedParenthesis group.position)

/-- Reads all lexemes from a state on. -/
def run : Progress → List Lexeme → Except ParseError Formula
  | progress, [] => progress.finish
  | progress, lexeme :: rest =>
    match progress.step lexeme with
    | .ok progress => progress.run rest
    | .error fault => .error fault

end Progress

namespace Formula

/-- The formula that a text stands for. -/
def parse (text : List Char) : Except ParseError Formula :=
  match Token.lexemes text with
  | .error fault => .error fault
  | .ok [] => .error .empty
  | .ok lexemes => Progress.start.run lexemes

/-- The formula that a string stands for. -/
def ofString (text : String) : Except ParseError Formula := parse text.toList

end Formula

end BeliefRevision

import BeliefRevision.Formula.Basic
import BeliefRevision.Formula.ParseError
import BeliefRevision.Text.Blank

/-!
# Tokens of formulas

A text is cut into tokens from left to right. A word is as long as it can be; every other token is
one of the spellings of a table, in which no spelling is the beginning of another. Blanks between
tokens are dropped, and any other character is a fault of the whole text.

## Termination

`Token.scan` consumes at least one character in each step, so the length of the remaining text
decreases.
-/

namespace BeliefRevision

/-- The tokens that formulas are written with. -/
inductive Token where
  | constant (value : Bool)
  | atom (name : String)
  | not
  | binary (connective : Connective)
  | openParen
  | closeParen
deriving DecidableEq

/-- A token together with the position of its first character. -/
structure Lexeme where
  position : Nat
  token : Token
deriving DecidableEq

namespace Token

/-! ## Words -/

/-- The characters that a word begins with: ASCII letters and the underscore. -/
def isWordStart (c : Char) : Bool := c.isAlpha || c == '_'

/-- The characters that a word goes on with: ASCII letters, digits and the underscore. -/
def isWordChar (c : Char) : Bool := c.isAlphanum || c == '_'

/-- The words that are constants, in lower case and capitalised. -/
def constantWords : List (List Char × Bool) :=
  [("true".toList, true), ("True".toList, true), ("false".toList, false), ("False".toList, false)]

/-- The token of a word: a constant, or the atom of that name. -/
def ofWord (word : List Char) : Token :=
  match constantWords.lookup word with
  | some value => .constant value
  | none => .atom (String.ofList word)

/-! ## Signs -/

/-- The tokens that are no words, with every spelling that is read. -/
def spellings : List (List Char × Token) :=
  [("⊤".toList, .constant true),
    ("⊥".toList, .constant false),
    ("¬".toList, .not), ("~".toList, .not), ("!".toList, .not),
    ("∧".toList, .binary .and), ("&".toList, .binary .and), ("/\\".toList, .binary .and),
    ("∨".toList, .binary .or), ("|".toList, .binary .or), ("\\/".toList, .binary .or),
    ("→".toList, .binary .implies), ("->".toList, .binary .implies),
    ("=>".toList, .binary .implies),
    ("↔".toList, .binary .iff), ("<->".toList, .binary .iff), ("<=>".toList, .binary .iff),
    ("(".toList, .openParen),
    (")".toList, .closeParen)]

/-- No spelling is the beginning of another one, so the order of the table does not matter. -/
theorem spellings_prefix_free :
    ∀ s ∈ spellings, ∀ t ∈ spellings, s.1.isPrefixOf t.1 = true → s = t := by decide

/-- The token at the beginning of a text, and how many characters it has after its first one. -/
def leading? (first : Char) (rest : List Char) : Option (Token × Nat) :=
  if isWordStart first then
    let tail := rest.takeWhile isWordChar
    some (ofWord (first :: tail), tail.length)
  else
    match spellings.find? (·.1.isPrefixOf (first :: rest)) with
    | some (spelling, token) => some (token, spelling.length - 1)
    | none => none

/-! ## Texts -/

/-- Cuts the text that begins at `position`, behind the lexemes already found (the last one first). -/
def scan (position : Nat) (found : List Lexeme) : List Char → Except ParseError (List Lexeme)
  | [] => .ok found.reverse
  | first :: rest =>
    if Text.isBlank first then scan (position + 1) found rest
    else
      match leading? first rest with
      | some (token, more) =>
        scan (position + 1 + more) (⟨position, token⟩ :: found) (rest.drop more)
      | none => .error (.invalidCharacter position)
termination_by text => text.length
decreasing_by
  · simp
  · simp only [List.length_drop, List.length_cons]; omega

/-- The lexemes of a text. -/
def lexemes (text : List Char) : Except ParseError (List Lexeme) := scan 0 [] text

/-! ## Printing -/

/-- How a token is printed: a binary connective stands between single spaces. -/
def text : Token → List Char
  | .constant true => ['⊤']
  | .constant false => ['⊥']
  | .atom name => name.toList
  | .not => ['¬']
  | .binary .and => [' ', '∧', ' ']
  | .binary .or => [' ', '∨', ' ']
  | .binary .implies => [' ', '→', ' ']
  | .binary .iff => [' ', '↔', ' ']
  | .openParen => ['(']
  | .closeParen => [')']

end Token

end BeliefRevision

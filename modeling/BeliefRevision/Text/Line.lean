/-!
# Lines of bytes

A text file is a sequence of bytes. A line ends before a newline or at the end of the file, and is a
text only if its bytes are valid UTF-8.

## Termination

`lines` drops a line and its newline in each step, so the number of remaining bytes decreases.
-/

namespace BeliefRevision.Text

/-- The byte that ends a line. -/
def newline : UInt8 := 10

/-- The lines of a file, without the newlines. Nothing follows the last newline. -/
def lines : List UInt8 → List (List UInt8)
  | [] => []
  | first :: rest =>
    let line := (first :: rest).takeWhile (· ≠ newline)
    line :: lines (rest.drop line.length)
termination_by bytes => bytes.length
decreasing_by simp only [List.length_drop, List.length_cons]; omega

/-- The characters of a line, if it is valid UTF-8. -/
def decode? (line : List UInt8) : Option (List Char) :=
  (String.fromUTF8? ⟨line.toArray⟩).map String.toList

/-- The bytes of a text in UTF-8. -/
def encode (text : String) : List UInt8 := text.toUTF8.data.toList

end BeliefRevision.Text

import BeliefRevision.Base.Expansion
import BeliefRevision.Formula.Parser
import BeliefRevision.Text.Decimal
import BeliefRevision.Text.Line

/-!
# Belief files

A belief file has one belief on each line: a formula, perhaps with its priority and a blank in front.
Blanks around a line do not count, and neither do empty lines and lines that begin with `#`. Reading
stops at the first line that cannot be read or added; the beliefs above it stay.
-/

namespace BeliefRevision

/-- How many beliefs of a file were read, how many of them were added, and how many were there. -/
structure FileSummary where
  beliefs : Nat := 0
  added : Nat := 0
  duplicates : Nat := 0
deriving DecidableEq

namespace FileSummary

/-- Counts one more belief. -/
def count (summary : FileSummary) : Expansion → FileSummary
  | .added => { summary with beliefs := summary.beliefs + 1, added := summary.added + 1 }
  | .duplicate =>
    { summary with beliefs := summary.beliefs + 1, duplicates := summary.duplicates + 1 }

end FileSummary

/-! ## Lines -/

/-- What stands on a line. -/
inductive BeliefLine where
  /-- Nothing, or a comment. -/
  | skipped
  /-- A formula, and its priority if one is given. -/
  | belief (priority : Option Nat) (formula : Formula)
deriving DecidableEq

namespace BeliefLine

/-- The number in front of a line and the text behind it; there is none if the first word has other
characters than digits, or nothing follows it. -/
def priority? (text : List Char) : Option (Nat × List Char) :=
  match text.dropWhile (!Text.isBlank ·) with
  | [] => none
  | _ :: rest =>
    (Text.decimal? (text.takeWhile (!Text.isBlank ·))).map fun priority => (priority, rest)

/-- Reads a trimmed text on the line with the given number. -/
def ofText (number : Nat) (text : List Char) : Except Error BeliefLine :=
  if text.isEmpty || text.head? == some '#' then .ok .skipped
  else
    match priority? text with
    | some (priority, rest) =>
      if Parameter.defaultPriority.Admits priority then
        match Formula.parse rest with
        | .ok formula => .ok (.belief (some priority) formula)
        | .error _ => .error (.malformedLine number)
      else .error (.malformedPriority number)
    | none =>
      match Formula.parse text with
      | .ok formula => .ok (.belief none formula)
      | .error _ => .error (.malformedLine number)

/-- Reads the bytes of the line with the given number. -/
def ofBytes (number : Nat) (bytes : List UInt8) : Except Error BeliefLine :=
  match Text.decode? bytes with
  | some text => ofText number (Text.trim text)
  | none => .error (.malformedLine number)

end BeliefLine

/-! ## Files -/

namespace Operation

/-- Reads lines, the first of which has the given number, on top of what was counted before. -/
def readLines : Nat → FileSummary → List (List UInt8) → Operation FileSummary
  | _, summary, [] => pure summary
  | number, summary, line :: lines => do
    match BeliefLine.ofBytes number line with
    | .error error => throw error
    | .ok .skipped => readLines (number + 1) summary lines
    | .ok (.belief (some priority) φ) =>
      let expansion ← expandWith φ priority
      readLines (number + 1) (summary.count expansion) lines
    | .ok (.belief none φ) =>
      let expansion ← expand φ
      readLines (number + 1) (summary.count expansion) lines

/-- Adds the beliefs of a file to the base. -/
def readBeliefs (file : List UInt8) : Operation FileSummary := do
  let summary ← readLines 1 {} (Text.lines file)
  emit (.beliefsRead summary.beliefs)
  emit (.beliefsAdded summary.added summary.duplicates)
  pure summary

end Operation

end BeliefRevision

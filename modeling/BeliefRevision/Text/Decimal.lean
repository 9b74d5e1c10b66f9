/-!
# Decimal numbers

Natural numbers written with ASCII digits. Leading zeros are allowed, separators are not.
-/

namespace BeliefRevision.Text

/-- The value of an ASCII digit. -/
def digit? (c : Char) : Option Nat :=
  if c.isDigit then some (c.toNat - '0'.toNat) else none

/-- The number that `value` becomes when the digits of the text are written behind it. -/
def decimalFrom? (value : Nat) : List Char → Option Nat
  | [] => some value
  | c :: rest =>
    match digit? c with
    | some digit => decimalFrom? (10 * value + digit) rest
    | none => none

/-- The number that a text of one digit or more stands for. -/
def decimal? : List Char → Option Nat
  | [] => none
  | text => decimalFrom? 0 text

/-- The number that a text stands for, perhaps with a plus sign in front. -/
def signedDecimal? : List Char → Option Nat
  | '+' :: text => decimal? text
  | text => decimal? text

/-- A text with a character that is no digit stands for no number. -/
theorem decimalFrom?_eq_none {text : List Char} {c : Char} (hc : c ∈ text)
    (h : c.isDigit = false) (value : Nat) : decimalFrom? value text = none := by
  induction text generalizing value with
  | nil => simp at hc
  | cons d rest ih =>
    rw [decimalFrom?]
    split
    · next digit hd =>
      rcases List.mem_cons.mp hc with rfl | hc
      · simp [digit?, h] at hd
      · exact ih hc _
    · rfl

end BeliefRevision.Text

/-!
# Quoted texts

A text between double quotes, in one line: quotes, backslashes and the control characters of ASCII are
written as escapes. Characters beyond ASCII are written as they stand.
-/

namespace BeliefRevision.Text

/-- The characters with an escape of their own, and what stands behind the backslash there. -/
def shortEscapes : List (Char × Char) :=
  [('\x00', '0'), ('\t', 't'), ('\n', 'n'), ('\r', 'r'), ('\x22', '\x22'), ('\x27', '\x27'),
    ('\\', '\\')]

/-- Whether the character is a control character of ASCII. -/
def isControl (c : Char) : Bool := c.toNat < 0x20 || c.toNat == 0x7F

/-- How a character is written between quotes. -/
def escaped (c : Char) : List Char :=
  match shortEscapes.lookup c with
  | some letter => ['\\', letter]
  | none =>
    if isControl c then '\\' :: 'u' :: '\x7b' :: Nat.toDigits 16 c.toNat ++ ['\x7d'] else [c]

/-- The text between double quotes. -/
def quoted (text : String) : String :=
  String.ofList ('\x22' :: text.toList.flatMap escaped ++ ['\x22'])

/-- No escape breaks the line. -/
theorem newline_not_mem_escaped (c : Char) : '\n' ∉ escaped c := by
  unfold escaped
  cases hlookup : shortEscapes.lookup c with
  | some letter =>
    obtain ⟨before, after, hsplit, _⟩ := List.lookup_eq_some_iff.mp hlookup
    have hletters : ∀ s ∈ shortEscapes, s.2 ≠ '\n' := by decide
    have hletter := hletters (c, letter) (by simp [hsplit])
    simpa using hletter.symm
  | none =>
    dsimp only
    split
    · next hcontrol =>
      have hdigits : ∀ n < 0x80, '\n' ∉ Nat.toDigits 16 n := by decide
      have hsmall : c.toNat < 0x80 := by
        unfold isControl at hcontrol
        grind
      simpa using hdigits c.toNat hsmall
    · rw [List.mem_singleton]
      rintro rfl
      exact absurd hlookup (by decide)

theorem newline_not_mem_quoted (text : String) : '\n' ∉ (quoted text).toList := by
  rw [quoted, String.toList_ofList]
  simp [List.mem_flatMap, newline_not_mem_escaped]

example : quoted "a\t\"b\"\x1b/é" = "\"a\\t\\\"b\\\"\\u\x7b1b\x7d/é\"" := by decide

end BeliefRevision.Text

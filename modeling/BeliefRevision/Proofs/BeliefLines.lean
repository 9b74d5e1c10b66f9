import BeliefRevision.BeliefFile
import BeliefRevision.Proofs.RoundTrip

/-!
# Lines of belief files

A belief is written on a line of its own, and what is read from that line is the belief. The parts of the
line are told apart since there is no blank in a number, and the line ends where its newline is since
there is none in a formula.

* `Text.lines_join` — a file of lines with their newlines has these lines
* `Text.decimal?_repr` — a number that was written is read
* `Formula.newline_not_mem_display`, `Formula.display_endsWell` — the characters of a formula
* `BeliefLine.ofBytes_display` — the line of a belief
-/

namespace BeliefRevision

/-! ## Bytes -/

namespace Text

theorem decode?_encode (text : String) : decode? (encode text) = some text.toList := by
  have hbytes : (⟨(encode text).toArray⟩ : ByteArray) = text.toByteArray := by
    rw [encode, Array.toArray_toList]
    rfl
  rw [decode?, hbytes, String.fromUTF8?, dif_pos text.isValidUTF8]
  rfl

theorem encode_append (text more : String) : encode (text ++ more) = encode text ++ encode more := by
  simp [encode, String.toUTF8]

theorem encode_eq_flatMap (text : String) : encode text = text.toList.flatMap String.utf8EncodeChar := by
  rw [encode, String.toUTF8, ← String.utf8Encode_toList, List.utf8Encode, List.toList_data_toByteArray]

/-- Each byte of a character is its code point or beyond ASCII. -/
theorem toNat_of_mem_utf8EncodeChar {c : Char} {byte : UInt8} (h : byte ∈ String.utf8EncodeChar c) :
    byte.toNat = c.val.toNat ∨ 128 ≤ byte.toNat := by
  unfold String.utf8EncodeChar at h
  dsimp only at h
  split at h
  · next hascii =>
    rw [List.mem_singleton.mp h, UInt8.toNat_ofNat']
    exact .inl (Nat.mod_eq_of_lt (by omega))
  · right
    split at h
    · rcases List.mem_pair.mp h with rfl | rfl <;> rw [UInt8.toNat_ofNat'] <;> omega
    · split at h <;> simp only [List.mem_cons, List.not_mem_nil, or_false] at h
      · rcases h with rfl | rfl | rfl <;> rw [UInt8.toNat_ofNat'] <;> omega
      · rcases h with rfl | rfl | rfl | rfl <;> rw [UInt8.toNat_ofNat'] <;> omega

/-- Only the newline is written with the byte that ends a line. -/
theorem newline_not_mem_encode {text : String} (h : '\n' ∉ text.toList) : newline ∉ encode text := by
  rw [encode_eq_flatMap, List.mem_flatMap]
  rintro ⟨c, hc, hnewline⟩
  have hten : newline.toNat = 10 := rfl
  have hval : c.val.toNat = 10 := by
    have hbyte := toNat_of_mem_utf8EncodeChar hnewline
    omega
  have hsame : c = '\n' := Char.ext (UInt32.toNat_inj.mp hval)
  exact h (hsame ▸ hc)

/-! ## Lines -/

theorem lines_cons {line : List UInt8} (h : newline ∉ line) (rest : List UInt8) :
    lines (line ++ newline :: rest) = line :: lines rest := by
  have hline : (line ++ newline :: rest).takeWhile (· ≠ newline) = line := by
    rw [List.takeWhile_append_of_pos, List.takeWhile_cons_of_neg (by simp), List.append_nil]
    intro byte hbyte
    simpa using ne_of_mem_of_not_mem hbyte h
  cases line with
  | nil => rw [List.nil_append, lines]; simp
  | cons first more =>
    rw [List.cons_append, lines]
    rw [List.cons_append] at hline
    have hrest : (more ++ newline :: rest).drop (first :: more).length = rest := by simp
    simp only [hline, hrest]

/-- **The lines of a file are those that it was put together from.** -/
theorem lines_join {texts : List String} (h : ∀ text ∈ texts, '\n' ∉ text.toList) :
    lines (encode (String.join (texts.map (· ++ "\n")))) = texts.map encode := by
  induction texts with
  | nil =>
    have hempty : encode (String.join []) = [] := by decide
    rw [List.map_nil, hempty, lines, List.map_nil]
  | cons text texts ih =>
    obtain ⟨htext, htexts⟩ := List.forall_mem_cons.mp h
    have hnewline : encode "\n" = [newline] := by decide
    rw [List.map_cons, String.join_cons, encode_append, encode_append, hnewline, List.append_assoc,
      List.singleton_append, lines_cons (newline_not_mem_encode htext), ih htexts, List.map_cons]

/-! ## Numbers -/

theorem decimalFrom?_of_isDigit {text : List Char} (h : ∀ c ∈ text, c.isDigit = true) (value : Nat) :
    decimalFrom? value text = some (Nat.ofDigitChars 10 text value) := by
  induction text generalizing value with
  | nil => rfl
  | cons c rest ih =>
    obtain ⟨hc, hrest⟩ := List.forall_mem_cons.mp h
    rw [decimalFrom?, digit?, if_pos hc]
    exact ih hrest _

theorem isDigit_of_mem_repr {n : Nat} {c : Char} (h : c ∈ n.repr.toList) : c.isDigit = true := by
  rw [Nat.toList_repr] at h
  exact Nat.isDigit_of_mem_toDigits (by decide) (by decide) h

theorem repr_toList_ne_nil (n : Nat) : n.repr.toList ≠ [] := by
  rw [Nat.toList_repr]
  exact Nat.toDigits_ne_nil

/-- **A number that was written is read.** -/
theorem decimal?_repr (n : Nat) : decimal? n.repr.toList = some n := by
  cases hdigits : n.repr.toList with
  | nil => exact absurd hdigits (repr_toList_ne_nil n)
  | cons first rest =>
    rw [decimal?, ← hdigits, decimalFrom?_of_isDigit fun _ => isDigit_of_mem_repr, Nat.toList_repr,
      Nat.ofDigitChars_toDigits (by decide) (by decide)]
    simp

/-! ## Blanks -/

theorem not_isBlank_of_isDigit {c : Char} (h : c.isDigit = true) : isBlank c = false := by
  have hlow : 48 ≤ c.toNat := (Char.isDigit_iff_toNat.mp h).1
  have hhigh : c.toNat ≤ 57 := (Char.isDigit_iff_toNat.mp h).2
  simp [isBlank, blankRanges]
  omega

/-- A text with no blank at either end. -/
theorem trim_eq_self {text : List Char} (hfirst : ∀ c ∈ text.head?, isBlank c = false)
    (hlast : ∀ c ∈ text.getLast?, isBlank c = false) : trim text = text := by
  have hfront : text.dropWhile isBlank = text := by
    cases text with
    | nil => rfl
    | cons c rest => rw [List.dropWhile_cons_of_neg (by simp [hfirst c rfl])]
  have hback : text.reverse.dropWhile isBlank = text.reverse := by
    rw [← List.head?_reverse] at hlast
    cases hreverse : text.reverse with
    | nil => rfl
    | cons c rest =>
      rw [hreverse] at hlast
      rw [List.dropWhile_cons_of_neg (by simp [hlast c rfl])]
  rw [trim, hfront, trimEnd, hback, List.reverse_reverse]

end Text

/-! ## Formulas -/

namespace Token

theorem not_isBlank_of_isWordChar {c : Char} (h : isWordChar c = true) : Text.isBlank c = false := by
  unfold isWordChar Char.isAlphanum at h
  by_cases hdigit : c.isDigit = true
  · exact Text.not_isBlank_of_isDigit hdigit
  · refine not_isBlank_of_isWordStart ?_
    simpa [isWordStart, hdigit] using h

theorem isWordChar_of_isWord {word : List Char} (h : IsWord word) :
    ∀ c ∈ word, isWordChar c = true := by
  cases word with
  | nil => exact h.elim
  | cons first rest =>
    refine List.forall_mem_cons.mpr ⟨?_, h.2⟩
    have hfirst := h.1
    unfold isWordStart at hfirst
    unfold isWordChar Char.isAlphanum
    grind

theorem newline_not_mem_texts {tokens : List Token} (h : Legible tokens) :
    '\n' ∉ tokens.flatMap text := by
  induction h with
  | nil => simp
  | @sign token rest htoken _ ih =>
    have hsign : '\n' ∉ token.text := by
      cases token with
      | atom name => cases htoken
      | constant value => cases value <;> decide
      | not | openParen | closeParen => decide
      | binary connective => cases connective <;> decide
    simp [hsign, ih]
  | @atom name rest hname _ _ ih =>
    have hatom : '\n' ∉ name.toList := by
      intro hmem
      have hchar := isWordChar_of_isWord hname.word _ hmem
      exact absurd hchar (by decide)
    simp [text, hatom, ih]

end Token

namespace Formula

variable {φ : Formula}

theorem newline_not_mem_display (hφ : ∀ name ∈ φ.names, IsAtomName name) :
    '\n' ∉ φ.display.toList := by
  rw [display, String.toList_ofList]
  exact Token.newline_not_mem_texts (legible_tokens hφ)

/-- The text of the tokens ends with a character that is no blank. -/
def EndsWell (tokens : List Token) : Prop :=
  ∃ c, (tokens.flatMap Token.text).getLast? = some c ∧ Text.isBlank c = false

theorem EndsWell.append {tokens : List Token} (h : EndsWell tokens) (before : List Token) :
    EndsWell (before ++ tokens) := by
  obtain ⟨c, hlast, hc⟩ := h
  refine ⟨c, ?_, hc⟩
  rw [List.flatMap_append, List.getLast?_append, hlast, Option.some_or]

theorem endsWell_tokensBefore (hφ : ∀ name ∈ φ.names, IsAtomName name) (isOperand : Bool) :
    EndsWell (φ.tokensBefore isOperand []) := by
  induction φ generalizing isOperand with
  | constant value => cases value <;> exact ⟨_, rfl, by decide⟩
  | atom name =>
    have hword := (hφ name (List.mem_singleton_self name)).word
    cases hlast : name.toList.getLast? with
    | none =>
      rw [List.getLast?_eq_none_iff] at hlast
      rw [hlast] at hword
      exact hword.elim
    | some c =>
      refine ⟨c, by simpa [tokensBefore, Token.text] using hlast, ?_⟩
      exact Token.not_isBlank_of_isWordChar
        (Token.isWordChar_of_isWord hword c (List.mem_of_getLast? hlast))
  | not operand ih => exact (ih hφ true).append [.not]
  | binary c left right ihl ihr =>
    unfold tokensBefore
    by_cases hoperand : isOperand = true
    · have hclose : EndsWell [.closeParen] := ⟨_, rfl, by decide⟩
      rw [if_pos hoperand, tokensBefore_eq_append left, tokensBefore_eq_append right]
      simpa using hclose.append (.openParen :: left.tokensBefore true [] ++
        .binary c :: right.tokensBefore true [])
    · rw [if_neg hoperand, tokensBefore_eq_append left]
      have hright := ihr (List.forall_mem_append.mp hφ).2 true
      exact (hright.append [.binary c]).append _

theorem display_endsWell (hφ : ∀ name ∈ φ.names, IsAtomName name) :
    ∃ c, φ.display.toList.getLast? = some c ∧ Text.isBlank c = false := by
  rw [display, String.toList_ofList]
  exact endsWell_tokensBefore hφ false

end Formula

/-! ## Beliefs -/

namespace Entry

variable {entry : Entry}

theorem toList_display (entry : Entry) :
    entry.display.toList = entry.priority.repr.toList ++ ' ' :: entry.formula.display.toList := by
  simp [display, ToString.toString]

theorem newline_not_mem_display (hnames : ∀ name ∈ entry.formula.names, IsAtomName name) :
    '\n' ∉ entry.display.toList := by
  rw [toList_display]
  rw [List.mem_append, List.mem_cons]
  rintro (hmem | hmem | hmem)
  · exact absurd (Text.isDigit_of_mem_repr hmem) (by decide)
  · exact absurd hmem (by decide)
  · exact Formula.newline_not_mem_display hnames hmem

theorem trim_display (hnames : ∀ name ∈ entry.formula.names, IsAtomName name) :
    Text.trim entry.display.toList = entry.display.toList := by
  rw [toList_display]
  refine Text.trim_eq_self ?_ ?_
  · intro c hc
    rw [List.head?_append_of_ne_nil _ (Text.repr_toList_ne_nil _)] at hc
    exact Text.not_isBlank_of_isDigit (Text.isDigit_of_mem_repr (List.mem_of_mem_head? hc))
  · obtain ⟨last, hlast, hblank⟩ := Formula.display_endsWell hnames
    intro c hc
    rw [List.getLast?_append, List.getLast?_cons, hlast] at hc
    cases hc
    exact hblank

end Entry

namespace BeliefLine

variable {entry : Entry}

/-- The number is told apart from the formula. -/
theorem priority?_display (entry : Entry) :
    priority? entry.display.toList = some (entry.priority, entry.formula.display.toList) := by
  have hdigits : ∀ c ∈ entry.priority.repr.toList, (!Text.isBlank c) = true := by
    intro c hc
    rw [Text.not_isBlank_of_isDigit (Text.isDigit_of_mem_repr hc)]
    rfl
  have hdrop : (' ' :: entry.formula.display.toList).dropWhile (!Text.isBlank ·) =
      ' ' :: entry.formula.display.toList := List.dropWhile_cons_of_neg (by decide)
  have htake : (' ' :: entry.formula.display.toList).takeWhile (!Text.isBlank ·) = [] :=
    List.takeWhile_cons_of_neg (by decide)
  rw [priority?, Entry.toList_display, List.dropWhile_append_of_pos hdigits, hdrop,
    List.takeWhile_append_of_pos hdigits, htake, List.append_nil, Text.decimal?_repr]
  rfl

/-- **What is read from the line of a belief is the belief.** -/
theorem ofBytes_display (number : Nat) (hpriority : Parameter.defaultPriority.Admits entry.priority)
    (hnames : ∀ name ∈ entry.formula.names, IsAtomName name) :
    ofBytes number (Text.encode entry.display) = .ok (.belief (some entry.priority) entry.formula) := by
  have hskip : ¬ (entry.display.toList.isEmpty || entry.display.toList.head? == some '#') = true := by
    rw [Entry.toList_display]
    cases hdigits : entry.priority.repr.toList with
    | nil => exact absurd hdigits (Text.repr_toList_ne_nil _)
    | cons first rest =>
      have hfirst : first ≠ '#' := by
        rintro rfl
        have hdigit : '#'.isDigit = true := Text.isDigit_of_mem_repr (hdigits ▸ List.mem_cons_self)
        exact absurd hdigit (by decide)
      simpa using hfirst
  have hformula : Formula.parse entry.formula.display.toList = .ok entry.formula :=
    Formula.ofString_display hnames
  unfold ofBytes
  rw [Text.decode?_encode]
  show ofText number (Text.trim entry.display.toList) = _
  rw [Entry.trim_display hnames, ofText, if_neg hskip, priority?_display]
  simp only [if_pos hpriority, hformula]

end BeliefLine

end BeliefRevision

import BeliefRevision.Proofs.Scanning

/-!
# Texts split into tokens

A text stands for some tokens if it is a row of their spellings with blanks wherever one likes. Words
are as long as they can be, so a spelling that is a word must not be followed by more of a word. No other
care is needed, and a text splits in at most one way.

* `Token.IsSpelling` — the table of spellings
* `SplitsInto` — texts and their tokens
* `splitsInto_iff` — cutting a text finds its tokens, and fails if there are none
-/

namespace BeliefRevision

namespace Token

/-! ## Spellings -/

/-- The table of spellings, apart from names. -/
def table : Token → List String
  | .constant true => ["⊤", "true", "True"]
  | .constant false => ["⊥", "false", "False"]
  | .not => ["¬", "~", "!"]
  | .binary .and => ["∧", "&", "/\\"]
  | .binary .or => ["∨", "|", "\\/"]
  | .binary .implies => ["→", "->", "=>"]
  | .binary .iff => ["↔", "<->", "<=>"]
  | .openParen => ["("]
  | .closeParen => [")"]
  | .atom _ => []

/-- The text is a way to write the token. A name is written as it is, if it can be read. -/
def IsSpelling (token : Token) (text : String) : Prop :=
  text ∈ token.table ∨ token = .atom text ∧ IsAtomName text

/-- A spelling is a sign that is read, or a word that stands for the token. -/
theorem isSpelling_iff {token : Token} {text : String} :
    token.IsSpelling text ↔
      (text.toList, token) ∈ spellings ∨ IsWord text.toList ∧ ofWord text.toList = token := by
  constructor
  · rintro (h | ⟨rfl, hname⟩)
    · have htable : ∀ text ∈ token.table,
          (text.toList, token) ∈ spellings ∨ IsWord text.toList ∧ ofWord text.toList = token := by
        unfold table
        split
        case h_10 => simp
        all_goals decide
      exact htable text h
    · exact .inr ⟨hname.word, ofWord_toList hname⟩
  · rintro (h | ⟨hword, rfl⟩)
    · have hsigns : ∀ s ∈ spellings, String.ofList s.1 ∈ s.2.table := by decide
      have hsign := hsigns _ h
      rw [String.ofList_toList] at hsign
      exact .inl hsign
    · unfold ofWord
      cases hlookup : constantWords.lookup text.toList with
      | some value =>
        obtain ⟨before, after, hsplit, _⟩ := List.lookup_eq_some_iff.mp hlookup
        have hmem : (text.toList, value) ∈ constantWords := by simp [hsplit]
        have hwords : ∀ w ∈ constantWords, String.ofList w.1 ∈ (constant w.2).table := by decide
        have hconstant := hwords _ hmem
        rw [String.ofList_toList] at hconstant
        exact .inl hconstant
      | none =>
        rw [String.ofList_toList]
        refine .inr ⟨rfl, hword, ?_⟩
        simpa using lookup_constantWords.mp hlookup

theorem spelling_ne_nil {spelling : List Char} {token : Token} (h : (spelling, token) ∈ spellings) :
    spelling ≠ [] := by
  have hall : ∀ s ∈ spellings, s.1 ≠ [] := by decide
  exact hall _ h

/-- The text does not end in the middle of a word, whatever is behind it. -/
def EndsBefore (text : String) (after : List Char) : Prop :=
  IsWord text.toList → ∀ c ∈ after.head?, isWordChar c = false

/-- A spelling is cut off at the beginning of a text. -/
theorem leading?_isSpelling {token : Token} {text : String} {after : List Char}
    (h : token.IsSpelling text) (hend : EndsBefore text after) :
    ∃ first more, text.toList = first :: more ∧ Text.isBlank first = false ∧
      leading? first (more ++ after) = some (token, more.length) := by
  unfold EndsBefore at hend
  cases hletters : text.toList with
  | nil =>
    rw [isSpelling_iff, hletters] at h
    rcases h with h | ⟨h, _⟩
    · exact absurd rfl (spelling_ne_nil h)
    · exact h.elim
  | cons first more =>
    rw [isSpelling_iff, hletters] at h
    rw [hletters] at hend
    refine ⟨first, more, rfl, ?_⟩
    rcases h with h | ⟨hword, rfl⟩
    · exact ⟨(spellings_begin h).2, leading?_spelling h after⟩
    · exact ⟨not_isBlank_of_isWordStart hword.1, leading?_word hword (hend hword)⟩

/-- What is cut off is a spelling of the token. -/
theorem isSpelling_of_leading? {first : Char} {rest : List Char} {token : Token} {more : Nat}
    (h : leading? first rest = some (token, more)) :
    ∃ text, token.IsSpelling text ∧ text.toList ++ rest.drop more = first :: rest ∧
      EndsBefore text (rest.drop more) := by
  unfold leading? at h
  by_cases hstart : isWordStart first = true
  · rw [if_pos hstart] at h
    cases h
    have hword : IsWord (first :: rest.takeWhile isWordChar) :=
      ⟨hstart, List.all_eq_true.mp List.all_takeWhile⟩
    have hrest : rest.takeWhile isWordChar ++ rest.dropWhile isWordChar = rest :=
      List.takeWhile_append_dropWhile
    have hdrop : rest.drop (rest.takeWhile isWordChar).length = rest.dropWhile isWordChar := by
      have hleft : (rest.takeWhile isWordChar ++ rest.dropWhile isWordChar).drop
        (rest.takeWhile isWordChar).length = rest.dropWhile isWordChar := List.drop_left
      rwa [hrest] at hleft
    refine ⟨String.ofList (first :: rest.takeWhile isWordChar), ?_, ?_, fun _ => ?_⟩
    · rw [isSpelling_iff, String.toList_ofList]
      exact .inr ⟨hword, rfl⟩
    · rw [String.toList_ofList, hdrop, List.cons_append, hrest]
    · rw [hdrop]
      have hhead := List.head?_dropWhile_not isWordChar rest
      cases hafter : (rest.dropWhile isWordChar).head? with
      | none => simp
      | some c => simpa [hafter] using hhead
  · rw [if_neg hstart] at h
    cases hfind : spellings.find? (·.1.isPrefixOf (first :: rest)) with
    | none =>
      rw [hfind] at h
      cases h
    | some found =>
      rw [hfind] at h
      cases h
      obtain ⟨spelling, token⟩ := found
      have hmem := List.mem_of_find?_eq_some hfind
      obtain ⟨after, hafter⟩ : spelling <+: first :: rest := by simpa using List.find?_some hfind
      cases spelling with
      | nil => exact absurd rfl (spelling_ne_nil hmem)
      | cons c more =>
        obtain ⟨rfl, rfl⟩ : c = first ∧ more ++ after = rest := by simpa using hafter
        refine ⟨String.ofList (c :: more), ?_, by simp, fun hword => ?_⟩
        · rw [isSpelling_iff, String.toList_ofList]
          exact .inl hmem
        · rw [String.toList_ofList] at hword
          exact absurd hword.1 hstart

/-! ## Splitting -/

end Token

/-- The text is a row of spellings of the tokens, with blanks in front, in between and behind. -/
inductive SplitsInto : List Char → List Token → Prop where
  | nil : SplitsInto [] []
  | blank {c : Char} {text : List Char} {tokens : List Token} (hblank : Text.isBlank c = true)
      (hrest : SplitsInto text tokens) : SplitsInto (c :: text) tokens
  | token {token : Token} {spelling : String} {after : List Char} {tokens : List Token}
      (hspelling : token.IsSpelling spelling) (hend : Token.EndsBefore spelling after)
      (hrest : SplitsInto after tokens) :
      SplitsInto (spelling.toList ++ after) (token :: tokens)

namespace Token

variable {text : List Char} {tokens : List Token}

theorem scan_of_splitsInto (h : SplitsInto text tokens) (position : Nat) (found : List Lexeme) :
    ∃ lexemes, scan position found text = .ok (found.reverse ++ lexemes) ∧
      lexemes.map Lexeme.token = tokens := by
  induction h generalizing position found with
  | nil => exact ⟨[], by rw [scan, List.append_nil], rfl⟩
  | blank hblank _ ih =>
    rw [scan_blank hblank]
    exact ih (position + 1) found
  | @token token spelling after tokens hspelling hend hrest ih =>
    obtain ⟨first, more, hletters, hblank, hleading⟩ := leading?_isSpelling hspelling hend
    rw [hletters, List.cons_append, scan_leading hblank hleading]
    obtain ⟨lexemes, hscan, htokens⟩ := ih (position + 1 + more.length) (⟨position, token⟩ :: found)
    refine ⟨⟨position, token⟩ :: lexemes, ?_, by rw [List.map_cons, htokens]⟩
    rw [hscan, List.reverse_cons, List.append_assoc, List.singleton_append]

theorem splitsInto_of_scan {position : Nat} {found lexemes : List Lexeme}
    (h : scan position found text = .ok lexemes) :
    ∃ more, lexemes = found.reverse ++ more ∧ SplitsInto text (more.map Lexeme.token) := by
  fun_induction scan position found text with
  | case1 =>
    cases h
    exact ⟨[], by simp, .nil⟩
  | case2 position found first rest hblank ih =>
    obtain ⟨more, hmore, hsplits⟩ := ih h
    exact ⟨more, hmore, .blank hblank hsplits⟩
  | case3 position found first rest hblank token length hleading ih =>
    obtain ⟨more, rfl, hsplits⟩ := ih h
    obtain ⟨spelling, hspelling, htext, hend⟩ := isSpelling_of_leading? hleading
    refine ⟨⟨position, token⟩ :: more, by simp, ?_⟩
    rw [← htext]
    exact .token hspelling hend hsplits
  | case4 => cases h

end Token

/-- **Cutting a text finds the tokens that it splits into**, and fails if there are none. -/
theorem splitsInto_iff {text : List Char} {tokens : List Token} :
    SplitsInto text tokens ↔
      ∃ lexemes, Token.lexemes text = .ok lexemes ∧ lexemes.map Lexeme.token = tokens := by
  constructor
  · intro h
    exact Token.scan_of_splitsInto h 0 []
  · rintro ⟨lexemes, hlexemes, rfl⟩
    obtain ⟨more, rfl, hsplits⟩ := Token.splitsInto_of_scan hlexemes
    exact hsplits

/-- Whether a text splits into the tokens is found out by cutting it. -/
instance SplitsInto.decidable (text : List Char) (tokens : List Token) :
    Decidable (SplitsInto text tokens) :=
  decidable_of_iff ((Token.lexemes text).toOption.map (List.map Lexeme.token) = some tokens) <| by
    rw [splitsInto_iff]
    cases Token.lexemes text <;> simp [Except.toOption]

/-- A text splits in one way. -/
theorem SplitsInto.unique {text : List Char} {tokens others : List Token}
    (h : SplitsInto text tokens) (h' : SplitsInto text others) : tokens = others := by
  obtain ⟨lexemes, hlexemes, rfl⟩ := splitsInto_iff.mp h
  obtain ⟨lexemes', hlexemes', rfl⟩ := splitsInto_iff.mp h'
  rw [hlexemes] at hlexemes'
  cases hlexemes'
  rfl

end BeliefRevision
